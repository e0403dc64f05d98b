import Embedded.Lib.Canonical

/-! # The gzip format

What the inflater is for: the byte strings that a gzip member encodes. `Stream` is DEFLATE as a
relation between bits and output, block by block; `Codes` is the coded data of a block, `Lengths` the
code lengths of a dynamic one. Nothing here says how to decode. A flag tells the streams in which a
dynamic block announces more than 30 distance codes: the format has room for 32, though the last two
never occur. -/

namespace Embedded.Kernel.Gzip

open Canonical

/-! ## Lengths and distances

The length codes 0 to 27 go up in groups of four, the distance codes in groups of two, each group
with one more extra bit than the one before; length code 28 is 258. -/

def lengthExtra (i : Nat) : Nat := if i < 8 ∨ i = 28 then 0 else i / 4 - 1

def lengthBase (i : Nat) : Nat :=
  if i = 28 then 258 else if i < 8 then i + 3 else 3 + (4 + i % 4) * 2 ^ (i / 4 - 1)

def distanceExtra (i : Nat) : Nat := if i < 4 then 0 else i / 2 - 1

def distanceBase (i : Nat) : Nat := if i < 4 then i + 1 else 1 + (2 + i % 2) * 2 ^ (i / 2 - 1)

/-- The code lengths of a fixed block. -/
def fixedLitLengths : List Nat :=
  (List.range 288).map fun s => if s < 144 then 8 else if s < 256 then 9 else if s < 280 then 7 else 8

def fixedDistLengths : List Nat := List.replicate 32 5

/-- The order in which the lengths of the code length code are sent. -/
def clOrder : List Nat := [16, 17, 18, 0, 8, 7, 9, 6, 10, 5, 11, 4, 12, 3, 13, 2, 14, 1, 15]

/-! ## Coded data -/

/-- The code word of `s` in the code with lengths `ls`. -/
def Sends (ls : List Nat) (s : Nat) (c : List Bool) : Prop := HasWord ls s ∧ c = word ls s

/-- `n` bytes copied from `dist` behind the end, which may overlap what is copied. -/
def copyFrom (dist : Nat) : Nat → List UInt8 → List UInt8
  | 0, out => out
  | n + 1, out => copyFrom dist n (out ++ [out.getD (out.length - dist) 0])

/-- The coded data of a block: with the output so far, the bits left and the output after it. -/
inductive Codes (ll dl : List Nat) :
    List Bool → List UInt8 → List Bool → List UInt8 → Prop
  | stop {c rest out} : Sends ll 256 c → Codes ll dl (c ++ rest) out rest out
  | literal {c bs rest out out'} (b : UInt8) : Sends ll b.toNat c →
      Codes ll dl bs (out ++ [b]) rest out' → Codes ll dl (c ++ bs) out rest out'
  | copy {c d bs rest out out'} (lsym le dsym de : Nat) : lsym < 29 → dsym < 30 →
      Sends ll (257 + lsym) c → le < 2 ^ lengthExtra lsym →
      Sends dl dsym d → de < 2 ^ distanceExtra dsym →
      distanceBase dsym + de ≤ out.length →
      Codes ll dl bs (copyFrom (distanceBase dsym + de) (lengthBase lsym + le) out) rest out' →
      Codes ll dl (c ++ (lsb (lengthExtra lsym) le ++ (d ++ (lsb (distanceExtra dsym) de ++ bs))))
        out rest out'

/-- The code lengths of a dynamic block in the code with lengths `cl`: bits, lengths so far, bits
left, all lengths. -/
inductive Lengths (cl : List Nat) : List Bool → List Nat → List Bool → List Nat → Prop
  | stop {rest lens} : Lengths cl rest lens rest lens
  | one {c bs rest lens lens'} (l : Nat) : l < 16 → Sends cl l c →
      Lengths cl bs (lens ++ [l]) rest lens' → Lengths cl (c ++ bs) lens rest lens'
  | again {c bs rest lens lens'} (l r : Nat) : r < 4 → Sends cl 16 c →
      Lengths cl bs (lens ++ [l] ++ List.replicate (3 + r) l) rest lens' →
      Lengths cl (c ++ (lsb 2 r ++ bs)) (lens ++ [l]) rest lens'
  | zeros {c bs rest lens lens'} (r : Nat) : r < 8 → Sends cl 17 c →
      Lengths cl bs (lens ++ List.replicate (3 + r) 0) rest lens' →
      Lengths cl (c ++ (lsb 3 r ++ bs)) lens rest lens'
  | manyZeros {c bs rest lens lens'} (r : Nat) : r < 128 → Sends cl 18 c →
      Lengths cl bs (lens ++ List.replicate (11 + r) 0) rest lens' →
      Lengths cl (c ++ (lsb 7 r ++ bs)) lens rest lens'

/-- The lengths of the code length code that are sent, and zero for the others. -/
def clcBits (cl : List Nat) (hclen : Nat) : List Bool :=
  (clOrder.take hclen).flatMap fun o => lsb 3 (cl.getD o 0)

/-! ## Blocks -/

/-- A block behind its final bit: bits, output so far, bits left, output. The bits of the member are
whole bytes, so that the padding of a stored block ends where a multiple of eight is left. -/
inductive Body : Bool → List Bool → List UInt8 → List Bool → List UInt8 → Prop
  | stored {pad rest out} (data : List UInt8) : data.length < 65536 → pad.length < 8 →
      rest.length % 8 = 0 →
      Body false (lsb 2 0 ++ (pad ++ (lsb 16 data.length ++ (lsb 16 (65535 - data.length) ++
        (bitsOf data ++ rest))))) out rest (out ++ data)
  | fixed {bs rest out out'} : Codes fixedLitLengths fixedDistLengths bs out rest out' →
      Body false (lsb 2 1 ++ bs) out rest out'
  | dynamic {bs mid rest out out'} (hlit hdist hclen : Nat) (cl lens : List Nat) :
      257 ≤ hlit → hlit ≤ 286 → 1 ≤ hdist → hdist ≤ 32 → 4 ≤ hclen → hclen ≤ 19 →
      cl.length = 19 → (∀ l ∈ cl, l < 8) → (∀ o ∈ clOrder.drop hclen, cl.getD o 0 = 0) →
      Fits cl → Lengths cl bs [] mid lens → lens.length = hlit + hdist →
      Fits (lens.take hlit) → Fits (lens.drop hlit) →
      Codes (lens.take hlit) (lens.drop hlit) mid out rest out' →
      Body (decide (30 < hdist)) (lsb 2 2 ++ (lsb 5 (hlit - 257) ++ (lsb 5 (hdist - 1) ++
        (lsb 4 (hclen - 4) ++ (clcBits cl hclen ++ bs))))) out rest out'

/-- Blocks up to the final one. The flag says that one of them is a dynamic one with more than 30
distance codes. -/
inductive Stream : Bool → List Bool → List UInt8 → List Bool → List UInt8 → Prop
  | last {w bs out rest out'} : Body w bs out rest out' →
      Stream w (lsb 1 1 ++ bs) out rest out'
  | more {w w' bs mid out out' rest out''} : Body w bs out mid out' →
      Stream w' mid out' rest out'' → Stream (w || w') (lsb 1 0 ++ bs) out rest out''

/-! ## Members -/

/-- The CRC register after one more bit. -/
def crcBit (c : Nat) (b : Bool) : Nat :=
  (c / 2) ^^^ (if (decide (c % 2 = 1) != b) = true then 0xEDB88320 else 0)

/-- The CRC-32 of a byte string: the register of the reflected polynomial, fed bit by bit. -/
def crc (data : List UInt8) : Nat := (bitsOf data).foldl crcBit 0xFFFFFFFF ^^^ 0xFFFFFFFF

/-- `n` bytes of `v`, little-endian. -/
def leBytes : Nat → Nat → List UInt8
  | 0, _ => []
  | n + 1, v => UInt8.ofNat v :: leBytes n (v / 256)

/-- The fields of a member's header. -/
structure Header where
  text : Bool
  mtimeXflOs : List UInt8
  extra : Option (List UInt8)
  name : Option (List UInt8)
  comment : Option (List UInt8)
  hcrc : Option (UInt8 × UInt8)
  six : mtimeXflOs.length = 6
  extra_short : ∀ x ∈ extra, x.length < 65536
  name_ends : ∀ x ∈ name, 0 ∉ x
  comment_ends : ∀ x ∈ comment, 0 ∉ x

/-- FTEXT, FHCRC, FEXTRA, FNAME and FCOMMENT. -/
def Header.flags (h : Header) : Nat :=
  h.text.toNat + 2 * h.hcrc.isSome.toNat + 4 * h.extra.isSome.toNat + 8 * h.name.isSome.toNat +
    16 * h.comment.isSome.toNat

def extraBytes : Option (List UInt8) → List UInt8
  | some x => leBytes 2 x.length ++ x
  | none => []

def zeroTerminated : Option (List UInt8) → List UInt8
  | some x => x ++ [0]
  | none => []

def hcrcBytes : Option (UInt8 × UInt8) → List UInt8
  | some x => [x.1, x.2]
  | none => []

def Header.bytes (h : Header) : List UInt8 :=
  [0x1f, 0x8b, 8, UInt8.ofNat h.flags] ++ (h.mtimeXflOs ++ (extraBytes h.extra ++
    (zeroTerminated h.name ++ (zeroTerminated h.comment ++ hcrcBytes h.hcrc))))

/-- `src` is a gzip member that encodes `data`; `wide` is the flag of its stream. -/
def Member (wide : Bool) (src data : List UInt8) : Prop :=
  ∃ (h : Header) (payload : List UInt8) (rest : List Bool),
    Stream wide (bitsOf payload) [] rest data ∧ rest.length < 8 ∧
      src = h.bytes ++ (payload ++ (leBytes 4 (crc data) ++ leBytes 4 data.length))

end Embedded.Kernel.Gzip
