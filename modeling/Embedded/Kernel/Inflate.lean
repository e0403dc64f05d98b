import Embedded.Lib.Mem
import Embedded.Lib.Signed

/-! # The inflater (`kernel/lib/inflate.c`)

DEFLATE is decoded straight into the output buffer, so that matches copy from earlier output. The
reader keeps up to 32 bits; Huffman tables are the numbers of codes of each length and the symbols in
the order of length and symbol. `gunzip` unwraps a gzip member and checks its size and CRC.

Errors are the negative results of the C functions. `long` has 32 bits on the target. The loops run
on fuel that the input bounds: every round takes at least one bit. -/

namespace Embedded.Kernel.Inflate

/-! ## The bit reader -/

structure Bitr where
  src : List UInt8
  pos : Nat
  bitbuf : Nat
  bitcnt : Nat
  err : Bool

/-- The loop of `bits`: bytes are read until there are `n` bits; `false` is the end of the input. -/
def refill (n : Nat) : Nat → Bitr → Bool × Bitr
  | 0, b => (decide (n ≤ b.bitcnt), b)
  | f + 1, b =>
    if n ≤ b.bitcnt then (true, b)
    else match b.src[b.pos]? with
      | none => (false, { b with err := true })
      | some c =>
        refill n f { b with
          bitbuf := b.bitbuf ||| (c.toNat <<< b.bitcnt) % 4294967296
          bitcnt := b.bitcnt + 8
          pos := b.pos + 1 }

/-- `bits(b, n)`, for `n` up to 24. -/
def bits (b : Bitr) (n : Nat) : Nat × Bitr :=
  match refill n 3 b with
  | (false, b) => (0, b)
  | (true, b) =>
    (b.bitbuf % 2 ^ n, { b with bitbuf := b.bitbuf / 2 ^ n, bitcnt := b.bitcnt - n })

/-! ## Huffman tables -/

def maxBits : Nat := 15

structure Huff where
  count : Nat → Nat
  symbol : Nat → Nat

/-- `h->count[length[s]]++` for all symbols. -/
def countLoop (length : List Nat) : Nat → Nat :=
  length.foldl (fun c l => Function.update c l (c l + 1)) fun _ => 0

/-- The check for an over-subscribed set: `left` after length `l` and the following ones. -/
def leftLoop (count : Nat → Nat) : Nat → Nat → Int → Option Int
  | 0, _, left => some left
  | n + 1, l, left =>
    let left := 2 * left - count l
    if left < 0 then none else leftLoop count n (l + 1) left

/-- `offs[l]`. -/
def offsAt (count : Nat → Nat) : Nat → Nat
  | 0 => 0
  | 1 => 0
  | l + 2 => offsAt count (l + 1) + count (l + 1)

/-- The loop that sorts the symbols, from symbol `s` on. -/
def symbolLoop : Nat → List Nat → (Nat → Nat) → (Nat → Nat) → Nat → Nat
  | _, [], _, symbol => symbol
  | s, l :: rest, offs, symbol =>
    if l ≠ 0 then
      symbolLoop (s + 1) rest (Function.update offs l (offs l + 1))
        (Function.update symbol (offs l) s)
    else symbolLoop (s + 1) rest offs symbol

/-- `huff_build`; `none` is an over-subscribed set. Symbols that are not set are never read. -/
def huffBuild (length : List Nat) : Option Huff :=
  let count := countLoop length
  if count 0 = length.length then some ⟨count, fun _ => 0⟩
  else match leftLoop count maxBits 1 1 with
    | none => none
    | some _ => some ⟨count, symbolLoop 0 length (offsAt count) fun _ => 0⟩

/-- The loop of `huff_decode`. The low bit of `code` is clear when the next bit is appended. -/
def decodeLoop (h : Huff) : Nat → Nat → Nat → Nat → Nat → Bitr → Option Nat × Bitr
  | 0, _, _, _, _, b => (none, b)
  | n + 1, len, code, first, index, b =>
    let r := bits b 1
    let code := code + r.1
    let cnt := h.count len
    if code < first + cnt then (some (h.symbol (index + (code - first))), r.2)
    else decodeLoop h n (len + 1) (2 * code) (2 * (first + cnt)) (index + cnt) r.2

/-- `huff_decode`; `none` is -1. -/
def huffDecode (b : Bitr) (h : Huff) : Option Nat × Bitr := decodeLoop h maxBits 1 0 0 0 b

/-! ## Lengths and distances -/

def lenBase : List Nat :=
  [3, 4, 5, 6, 7, 8, 9, 10, 11, 13, 15, 17, 19, 23, 27, 31, 35, 43, 51, 59, 67, 83, 99, 115, 131,
    163, 195, 227, 258]

def lenExtra : List Nat :=
  [0, 0, 0, 0, 0, 0, 0, 0, 1, 1, 1, 1, 2, 2, 2, 2, 3, 3, 3, 3, 4, 4, 4, 4, 5, 5, 5, 5, 0]

def distBase : List Nat :=
  [1, 2, 3, 4, 5, 7, 9, 13, 17, 25, 33, 49, 65, 97, 129, 193, 257, 385, 513, 769, 1025, 1537, 2049,
    3073, 4097, 6145, 8193, 12289, 16385, 24577]

def distExtra : List Nat :=
  [0, 0, 0, 0, 1, 1, 2, 2, 3, 3, 4, 4, 5, 5, 6, 6, 7, 7, 8, 8, 9, 9, 10, 10, 11, 11, 12, 12, 13, 13]

/-! ## One block -/

/-- `dst[out + i] = dst[from + i]` for `n` values of `i`. -/
def copyLoop (out src : Nat) : Nat → Nat → Mem → Mem
  | 0, _, dst => dst
  | n + 1, i, dst => copyLoop out src n (i + 1) (dst.w8 (add32 out i) (dst (add32 src i)))

/-- The loop of `inflate_block`. -/
def inflateBlock (lh dh : Huff) (dstcap : Nat) :
    Nat → Bitr → Mem → Nat → Except Int (Bitr × Mem × Nat)
  | 0, _, _, _ => .error (-1)
  | f + 1, b, dst, out =>
    match huffDecode b lh with
    | (none, _) => .error (-1)
    | (some sym, b) =>
      if b.err then .error (-1)
      else if sym = 256 then .ok (b, dst, out)
      else if sym < 256 then
        if dstcap ≤ out then .error (-2)
        else inflateBlock lh dh dstcap f b (dst.w8 out (UInt8.ofNat sym)) (out + 1)
      else if 29 ≤ sym - 257 then .error (-3)
      else
        let le := bits b (lenExtra.getD (sym - 257) 0)
        let length := lenBase.getD (sym - 257) 0 + le.1
        match huffDecode le.2 dh with
        | (none, _) => .error (-4)
        | (some dsym, b) =>
          if b.err then .error (-4)
          else if 30 ≤ dsym then .error (-4)
          else
            let de := bits b (distExtra.getD dsym 0)
            let dist := distBase.getD dsym 0 + de.1
            if out < dist then .error (-5)
            else if dstcap < add32 out length then .error (-6)
            else inflateBlock lh dh dstcap f de.2 (copyLoop out (out - dist) length 0 dst)
              (add32 out length)

/-! ## The tables of a block -/

def fixedLit : List Nat :=
  List.replicate 144 8 ++ List.replicate 112 9 ++ List.replicate 24 7 ++ List.replicate 8 8

def fixedDist : List Nat := List.replicate 30 5

def clcOrder : List Nat := [16, 17, 18, 0, 8, 7, 9, 6, 10, 5, 11, 4, 12, 3, 13, 2, 14, 1, 15]

/-- `clc_len[clc_order[i]] = bits(b, 3)`. -/
def readClc : List Nat → Bitr → List Nat → List Nat × Bitr
  | [], b, clc => (clc, b)
  | o :: rest, b, clc =>
    let r := bits b 3
    readClc rest r.2 (clc.set o r.1)

/-- `while (rep-- && n < total) lengths[n++] = v`. -/
def pushReps (total v : Nat) : Nat → List Nat → List Nat
  | 0, lengths => lengths
  | rep + 1, lengths =>
    if lengths.length < total then pushReps total v rep (lengths ++ [v]) else lengths

/-- The loop that decodes the code lengths; `lengths` holds those there are. -/
def lengthsLoop (clc : Huff) (total : Nat) : Nat → Bitr → List Nat → Except Int (List Nat × Bitr)
  | 0, b, lengths => if lengths.length < total then .error (-3) else .ok (lengths, b)
  | f + 1, b, lengths =>
    if lengths.length < total then
      match huffDecode b clc with
      | (none, _) => .error (-3)
      | (some sym, b) =>
        if b.err then .error (-3)
        else if sym < 16 then lengthsLoop clc total f b (lengths ++ [sym])
        else if sym = 16 then
          if lengths.length = 0 then .error (-4)
          else
            let r := bits b 2
            lengthsLoop clc total f r.2
              (pushReps total (lengths.getD (lengths.length - 1) 0) (3 + r.1) lengths)
        else if sym = 17 then
          let r := bits b 3
          lengthsLoop clc total f r.2 (pushReps total 0 (3 + r.1) lengths)
        else
          let r := bits b 7
          lengthsLoop clc total f r.2 (pushReps total 0 (11 + r.1) lengths)
    else .ok (lengths, b)

/-- `build_dynamic`. -/
def buildDynamic (b : Bitr) : Except Int (Huff × Huff × Bitr) :=
  let r1 := bits b 5
  let r2 := bits r1.2 5
  let r3 := bits r2.2 4
  let hlit := r1.1 + 257
  let hdist := r2.1 + 1
  let hclen := r3.1 + 4
  if 286 < hlit ∨ 30 < hdist then .error (-1)
  else
    let c := readClc (clcOrder.take hclen) r3.2 (List.replicate 19 0)
    match huffBuild c.1 with
    | none => .error (-2)
    | some clc =>
      match lengthsLoop clc (hlit + hdist) (hlit + hdist) c.2 [] with
      | .error e => .error e
      | .ok (lengths, b) =>
        if lengths.getD 256 0 = 0 then .error (-5)
        else match huffBuild (lengths.take hlit) with
          | none => .error (-6)
          | some lh =>
            match huffBuild ((lengths.drop hlit).take hdist) with
            | none => .error (-7)
            | some dh => .ok (lh, dh, b)

/-- The two tables of a block of type 1 or 2; what `build_fixed` builds is never over-subscribed. -/
def buildTables (type : Nat) (b : Bitr) : Except Int (Huff × Huff × Bitr) :=
  if type = 1 then
    match huffBuild fixedLit, huffBuild fixedDist with
    | some lh, some dh => .ok (lh, dh, b)
    | _, _ => .error (-15)
  else match buildDynamic b with
    | .error _ => .error (-15)
    | .ok r => .ok r

/-! ## Raw DEFLATE -/

/-- Two bytes of the input, little-endian. -/
def le16 (src : List UInt8) (p : Nat) : Nat := (src.getD p 0).toNat + 256 * (src.getD (p + 1) 0).toNat

/-- `dst[out++] = b.src[b.pos++]`. -/
def storeLoop (src : List UInt8) : Nat → Nat → Nat → Mem → Mem
  | 0, _, _, dst => dst
  | n + 1, pos, out, dst => storeLoop src n (pos + 1) (add32 out 1) (dst.w8 out (src.getD pos 0))

/-- A stored block. -/
def storedBlock (b : Bitr) (dst : Mem) (dstcap out : Nat) : Except Int (Bitr × Mem × Nat) :=
  if b.src.length < add32 b.pos 4 then .error (-11)
  else
    let len := le16 b.src b.pos
    let nlen := le16 b.src (b.pos + 2)
    let pos := b.pos + 4
    if len ^^^ 0xFFFF ≠ nlen then .error (-12)
    else if b.src.length < add32 pos len then .error (-13)
    else if dstcap < add32 out len then .error (-14)
    else .ok ({ b with pos := pos + len, bitbuf := 0, bitcnt := 0 },
      storeLoop b.src len pos out dst, add32 out len)

/-- A block of the given type. -/
def rawBlock (type : Nat) (b : Bitr) (dst : Mem) (dstcap out : Nat) :
    Except Int (Bitr × Mem × Nat) :=
  if type = 0 then storedBlock b dst dstcap out
  else if type = 1 ∨ type = 2 then
    match buildTables type b with
    | .error e => .error e
    | .ok (lh, dh, b) =>
      match inflateBlock lh dh dstcap (8 * b.src.length + 1) b dst out with
      | .error e => .error e
      | .ok (b, dst, out) =>
        -- the result is a long
        if toS out < 0 then .error (toS out) else .ok (b, dst, out)
  else .error (-16)

/-- The loop of `inflate_raw`. -/
def rawLoop (dstcap : Nat) : Nat → Bitr → Mem → Nat → Except Int (Mem × Nat)
  | 0, _, _, _ => .error (-10)
  | f + 1, b, dst, out =>
    let r1 := bits b 1
    let r2 := bits r1.2 2
    if r2.2.err then .error (-10)
    else match rawBlock r2.1 r2.2 dst dstcap out with
      | .error e => .error e
      | .ok (b, dst, out) =>
        if r1.1 = 0 then rawLoop dstcap f b dst out else .ok (dst, out)

/-- `inflate_raw`. -/
def inflateRaw (src : List UInt8) (dst : Mem) (dstcap : Nat) : Except Int (Mem × Nat) :=
  match rawLoop dstcap (8 * src.length + 1) ⟨src, 0, 0, 0, false⟩ dst 0 with
  | .error e => .error e
  | .ok (dst, out) => if toS out < 0 then .error (toS out) else .ok (dst, out)

/-! ## gzip -/

/-- One of the eight shifts of `crc32`. -/
def crcShift (crc : Nat) : Nat := (crc / 2) ^^^ (if crc % 2 = 1 then 0xEDB88320 else 0)

/-- `crc32` of the first `n` bytes of `p`. -/
def crc32 (p : Mem) (n : Nat) : Nat :=
  ((List.range n).foldl (fun crc i => crcShift^[8] (crc ^^^ (p i).toNat)) 0xFFFFFFFF) ^^^ 0xFFFFFFFF

/-- Four bytes of the input, little-endian. -/
def le32 (src : List UInt8) (p : Nat) : Nat := le16 src p + 65536 * le16 src (p + 2)

/-- `is_gzip`. -/
def isGzip (src : List UInt8) : Bool :=
  decide (2 ≤ src.length) && src.getD 0 0 == 0x1f && src.getD 1 0 == 0x8b

/-- `gzip_isize`. -/
def gzipIsize (src : List UInt8) : Nat :=
  if src.length < 4 then 0 else le32 src (src.length - 4)

/-- `while (p < srclen && src[p++]) ;`. -/
def skipString (src : List UInt8) : Nat → Nat → Nat
  | 0, p => p
  | f + 1, p =>
    match src[p]? with
    | none => p
    | some c => if c = 0 then p + 1 else skipString src f (p + 1)

/-- The first byte behind the header, for the flags `flg`; `none` is -22. -/
def headerEnd (src : List UInt8) (flg : Nat) : Option Nat :=
  let extra :=
    if flg / 4 % 2 = 1 then
      if src.length < 12 then none else some (12 + le16 src 10)
    else some 10
  match extra with
  | none => none
  | some p =>
    let p := if flg / 8 % 2 = 1 then skipString src src.length p else p
    let p := if flg / 16 % 2 = 1 then skipString src src.length p else p
    some (if flg / 2 % 2 = 1 then add32 p 2 else p)

/-- `gunzip`: the buffer and the number of bytes written to it. -/
def gunzip (src : List UInt8) (dst : Mem) (dstcap : Nat) : Except Int (Mem × Nat) :=
  if !isGzip src || decide (src.length < 18) then .error (-20)
  else if src.getD 2 0 ≠ 8 then .error (-21)
  else match headerEnd src (src.getD 3 0).toNat with
    | none => .error (-22)
    | some p =>
      if src.length < add32 p 8 then .error (-23)
      else match inflateRaw ((src.drop p).take (src.length - 8 - p)) dst dstcap with
        | .error e => .error e
        | .ok (dst, n) =>
          if n ≠ gzipIsize src then .error (-24)
          else if crc32 dst n ≠ le32 src (src.length - 8) then .error (-25)
          else .ok (dst, n)

end Embedded.Kernel.Inflate
