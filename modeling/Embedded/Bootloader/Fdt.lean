import Embedded.Lib.CString
import Embedded.Lib.Mem

/-! # The device tree helper of the bootloader (`bootloader/fdt.c`)

The blob lies in memory from `d` on; addresses are offsets from there. `fdt_set_bootargs` walks the
structure block for the `bootargs` property of `/chosen`, overwrites it or makes room for it, or inserts it;
it has no allocator and moves what follows up in memory.

`offset`s are 32-bit words. A walk has a bound on its steps, and so has the search for the end of a string;
the source has none. -/

namespace Embedded.Bootloader

/-! ## Words and strings -/

/-- `be32`. -/
def be32 (d : Mem) (p : Nat) : Nat :=
  16777216 * (d p).toNat + 65536 * (d (p + 1)).toNat + 256 * (d (p + 2)).toNat + (d (p + 3)).toNat

/-- `wr32`. -/
def wr32 (d : Mem) (p v : Nat) : Mem :=
  fun x =>
    if x = p then UInt8.ofNat (v / 16777216)
    else if x = p + 1 then UInt8.ofNat (v / 65536)
    else if x = p + 2 then UInt8.ofNat (v / 256)
    else if x = p + 3 then UInt8.ofNat v
    else d x

def hget (d : Mem) (word : Nat) : Nat := be32 d (word * 4)

def hset (d : Mem) (word v : Nat) : Mem := wr32 d (word * 4) v

/-- `ALIGN4`. -/
def align4 (x : Nat) : Nat := add32 x 3 / 4 * 4

/-- `str_eq` of the string at `a` and a string of the program. -/
def strEqAt (d : Mem) (a : Nat) : List UInt8 → Bool
  | [] => d a = 0
  | b :: bs => if d a ≠ 0 ∧ d a = b then strEqAt d (a + 1) bs else false

/-- `str_len` of the string at `s`. -/
def strLen (d : Mem) : Nat → Nat → Nat
  | 0, _ => 0
  | n + 1, s => if d s = 0 then 0 else strLen d n (s + 1) + 1

/-- `"chosen"`. -/
def chosenName : List UInt8 := [99, 104, 111, 115, 101, 110]

/-- `"bootargs"`. -/
def bootargsName : List UInt8 := [98, 111, 111, 116, 97, 114, 103, 115]

def FDT_MAGIC : Nat := 0xd00dfeed
def FDT_BEGIN_NODE : Nat := 1
def FDT_END_NODE : Nat := 2
def FDT_PROP : Nat := 3
def FDT_NOP : Nat := 4
def FDT_END : Nat := 9

def H_TOTALSIZE : Nat := 1
def H_OFF_STRUCT : Nat := 2
def H_OFF_STRINGS : Nat := 3
def H_SIZE_STRINGS : Nat := 8
def H_SIZE_STRUCT : Nat := 9

/-! ## Editing -/

/-- The loop of `shift_up` over the last `n` bytes that are left, from the end down. -/
def shiftUp (d : Mem) (start delta : Nat) : Nat → Mem
  | 0 => d
  | n + 1 => shiftUp (d.w8 (add32 (start + n) delta) (d (start + n))) start delta n

/-- The loops that write a value of `n` bytes: the command line, its terminator and zeros. -/
def fillValue (d : Mem) (a n : Nat) (cmdline : CStr) : Mem :=
  fun x => if a ≤ x ∧ x < a + n then cmdline.bytes.getD (x - a) 0 else d x

/-- The three updates of the header for a structure block that has grown by `delta`. -/
def resize (d : Mem) (total delta : Nat) : Mem :=
  let d := hset d H_TOTALSIZE (add32 total delta)
  let d := hset d H_OFF_STRINGS (add32 (hget d H_OFF_STRINGS) delta)
  hset d H_SIZE_STRUCT (add32 (hget d H_SIZE_STRUCT) delta)

/-- The inner loop of `strings_find`: from `i` to the next zero, at most `n` bytes. -/
def skipString (d : Mem) (off : Nat) : Nat → Nat → Nat
  | 0, i => i
  | n + 1, i => if d (off + i) ≠ 0 then skipString d off n (i + 1) else i

/-- The loop of `strings_find`. -/
def findLoop (d : Mem) (off sz : Nat) (name : List UInt8) : Nat → Nat → Option Nat
  | 0, _ => none
  | n + 1, i =>
    if i < sz then
      if strEqAt d (off + i) name then some i
      else findLoop d off sz name n (skipString d off (sz - i) i + 1)
    else none

/-- `strings_find`. -/
def stringsFind (d : Mem) (name : List UInt8) : Option Nat :=
  findLoop d (hget d H_OFF_STRINGS) (hget d H_SIZE_STRINGS) name (hget d H_SIZE_STRINGS + 1) 0

/-- `strings_append`. -/
def stringsAppend (d : Mem) (name : List UInt8) : Mem × Nat :=
  let off := hget d H_OFF_STRINGS
  let sz := hget d H_SIZE_STRINGS
  let total := hget d H_TOTALSIZE
  let n := name.length + 1
  let d := d.write (off + sz) (name ++ [0])
  let d := hset d H_SIZE_STRINGS (add32 sz n)
  (hset d H_TOTALSIZE (add32 total n), sz)

/-- `fdt_replace_bootargs`. -/
def fdtReplaceBootargs (d : Mem) (tokpos len valpos : Nat) (cmdline : CStr) (need : Nat) : Mem :=
  let oldSpace := align4 len
  let newSpace := align4 need
  if newSpace > oldSpace then
    let delta := newSpace - oldSpace
    let total := hget d H_TOTALSIZE
    let d := shiftUp d (add32 valpos oldSpace) delta (total - add32 valpos oldSpace)
    let d := resize d total delta
    let d := wr32 d (tokpos + 4) need
    fillValue d valpos newSpace cmdline
  else fillValue d valpos len cmdline

/-- The first lines of `fdt_insert_bootargs`: where the name is, appended if it is not there. -/
def bootargsOffset (d : Mem) : Mem × Nat :=
  match stringsFind d bootargsName with
  | some noff => (d, noff)
  | none => stringsAppend d bootargsName

/-- `fdt_insert_bootargs`. -/
def fdtInsertBootargs (d : Mem) (ip : Nat) (cmdline : CStr) (need : Nat) : Mem :=
  let r := bootargsOffset d
  let d := r.1
  let noff := r.2
  let valSpace := align4 need
  let ins := add32 12 valSpace
  let total := hget d H_TOTALSIZE
  let d := shiftUp d ip ins (total - ip)
  let d := resize d total ins
  let d := wr32 d ip FDT_PROP
  let d := wr32 d (ip + 4) need
  let d := wr32 d (ip + 8) noff
  fillValue d (ip + 12) valSpace cmdline

/-! ## The walk -/

/-- The variables of the walk. -/
structure Walk where
  p : Nat
  depth : Int
  inChosen : Bool
  haveChosen : Bool
  chosenBody : Nat

/-- The loop of `fdt_set_bootargs`, and what follows it; `offStrings` and `need` are as at the start, and
names are searched for their end over `bound` bytes. -/
def walk (d : Mem) (bound offStrings need : Nat) (cmdline : CStr) : Nat → Walk → Option (Int × Mem)
  | 0, _ => none
  | fuel + 1, w =>
    let tok := be32 d w.p
    let p := add32 w.p 4
    if tok = FDT_END then
      if w.haveChosen then some (0, fdtInsertBootargs d w.chosenBody cmdline need) else some (-4, d)
    else if tok = FDT_NOP then walk d bound offStrings need cmdline fuel { w with p := p }
    else if tok = FDT_BEGIN_NODE then
      let body := add32 p (align4 (add32 (strLen d bound p) 1))
      let inChosen := w.depth + 1 = 2 && strEqAt d p chosenName
      walk d bound offStrings need cmdline fuel
        ⟨body, w.depth + 1, inChosen, w.haveChosen || inChosen, if inChosen then body else w.chosenBody⟩
    else if tok = FDT_END_NODE then
      walk d bound offStrings need cmdline fuel { w with p := p, inChosen := false, depth := w.depth - 1 }
    else if tok = FDT_PROP then
      let len := be32 d p
      let noff := be32 d (p + 4)
      let valpos := add32 p 8
      if w.inChosen && strEqAt d (offStrings + noff) bootargsName then
        some (0, fdtReplaceBootargs d w.p len valpos cmdline need)
      else walk d bound offStrings need cmdline fuel { w with p := add32 valpos (align4 len) }
    else some (-3, d)

/-- `fdt_check`. -/
def fdtCheck (d : Mem) : Int := if be32 d 0 ≠ FDT_MAGIC then -1 else 0

/-- `fdt_set_bootargs`: the result and the memory it leaves. -/
def fdtSetBootargs (bound : Nat) (d : Mem) (cmdline : CStr) : Option (Int × Mem) :=
  if fdtCheck d ≠ 0 then some (-1, d)
  else
    let offStruct := hget d H_OFF_STRUCT
    let offStrings := hget d H_OFF_STRINGS
    let sizeStrings := hget d H_SIZE_STRINGS
    let total := hget d H_TOTALSIZE
    if ¬ (offStruct < offStrings ∧ add32 offStrings sizeStrings ≤ total) then some (-5, d)
    else
      let need := add32 cmdline.bytes.length 1
      walk d bound offStrings need cmdline bound ⟨offStruct, 0, false, false, 0⟩

end Embedded.Bootloader
