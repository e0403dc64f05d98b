import Embedded.Kernel.Ramfs

/-! # The initramfs parser (`fs/cpio.c`)

A newc archive is a sequence of entries: a header of 110 bytes with fields of eight hexadecimal
digits, the name, the data, each padded to four bytes. `cpio_load` walks it with a 32-bit offset and
builds the entries in the ramfs. The archive is given as the memory from its first byte on, of which
`size` bytes are the archive: a name that has no NUL in the archive is read on past its end. -/

namespace Embedded.Kernel

/-- The value `hex` gives one character. -/
def hexDigit (c : UInt8) : Nat :=
  if 48 ≤ c ∧ c ≤ 57 then (c - 48).toNat
  else if 97 ≤ c ∧ c ≤ 102 then (c - 97).toNat + 10
  else if 65 ≤ c ∧ c ≤ 70 then (c - 65).toNat + 10
  else 0

/-- `hex`: eight digits at `i`. -/
def hex (b : Bytes) (i : Nat) : Nat :=
  ((b.drop i).take 8).foldl (fun v c => v * 16 + hexDigit c) 0

/-- `ALIGN4`. -/
def align4 (x : Nat) : Nat := add32 x 3 / 4 * 4

/-- `S_IFMT` and its values. -/
def sIfmt : Nat := 0o170000
def sIfdir : Nat := 0o40000
def sIflnk : Nat := 0o120000
def sIfchr : Nat := 0o20000
def sIfreg : Nat := 0o100000

/-- `make_parents` from `dir` on: the directory of the last component, made on the way where it is
    missing, and that component's name. -/
def makeParents : List Bytes → Nat → Fs → (Nat × Bytes) × Fs
  | [], dir, fs => ((dir, []), fs)
  | [leaf], dir, fs => if leaf.length > 63 then ((0, []), fs) else ((dir, leaf), fs)
  | comp :: rest, dir, fs =>
    if comp.length > 63 then ((0, []), fs)
    else
      let child := ramfsChild fs dir comp
      let r := if child = 0 then ramfsMkdir fs dir comp 0o755 else (child, fs)
      if r.1 = 0 ∨ (r.2.inodes r.1).type ≠ .dir then ((0, []), r.2)
      else makeParents rest r.1 r.2

/-- The fields of an entry that `cpio_load` uses. -/
structure CpioEntry where
  mode : Nat
  rmaj : Nat
  rmin : Nat
  name : Bytes
  data : Bytes
deriving DecidableEq

/-- The part of the loop that creates the leaf of an entry in its directory. -/
def cpioLeaf (fs : Fs) (dir : Nat) (leaf : Bytes) (e : CpioEntry) : Fs :=
  if e.mode &&& sIfmt = sIfdir then
    if ramfsChild fs dir leaf = 0 then (ramfsMkdir fs dir leaf (e.mode &&& 0o7777)).2 else fs
  else if e.mode &&& sIfmt = sIflnk then
    -- `char tgt[128]`, NUL-terminated by the loader
    (ramfsMklnk fs dir leaf ((e.data.take 127).takeWhile (· ≠ 0))).2
  else if e.mode &&& sIfmt = sIfchr then (ramfsMknod fs dir leaf e.mode e.rmaj e.rmin).2
  else if e.mode &&& sIfmt = sIfreg then
    let child := ramfsChild fs dir leaf
    let r := if child = 0 then ramfsMkreg fs dir leaf (e.mode &&& 0o7777) else (child, fs)
    if r.1 ≠ 0 ∧ e.data ≠ [] then (ramfsWrite r.2 r.1 0 e.data).2 else r.2
  else fs

/-- The part of the loop that creates an entry. -/
def cpioCreate (fs : Fs) (e : CpioEntry) : Fs :=
  let r := makeParents (components e.name) fs.root fs
  if r.1.1 ≠ 0 ∧ r.1.2 ≠ [] then cpioLeaf r.2 r.1.1 r.1.2 e else r.2

/-- What one round of the loop finds at an offset. -/
inductive CpioItem
  /-- The loop ends with this value; `none` stands for `break`. -/
  | stop (ret : Option Int)
  /-- Padding; the next round looks at this offset. -/
  | pad (off : Nat)
  /-- An entry, and the offset after it. -/
  | entry (e : CpioEntry) (off : Nat)

/-- `"070701"`. -/
def cpioMagic : Bytes := [48, 55, 48, 55, 48, 49]

/-- `"TRAILER!!!"`. -/
def cpioTrailer : Bytes := [84, 82, 65, 73, 76, 69, 82, 33, 33, 33]

/-- The parsing part of a round of `cpio_load`. -/
def cpioParse (b : Bytes) (size off : Nat) : CpioItem :=
  if add32 off 110 > size then .stop (some (-1))
  else if (b.drop off).take 6 ≠ cpioMagic then
    if b.getD off 0 = 0 then .pad (add32 off 4) else .stop (some (-2))
  else
    let filesize := hex b (off + 54)
    let namesize := hex b (off + 94)
    let name := b.drop (off + 110)
    if add32 (add32 off 110) namesize > size then .stop (some (-3))
    else if namesize = 11 ∧ name.take 10 = cpioTrailer then .stop none
    else
      let dataOff := align4 (add32 (add32 off 110) namesize)
      if add32 dataOff filesize > size then .stop (some (-4))
      else
        .entry
          { mode := hex b (off + 14), rmaj := hex b (off + 78), rmin := hex b (off + 86)
            name := name.takeWhile (· ≠ 0), data := (b.drop dataOff).take filesize }
          (align4 (add32 dataOff filesize))

/-- The loop of `cpio_load`, `none` when `fuel` rounds do not end it; `count` entries were made so
    far. -/
def cpioLoop (b : Bytes) (size : Nat) : Nat → Nat → Int → Fs → Option (Int × Fs)
  | 0, _, _, _ => none
  | fuel + 1, off, count, fs =>
    match cpioParse b size off with
    | .stop none => some (count, fs)
    | .stop (some r) => some (r, fs)
    | .pad off => if off ≥ size then some (count, fs) else cpioLoop b size fuel off count fs
    | .entry e off =>
      -- "." is the root directory itself
      let fs := if e.name = dot then fs else cpioCreate fs e
      let count := if e.name = dot then count else count + 1
      if off ≥ size then some (count, fs) else cpioLoop b size fuel off count fs

/-- `cpio_load`. -/
def cpioLoad (fuel : Nat) (fs : Fs) (b : Bytes) (size : Nat) : Option (Int × Fs) :=
  cpioLoop b size fuel 0 0 fs

end Embedded.Kernel
