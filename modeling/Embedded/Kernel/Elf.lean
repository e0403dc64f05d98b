import Embedded.Kernel.AddrSpace
import Embedded.Kernel.Ramfs

/-! # The ELF loader (`fs/binfmt_elf.c`, `vfs_load_elf`)

`elf_load` walks the program headers of an untrusted image, maps fresh frames for every `PT_LOAD`
and copies the file bytes in one by one, each through its own page-table walk. All its arithmetic is
on 32-bit words and wraps where the source's does. -/

namespace Embedded.Kernel

/-- `rd16`. -/
def rd16 (img : Bytes) (i : Nat) : Nat := (img.getD i 0).toNat + 256 * (img.getD (i + 1) 0).toNat

/-- `rd32`. -/
def rd32 (img : Bytes) (i : Nat) : Nat := rd16 img i + 65536 * rd16 img (i + 2)

/-- `struct elf_info`. -/
structure ElfInfo where
  entry : Nat := 0
  brkEnd : Nat := 0
  phdrVa : Nat := 0
  phent : Nat := 0
  phnum : Nat := 0
  isDyn : Bool := false
  hasInterp : Bool := false
  interp : Bytes := []

/-- The page loop of a segment: a fresh frame for every page of the list that has none. -/
def mapSegment (l1 : Nat) : List Nat → Mm → Int × Mm
  | [], m => (0, m)
  | va :: vas, m =>
    if vmWalk m l1 va ≠ 0 then mapSegment l1 vas m
    else
      let r := pmmAllocPage m
      if r.1 = 0 then (-6, r.2)
      else
        let s := vmMapPage r.2 l1 va r.1
        if s.1 ≠ 0 then (-7, s.2) else mapSegment l1 vas s.2

/-- The copy loop of a segment: the bytes go to `va, va + 1, …`. -/
def copySegment (l1 : Nat) : Bytes → Nat → Mm → Int × Mm
  | [], _, m => (0, m)
  | b :: bs, va, m =>
    let pa := vmWalk m l1 va
    if pa = 0 then (-7, m)
    else copySegment l1 bs (add32 va 1) { m with mem := m.mem.w8 pa b }

/-- The case `PT_INTERP` of the loop: the interpreter's path, up to its NUL. -/
def loadInterp (img : Bytes) (ph : Nat) (out : ElfInfo) : Int × ElfInfo :=
  let ioff := rd32 img (ph + 4)
  let ilen := rd32 img (ph + 16)
  if ilen = 0 ∨ ilen > 128 ∨ ioff > img.length ∨ ilen > img.length - ioff then (-9, out)
  else
    (0, { out with
      interp := ((img.drop ioff).take (ilen - 1)).takeWhile (· ≠ 0)
      hasInterp := true })

/-- The case `PT_LOAD` of the loop. -/
def loadSegment (m : Mm) (l1 : Nat) (img : Bytes) (bias ph : Nat) (out : ElfInfo) :
    (Int × ElfInfo) × Mm :=
  let phoff := rd32 img 28
  let off := rd32 img (ph + 4)
  let vraw := rd32 img (ph + 8)
  let vaddr := add32 vraw bias
  let filesz := rd32 img (ph + 16)
  let memsz := rd32 img (ph + 20)
  if off > img.length ∨ filesz > img.length - off then ((-11, out), m)
  else if filesz > memsz ∨ vaddr < bias ∨ memsz > sub32 userVaMax vaddr then ((-12, out), m)
  else
    let out :=
      if phoff ≥ off ∧ phoff < off + filesz then { out with phdrVa := add32 vaddr (phoff - off) }
      else out
    let vstart := pageDown vaddr
    let vend := pageUp (add32 vaddr memsz)
    let r := mapSegment l1 (pageRange vstart ((vend - vstart) / 4096)) m
    if r.1 ≠ 0 then ((r.1, out), r.2)
    else
      let s := copySegment l1 ((img.drop off).take filesz) vaddr r.2
      if s.1 ≠ 0 then ((s.1, out), s.2)
      else ((0, if vend > out.brkEnd then { out with brkEnd := vend } else out), s.2)

/-- The loop over the program headers `i, i + 1, …` (`n` of them). -/
def loadPhdrs (l1 : Nat) (img : Bytes) (bias : Nat) :
    Nat → Nat → Mm → ElfInfo → (Int × ElfInfo) × Mm
  | 0, _, m, out => ((0, out), m)
  | n + 1, i, m, out =>
    let ph := rd32 img 28 + i * rd16 img 42
    let ptype := rd32 img ph
    if ptype = 3 then
      let r := loadInterp img ph out
      if r.1 ≠ 0 then (r, m) else loadPhdrs l1 img bias n (i + 1) m r.2
    else if ptype = 1 then
      let r := loadSegment m l1 img bias ph out
      if r.1.1 ≠ 0 then r else loadPhdrs l1 img bias n (i + 1) r.2 r.1.2
    else loadPhdrs l1 img bias n (i + 1) m out

/-- The checks `elf_load` makes before it touches memory: `0`, or the error. -/
def elfCheck (img : Bytes) (bias : Nat) : Int :=
  let etype := rd16 img 16
  let phent := rd16 img 42
  if img.length < 52 then -1
  else if ¬ (img.take 4 = [0x7F, 0x45, 0x4C, 0x46]) then -2
  else if img.getD 4 0 ≠ 1 ∨ img.getD 5 0 ≠ 1 then -3
  else if etype ≠ 2 ∧ etype ≠ 3 then -4
  else if rd16 img 18 ≠ 40 then -5
  else if etype = 2 ∧ bias ≠ 0 then -8
  else if phent < 32 ∨ rd32 img 28 > img.length ∨
      rd16 img 44 > (img.length - rd32 img 28) / phent then -10
  else 0

/-- `elf_load`. -/
def elfLoad (m : Mm) (l1 : Nat) (img : Bytes) (bias : Nat) : (Int × ElfInfo) × Mm :=
  if elfCheck img bias ≠ 0 then ((elfCheck img bias, {}), m)
  else
    let r := loadPhdrs l1 img bias (rd16 img 44) 0 m {}
    if r.1.1 ≠ 0 then r
    else
      ((0, { r.1.2 with
        entry := add32 (rd32 img 24) bias
        phent := rd16 img 42
        phnum := rd16 img 44
        isDyn := rd16 img 16 == 3 }), r.2)

/-- `vfs_load_elf`: linearize the file into a heap buffer and load it. -/
def vfsLoadElf (fs : Fs) (p l1 bias : Nat) : (Int × ElfInfo) × Fs :=
  let ino := fs.inodes p
  if p = 0 ∨ ino.type ≠ .reg then ((-13, {}), fs)
  else if ino.size < 52 then ((-8, {}), fs)
  else
    let r := kmalloc fs
    if r.1 = 0 then ((-12, {}), r.2)
    else
      let img := ramfsRead r.2 p 0 ino.size
      if img.1 ≠ ino.size then ((-5, {}), r.2)
      else
        let s := elfLoad r.2.mm l1 img.2 bias
        (s.1, { r.2 with mm := s.2 })

end Embedded.Kernel
