import Embedded.Kernel.Proc

/-! # Memory system calls (`mm/mmap.c`)

The heap (`brk`) grows up from the program image, mappings the kernel places grow down from
`mmap_top`; there is no record of mappings besides the page tables. -/

namespace Embedded.Kernel

/-- `MAP_TYPE`. -/
def mapType : Nat := 0x0f

/-- `MAP_PRIVATE`. -/
def mapPrivate : Nat := 0x02

/-- `MAP_FIXED`. -/
def mapFixed : Nat := 0x10

/-- `MAP_ANONYMOUS`. -/
def mapAnonymous : Nat := 0x20

/-- The pages `[lo, hi)`, both bounds page-aligned. -/
def pagesBetween (lo hi : Nat) : List Nat := pageRange lo ((hi - lo) / 4096)

/-- `sys_brk`. -/
def sysBrk (k : KState) (addr : Nat) : Int × KState :=
  let p := k.proc
  if addr < p.brkStart then (p.brk, k)
  else if addr ≥ p.brkCeiling then (p.brk, k)
  else
    let oldTop := pageUp p.brk
    let newTop := pageUp addr
    let grown := mapPages p.l1Pa false k.mm [] (pagesBetween oldTop newTop)
    if newTop > oldTop ∧ grown.1 = false then (p.brk, { k with mm := grown.2 })
    else
      let mm :=
        if newTop > oldTop then grown.2
        else unmapList k.mm p.l1Pa (pagesBetween newTop oldTop)
      (addr, { k with mm := mm }.setProc k.cur { p with brk := addr })

/-- `map_zeroed_range`. -/
def mapZeroedRange (m : Mm) (l1 base npages : Nat) : Bool × Mm :=
  mapPages l1 true m [] (pageRange base npages)

/-- The loop of `copy_file_into`; a round that goes on has filled a page or the whole length. -/
def copyFileLoop (fs : Fs) (l1 va len ino foff : Nat) : Nat → Nat → Mem → Mem
  | 0, _, mem => mem
  | fuel + 1, done, mem =>
    if done < len then
      let pVa := add32 va done
      let pa := vmWalk { fs.mm with mem := mem } l1 (pageDown pVa)
      if pa = 0 then mem
      else
        let inPg := pVa % 4096
        let chunk := min (4096 - inPg) (len - done)
        let r := ramfsRead { fs with mm := { fs.mm with mem := mem } } ino (add32 foff done) chunk
        if r.1 ≤ 0 then mem
        else
          let mem := mem.write (pa + inPg) r.2
          if r.1 < chunk then mem else copyFileLoop fs l1 va len ino foff fuel (done + chunk) mem
    else mem

/-- `copy_file_into`. -/
def copyFileInto (k : KState) (va len : Nat) (fd : Int) (foff : Nat) : Int × KState :=
  match fdGet k fd >>= k.files with
  | none => (-13, k)
  | some f =>
    if f.inode = 0 ∨ (k.inodes f.inode).type ≠ .reg then (-13, k)
    else
      let mem := copyFileLoop k.toFs k.proc.l1Pa va len f.inode foff len 0 k.mm.mem
      (0, { k with mm := { k.mm with mem := mem } })

/-- Where `sys_mmap2` puts a mapping of `span` bytes: the base, or the error. -/
def mmapBase (p : Proc) (addr span flags : Nat) : Except Int Nat :=
  if flags &&& mapFixed ≠ 0 then
    if addr % 4096 ≠ 0 then .error (-22)
    else if addr < userVaMin ∨ add32 addr span > userVaMax ∨ add32 addr span < addr then
      .error (-22)
    else .ok addr
  else if span > sub32 p.mmapTop userVaMin then .error (-12)
  else if sub32 p.mmapTop span < pageUp p.brk then .error (-12)
  else .ok (sub32 p.mmapTop span)

/-- The end of `sys_mmap2`, with the base chosen: map, fill from the file, move `mmap_top`. -/
def mmapAt (k : KState) (base len flags : Nat) (fd : Int) (foff : Nat) : Int × KState :=
  let l1 := k.proc.l1Pa
  let npages := pageUp len / 4096
  let r := mapZeroedRange k.mm l1 base npages
  let k := { k with mm := r.2 }
  if r.1 = false then (-12, k)
  else
    let c := if flags &&& mapAnonymous = 0 then copyFileInto k base len fd foff else (0, k)
    let k := c.2
    if c.1 ≠ 0 then (c.1, { k with mm := unmapList k.mm l1 (pageRange base npages) })
    else
      (base,
        if flags &&& mapFixed ≠ 0 then k
        else k.setProc k.cur { k.proc with mmapTop := base })

/-- `sys_mmap2`; `prot` decides only about a cache sync. -/
def sysMmap2 (k : KState) (addr len flags : Nat) (fd : Int) (pgoff : Nat) : Int × KState :=
  if len = 0 ∨ len > userVaMax - userVaMin then (-22, k)
  else if flags &&& mapType ≠ mapPrivate then (-38, k)
  else if flags &&& mapAnonymous = 0 ∧ fd < 0 then (-9, k)
  else if pgoff * 4096 > 0xFFFFFFFF then (-22, k)
  else
    match mmapBase k.proc addr (pageUp len) flags with
    | .error e => (e, k)
    | .ok base => mmapAt k base len flags fd (pgoff * 4096)

/-- `sys_munmap`. -/
def sysMunmap (k : KState) (addr len : Nat) : Int × KState :=
  if addr % 4096 ≠ 0 then (-22, k)
  else
    let p := k.proc
    let stop := pageUp (add32 addr len)
    let k := { k with mm := unmapList k.mm p.l1Pa (pagesBetween addr stop) }
    (0, if addr = p.mmapTop then k.setProc k.cur { p with mmapTop := stop } else k)

end Embedded.Kernel
