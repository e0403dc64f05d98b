import Embedded.Kernel.Pmm
import Mathlib.Algebra.Ring.Nat

/-! # Address spaces (`arch/arm/vm.c`, `arch/arm/mmu.c`)

ARMv7 short descriptors: an address space is a 16 KB L1 table, named by its physical address; an
entry of it is a 1 MB section or points to a 1 KB L2 table of 4 KB pages. The tables are words of
the physical memory and every function here reads and writes them there. Cache and TLB maintenance
has no counterpart: the model's memory is coherent. -/

namespace Embedded.Kernel

/-- `USER_VA_MIN`: page 0 stays unmapped. -/
def userVaMin : Nat := 0x00001000

/-- `USER_VA_MAX`: the kernel is above. -/
def userVaMax : Nat := 0x40000000

/-- `MMAP_TOP`: kernel-placed mappings go down from here. -/
def mmapTop : Nat := 0x38000000

/-- `(d & L1_TYPE_MASK) == L1_TYPE_COARSE`. -/
def l1IsCoarse (d : Nat) : Bool := d % 4 == 1

/-- `L1_COARSE(l2)`. -/
def l1Coarse (l2 : Nat) : Nat := l2 / 1024 * 1024 + 1

/-- `L1_COARSE_L2BASE(d)`. -/
def l1CoarseL2Base (d : Nat) : Nat := d / 1024 * 1024

/-- `L2_SMALL_BASE(pa) | L2_SMALL_USER`. -/
def l2SmallUser (pa : Nat) : Nat := pageDown pa + 0x7E

/-- `L2_SMALL_BASE(d)`. -/
def l2SmallBase (d : Nat) : Nat := pageDown d

/-- `L2_IS_VALID(d)`. -/
def l2IsValid (d : Nat) : Bool := d % 4 != 0

/-- `l1_index(va)`. -/
def l1Index (va : Nat) : Nat := va / 1048576

/-- `l2_index(va)`. -/
def l2Index (va : Nat) : Nat := va / 4096 % 256

/-- The word `((uint32_t *)l1)[i]`. -/
def Mm.l1Entry (m : Mm) (l1 i : Nat) : Nat := m.mem.r32 (l1 + 4 * i)

/-- The word `((uint32_t *)l2)[k]`. -/
def Mm.l2Entry (m : Mm) (l2 k : Nat) : Nat := m.mem.r32 (l2 + 4 * k)

/-! ## The kernel's own table -/

/-- The descriptor `mmu_init` writes for section `i`: DRAM is normal memory, the rest device. -/
def sectDesc (i : Nat) : Nat :=
  i * 1048576 + (if 0x400 ≤ i ∧ i < 0x480 then 0x1C0E else 0x0C16)

/-- The loop of `mmu_init`: entry `i` of the L1 table at `l1` becomes `sectDesc i`, for all 4096. -/
def fillSections (mem : Mem) (l1 : Nat) : Mem :=
  fun x =>
    if l1 ≤ x ∧ x < l1 + 16384 then
      UInt8.ofNat (sectDesc ((x - l1) / 4) / 256 ^ ((x - l1) % 4))
    else mem x

/-- `mmu_init`: allocate the L1 table and identity-map all 4 GB with sections. -/
def mmuInit (m : Mm) : Mm :=
  let r := pmmAllocAligned m 4 16384
  if r.1 = 0 then { r.2 with kerL1 := 0 }
  else { r.2 with mem := fillSections r.2.mem r.1, kerL1 := r.1 }

/-- `mmu_map_section` with `MEM_NORMAL`. -/
def mmuMapSection (m : Mm) (va pa : Nat) : Mm :=
  { m with mem := m.mem.w32 (m.kerL1 + 4 * (va / 1048576)) (pa / 1048576 * 1048576 + 0x1C0E) }

/-- `mmu_selftest`: a 1 MB run stays mapped at `0x50000000`. -/
def mmuSelftest (m : Mm) : Mm :=
  let r := pmmAllocAligned m 256 0x100000
  if r.1 = 0 then r.2 else mmuMapSection r.2 0x50000000 r.1

/-! ## Per-process tables -/

/-- `vm_create`: a fresh L1 table, a copy of the kernel's; `0` on failure. -/
def vmCreate (m : Mm) : Nat × Mm :=
  let r := pmmAllocAligned m 4 16384
  if r.1 = 0 then (0, r.2)
  else (r.1, { r.2 with mem := r.2.mem.copy r.1 r.2.kerL1 16384 })

/-- `l2_for`: the L2 table for `va`, made on demand when `create`; `0` when there is none. -/
def l2For (m : Mm) (l1 va : Nat) (create : Bool) : Nat × Mm :=
  let d := m.l1Entry l1 (l1Index va)
  if l1IsCoarse d then (l1CoarseL2Base d, m)
  else if !create then (0, m)
  else
    let r := pmmAllocAligned m 1 1024
    if r.1 = 0 then (0, r.2)
    else
      (r.1,
        { r.2 with mem := (r.2.mem.zero r.1 1024).w32 (l1 + 4 * l1Index va) (l1Coarse r.1) })

/-- `vm_map_page`: map the page `va` to the frame `pa`. -/
def vmMapPage (m : Mm) (l1 va pa : Nat) : Int × Mm :=
  if va < userVaMin ∨ va ≥ userVaMax then (-1, m)
  else
    let r := l2For m l1 va true
    if r.1 = 0 then (-2, r.2)
    else (0, { r.2 with mem := r.2.mem.w32 (r.1 + 4 * l2Index va) (l2SmallUser pa) })

/-- `vm_walk`: the physical address behind `va`, `0` when it is unmapped. -/
def vmWalk (m : Mm) (l1 va : Nat) : Nat :=
  let l2 := (l2For m l1 va false).1
  if l2 = 0 then 0
  else
    let d := m.l2Entry l2 (l2Index va)
    if l2IsValid d then l2SmallBase d + va % 4096 else 0

/-- `vm_unmap_page`: clear the entry of `va`; the frame stays with the caller. -/
def vmUnmapPage (m : Mm) (l1 va : Nat) : Int × Mm :=
  let l2 := (l2For m l1 va false).1
  if l2 = 0 then (-1, m)
  else if l2IsValid (m.l2Entry l2 (l2Index va)) then
    (0, { m with mem := m.mem.w32 (l2 + 4 * l2Index va) 0 })
  else (-1, m)

/-- The inner loop of `vm_destroy`: free the frames behind entries `k, k + 1, …` (`n` of them). -/
def freeL2Pages (m : Mm) (l2 : Nat) : Nat → Nat → Mm
  | 0, _ => m
  | n + 1, k =>
    let d := m.l2Entry l2 k
    freeL2Pages (if l2IsValid d then pmmFreePage m (l2SmallBase d) else m) l2 n (k + 1)

/-- The outer loop of `vm_destroy`: tear down the user slots `i, i + 1, …` (`n` of them). -/
def freeL1Slots (m : Mm) (l1 : Nat) : Nat → Nat → Mm
  | 0, _ => m
  | n + 1, i =>
    let d := m.l1Entry l1 i
    if l1IsCoarse d then
      let m := freeL2Pages m (l1CoarseL2Base d) 256 0
      let m := pmmFreePage m (l1CoarseL2Base d)
      freeL1Slots { m with mem := m.mem.w32 (l1 + 4 * i) 0 } l1 n (i + 1)
    else freeL1Slots m l1 n (i + 1)

/-- The last loop of `vm_destroy`: free `n` frames of the L1 table from frame `k` on. -/
def freeFrames (m : Mm) (l1 : Nat) : Nat → Nat → Mm
  | 0, _ => m
  | n + 1, k => freeFrames (pmmFreePage m (l1 + k * 4096)) l1 n (k + 1)

/-- `vm_destroy`: free every user page, every L2 table and the L1 table. -/
def vmDestroy (m : Mm) (l1 : Nat) : Mm :=
  freeFrames (freeL1Slots m l1 1024 0) l1 4 0

/-- The inner loop of `vm_copy`: copy the pages of slot `i` behind entries `k, k + 1, …`. -/
def copyL2Pages (m : Mm) (dst l2 i : Nat) : Nat → Nat → Int × Mm
  | 0, _ => (0, m)
  | n + 1, k =>
    let d := m.l2Entry l2 k
    if l2IsValid d then
      let r := pmmAllocPage m
      if r.1 = 0 then (-1, r.2)
      else
        let m := { r.2 with mem := r.2.mem.copy r.1 (l2SmallBase d) 4096 }
        let r := vmMapPage m dst (i * 1048576 + k * 4096) r.1
        if r.1 = 0 then copyL2Pages r.2 dst l2 i n (k + 1) else (-2, r.2)
    else copyL2Pages m dst l2 i n (k + 1)

/-- The outer loop of `vm_copy` over the user slots `i, i + 1, …`. -/
def copyL1Slots (m : Mm) (dst src : Nat) : Nat → Nat → Int × Mm
  | 0, _ => (0, m)
  | n + 1, i =>
    let d := m.l1Entry src i
    if l1IsCoarse d then
      let r := copyL2Pages m dst (l1CoarseL2Base d) i 256 0
      if r.1 = 0 then copyL1Slots r.2 dst src n (i + 1) else r
    else copyL1Slots m dst src n (i + 1)

/-- `vm_copy`: copy all user mappings of `src` into `dst`, page by page. -/
def vmCopy (m : Mm) (dst src : Nat) : Int × Mm :=
  copyL1Slots m dst src 1024 0

end Embedded.Kernel
