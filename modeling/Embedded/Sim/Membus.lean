import Embedded.Lib.Run
import Embedded.Lib.Word

/-! # The memory bus of the simulator (`sim/src/core/membus.c`)

An access goes to flash or RAM by a fixed window of addresses, to the region that was hit last at its index
of the cache, to the region that the page hash names, or to the first region of the list that has the
address. A region is named by its index in the list; a host pointer by a number, `none` being `NULL`. -/

namespace Embedded.Sim

open List

variable {c : Option Nat} {base size : Nat}

def MAX_REGIONS : Nat := 32
def MEMBUS_FLASH_BASE : Nat := 0x08000000
def MEMBUS_FLASH_SIZE : Nat := 512 * 1024
def MEMBUS_RAM_BASE : Nat := 0x20000000
def MEMBUS_RAM_SIZE : Nat := 128 * 1024
def MEMBUS_HASH_SIZE : Nat := 4096
def TLB_SIZE : Nat := 4096

/-- `struct mem_region`; `direct` is the memory behind it, if it is not a device. -/
structure MemRegion where
  base : Nat
  size : Nat
  direct : Option Nat
  readOnly : Bool
deriving DecidableEq

/-- `addr >= r->base && addr < r->base + r->size`. -/
def MemRegion.contains (r : MemRegion) (addr : Nat) : Bool :=
  r.base ≤ addr && addr < add32 r.base r.size

structure Membus where
  regions : List MemRegion
  hash : Nat → Option Nat
  tlb : Nat → Option Nat
  flashPtr : Option Nat
  ramPtr : Option Nat

/-- `membus_init`. -/
def membusInit : Membus := ⟨[], fun _ => none, fun _ => none, none, none⟩

/-- `hash_insert` of region `i`. -/
def hashInsert (hash : Nat → Option Nat) (r : MemRegion) (i : Nat) : Nat → Option Nat := fun k =>
  if r.base / 1048576 ≤ k ∧ k ≤ sub32 (add32 r.base r.size) 1 / 1048576 ∧ k < MEMBUS_HASH_SIZE ∧
      hash k = none then some i
  else hash k

/-- What the two functions that register a region share. -/
def addRegion (bus : Membus) (r : MemRegion) : Membus :=
  { bus with
    regions := bus.regions ++ [r]
    hash := hashInsert bus.hash r bus.regions.length
    tlb := fun _ => none }

/-- `membus_register`. -/
def membusRegister (bus : Membus) (base size : Nat) : Membus :=
  if MAX_REGIONS ≤ bus.regions.length then bus else addRegion bus ⟨base, size, none, false⟩

/-- `membus_register_ram`. -/
def membusRegisterRam (bus : Membus) (base size data : Nat) (readOnly : Bool) : Membus :=
  if MAX_REGIONS ≤ bus.regions.length then bus
  else
    let bus := addRegion bus ⟨base, size, some data, readOnly⟩
    let bus := if base = MEMBUS_FLASH_BASE then { bus with flashPtr := some data } else bus
    if base = MEMBUS_RAM_BASE then { bus with ramPtr := some data } else bus

/-! ## Lookup -/

/-- Region `i`, if there is one and it has the address. -/
def hit (bus : Membus) (addr : Nat) (i : Option Nat) : Option Nat :=
  i.bind fun i => (bus.regions[i]?).bind fun r => if r.contains addr then some i else none

/-- The scan of the region list: the first one that has the address. -/
def scan (regions : List MemRegion) (addr : Nat) : Option Nat := regions.findIdx? (·.contains addr)

/-- `find_region_slow`. -/
def findRegionSlow (bus : Membus) (addr : Nat) : Option Nat :=
  match hit bus addr (bus.hash (addr / 1048576)) with
  | some i => some i
  | none => scan bus.regions addr

/-- `TLB_INDEX`. -/
def tlbIndex (addr : Nat) : Nat := (addr / 4096).xor (addr / 1048576) % TLB_SIZE

/-- `find_region_tlb`. -/
def findRegionTlb (bus : Membus) (addr : Nat) : Option Nat × Membus :=
  match hit bus addr (bus.tlb (tlbIndex addr)) with
  | some i => (some i, bus)
  | none =>
    match findRegionSlow bus addr with
    | some i => (some i, { bus with tlb := Function.update bus.tlb (tlbIndex addr) (some i) })
    | none => (none, bus)

/-- Where an access goes: to a byte behind a host pointer, to an offset of a device's region, nowhere
because the region is read-only, or nowhere because there is none. -/
inductive Place
  | host (ptr : Option Nat) (off : Nat)
  | device (i off : Nat)
  | readOnly
  | unmapped
deriving DecidableEq

/-- Where a read of region `i` goes. -/
def readAt (regions : List MemRegion) (addr : Nat) (i : Option Nat) : Place :=
  match i.bind fun i => (regions[i]?).map fun r => (i, r) with
  | none => .unmapped
  | some (i, r) =>
    match r.direct with
    | some d => .host (some d) (addr - r.base)
    | none => .device i (addr - r.base)

/-- Where a write of region `i` goes. -/
def writeAt (regions : List MemRegion) (addr : Nat) (i : Option Nat) : Place :=
  match i.bind fun i => (regions[i]?).map fun r => (i, r) with
  | none => .unmapped
  | some (i, r) =>
    match r.direct with
    | some d => if r.readOnly then .readOnly else .host (some d) (addr - r.base)
    | none => .device i (addr - r.base)

/-- `addr - MEMBUS_RAM_BASE < MEMBUS_RAM_SIZE`, unsigned: the window of the fast path to the RAM. -/
def inRam (addr : Nat) : Bool := MEMBUS_RAM_BASE ≤ addr && addr < MEMBUS_RAM_BASE + MEMBUS_RAM_SIZE

/-- `addr - MEMBUS_FLASH_BASE < MEMBUS_FLASH_SIZE`, unsigned: the window of the fast path to the flash. -/
def inFlash (addr : Nat) : Bool := MEMBUS_FLASH_BASE ≤ addr && addr < MEMBUS_FLASH_BASE + MEMBUS_FLASH_SIZE

/-- Where `membus_read32`, `membus_read16` and `membus_read8` read. -/
def membusRead (bus : Membus) (addr : Nat) : Place :=
  if inRam addr then .host bus.ramPtr (addr - MEMBUS_RAM_BASE)
  else if inFlash addr then .host bus.flashPtr (addr - MEMBUS_FLASH_BASE)
  else readAt bus.regions addr (findRegionTlb bus addr).1

/-- The bus after a read. -/
def afterRead (bus : Membus) (addr : Nat) : Membus :=
  if inRam addr || inFlash addr then bus else (findRegionTlb bus addr).2

/-- Where `membus_write32`, `membus_write16` and `membus_write8` write. -/
def membusWrite (bus : Membus) (addr : Nat) : Place :=
  if inRam addr then .host bus.ramPtr (addr - MEMBUS_RAM_BASE)
  else writeAt bus.regions addr (findRegionTlb bus addr).1

/-- The bus after a write. -/
def afterWrite (bus : Membus) (addr : Nat) : Membus :=
  if inRam addr then bus else (findRegionTlb bus addr).2

/-- What happens to a bus. -/
inductive BusEvent
  | register (base size : Nat)
  | registerRam (base size data : Nat) (readOnly : Bool)
  | read (addr : Nat)
  | write (addr : Nat)

def busStep (bus : Membus) : BusEvent → Membus
  | .register base size => membusRegister bus base size
  | .registerRam base size data readOnly => membusRegisterRam bus base size data readOnly
  | .read addr => afterRead bus addr
  | .write addr => afterWrite bus addr

/-! ## What the caches hold -/

/-- The memory registered last at an address. -/
def ramAt (regions : List MemRegion) (base : Nat) : Option MemRegion :=
  (regions.filter fun r => r.direct.isSome && r.base = base).getLast?

/-- The caches name regions of the list, and the pointers of the fast paths are those of the memory
registered last at their bases. -/
structure BusInv (bus : Membus) : Prop where
  hash : ∀ k i, bus.hash k = some i → i < bus.regions.length
  tlb : ∀ k i, bus.tlb k = some i → i < bus.regions.length
  flash : bus.flashPtr = (ramAt bus.regions MEMBUS_FLASH_BASE).bind (·.direct)
  ram : bus.ramPtr = (ramAt bus.regions MEMBUS_RAM_BASE).bind (·.direct)

theorem ramAt_append (regions : List MemRegion) (r : MemRegion) (base : Nat) :
    ramAt (regions ++ [r]) base = if r.direct.isSome && r.base = base then some r else ramAt regions base := by
  unfold ramAt
  rw [filter_append]
  by_cases h : (r.direct.isSome && decide (r.base = base)) = true
  · simp [h]
  · simp [h]

variable {bus : Membus} {regions : List MemRegion} {addr i : Nat} {r : MemRegion}

theorem BusInv.addRegion_hash (h : BusInv bus) (r : MemRegion) (k i : Nat)
    (hk : (addRegion bus r).hash k = some i) : i < (addRegion bus r).regions.length := by
  simp only [addRegion, hashInsert, length_append, length_singleton] at hk ⊢
  split at hk
  · cases hk
    exact Nat.lt_succ_self _
  exact Nat.lt_succ_of_lt (h.hash k i hk)

theorem BusInv.register (h : BusInv bus) (base size : Nat) : BusInv (membusRegister bus base size) := by
  unfold membusRegister
  split
  · exact h
  refine ⟨h.addRegion_hash _, nofun, ?_, ?_⟩
  · simpa [addRegion, ramAt_append] using h.flash
  · simpa [addRegion, ramAt_append] using h.ram

theorem BusInv.registerRam (h : BusInv bus) (base size data : Nat) (readOnly : Bool) :
    BusInv (membusRegisterRam bus base size data readOnly) := by
  unfold membusRegisterRam
  split
  · exact h
  have hhash := h.addRegion_hash ⟨base, size, some data, readOnly⟩
  simp only
  by_cases hf : base = MEMBUS_FLASH_BASE
  · have hne : ¬ MEMBUS_FLASH_BASE = MEMBUS_RAM_BASE := by decide
    subst hf
    rw [if_pos rfl, if_neg hne]
    exact ⟨hhash, nofun, by simp [addRegion, ramAt_append], by simpa [addRegion, ramAt_append, hne] using h.ram⟩
  rw [if_neg hf]
  by_cases hr : base = MEMBUS_RAM_BASE
  · rw [if_pos hr]
    exact ⟨hhash, nofun, by simpa [addRegion, ramAt_append, hf] using h.flash,
      by simp [addRegion, ramAt_append, hr]⟩
  rw [if_neg hr]
  exact ⟨hhash, nofun, by simpa [addRegion, ramAt_append, hf] using h.flash,
    by simpa [addRegion, ramAt_append, hr] using h.ram⟩

theorem lt_of_scan (h : scan regions addr = some i) : i < regions.length := by
  exact (findIdx?_eq_some_iff_getElem.1 h).1

theorem hit_some (h : hit bus addr c = some i) :
    c = some i ∧ ∃ r, bus.regions[i]? = some r ∧ r.contains addr = true := by
  obtain ⟨j, hj, h⟩ := Option.bind_eq_some_iff.1 h
  obtain ⟨r, hr, h⟩ := Option.bind_eq_some_iff.1 h
  split at h
  next hc =>
    cases h
    exact ⟨hj, r, hr, hc⟩
  · cases h

theorem BusInv.findRegionTlb (h : BusInv bus) (addr : Nat) : BusInv (findRegionTlb bus addr).2 := by
  unfold Sim.findRegionTlb
  split
  · exact h
  split
  next i hi =>
    refine ⟨h.hash, fun k j hj => ?_, h.flash, h.ram⟩
    simp only at hj ⊢
    by_cases hk : k = tlbIndex addr
    · subst hk
      rw [Function.update_self] at hj
      cases hj
      -- what the slow path finds is a region of the list
      unfold findRegionSlow at hi
      split at hi
      next i' hi' =>
        cases hi
        obtain ⟨-, r, hr, -⟩ := hit_some hi'
        exact (List.getElem?_eq_some_iff.1 hr).1
      · exact lt_of_scan hi
    rw [Function.update_of_ne hk] at hj
    exact h.tlb k j hj
  · exact h

theorem busStep_inv (h : BusInv bus) (e : BusEvent) : BusInv (busStep bus e) := by
  cases e with
  | register base size => exact h.register base size
  | registerRam base size data readOnly => exact h.registerRam base size data readOnly
  | read addr =>
    show BusInv (if inRam addr || inFlash addr then bus else (Sim.findRegionTlb bus addr).2)
    split
    · exact h
    exact h.findRegionTlb addr
  | write addr => ?_
  show BusInv (if inRam addr then bus else (Sim.findRegionTlb bus addr).2)
  split
  · exact h
  · exact h.findRegionTlb addr

theorem runFrom_busInv (es : List BusEvent) (h : BusInv bus) : BusInv (runFrom busStep bus es) := by
  induction es generalizing bus with
  | nil => exact h
  | cons e es ih => exact ih (busStep_inv h e)

theorem membusInit_inv : BusInv membusInit := ⟨nofun, nofun, rfl, rfl⟩

/-! ## Lookups against the scan -/

/-- No two regions have an address in common. -/
def RegionsDisjoint (regions : List MemRegion) : Prop :=
  regions.Pairwise fun a b => ∀ x, ¬ ((a.base ≤ x ∧ x < a.base + a.size) ∧ (b.base ≤ x ∧ x < b.base + b.size))

/-- No region ends at the top of the address space. -/
def RegionsBelowTop (regions : List MemRegion) : Prop := ∀ r ∈ regions, r.base + r.size < 4294967296

theorem contains_iff (h : r.base + r.size < 4294967296) (addr : Nat) :
    r.contains addr = true ↔ r.base ≤ addr ∧ addr < r.base + r.size := by
  simp [MemRegion.contains, add32_of_lt h]

/-- A region that has the address is the one that the scan finds. -/
theorem scan_eq_of_contains (hd : RegionsDisjoint regions)
    (ht : RegionsBelowTop regions) (hr : regions[i]? = some r)
    (hc : r.contains addr = true) : scan regions addr = some i := by
  obtain ⟨hi, rfl⟩ := List.getElem?_eq_some_iff.1 hr
  unfold scan
  rw [findIdx?_eq_some_iff_getElem]
  refine ⟨hi, hc, fun j hj => ?_⟩
  have hjl : j < regions.length := Nat.lt_trans hj hi
  rw [Bool.not_eq_true]
  by_contra hcj
  rw [Bool.not_eq_false] at hcj
  exact pairwise_iff_getElem.1 hd j i hjl hi hj addr ⟨(contains_iff (ht _ (getElem_mem hjl)) addr).1 hcj,
      (contains_iff (ht _ (getElem_mem hi)) addr).1 hc⟩

section

variable (hd : RegionsDisjoint bus.regions) (ht : RegionsBelowTop bus.regions)
include hd ht

theorem hit_eq_scan (h : hit bus addr c = some i) : scan bus.regions addr = some i := by
  obtain ⟨-, r, hr, hc⟩ := hit_some h
  exact scan_eq_of_contains hd ht hr hc

/-- Through the last-hit cache and the page hash the region is the one that the scan finds. -/
theorem findRegionTlb_eq_scan (addr : Nat) : (findRegionTlb bus addr).1 = scan bus.regions addr := by
  have hslow : findRegionSlow bus addr = scan bus.regions addr := by
    unfold findRegionSlow
    split
    next i hi => exact (hit_eq_scan hd ht hi).symm
    · rfl
  unfold Sim.findRegionTlb
  split
  next i hi => exact (hit_eq_scan hd ht hi).symm
  · rw [hslow]
    split
    next i hi => exact hi.symm
    next hi => exact hi.symm

end

/-- The memory of a fast path: the one registered last at `base` has the address. -/
def Covers (regions : List MemRegion) (base addr : Nat) (writable : Bool) : Prop :=
  ∃ r, ramAt regions base = some r ∧ addr < base + r.size ∧ (writable = true → r.readOnly = false)

/-- In the window of a fast path the scan finds the memory that the fast path goes to. -/
theorem Covers.scan {w : Bool} (hc : Covers regions base addr w)
    (hd : RegionsDisjoint regions) (ht : RegionsBelowTop regions) (hb : base ≤ addr) :
    ∃ i r d, Sim.scan regions addr = some i ∧ regions[i]? = some r ∧ r.direct = some d ∧ r.base = base ∧
      (ramAt regions base).bind (·.direct) = some d ∧ (w = true → r.readOnly = false) := by
  obtain ⟨r, hr, hsize, hro⟩ := hc
  have hmem := mem_of_getLast? hr
  obtain ⟨hmem, hp⟩ := mem_filter.1 hmem
  rw [Bool.and_eq_true, decide_eq_true_eq] at hp
  obtain ⟨d, hdirect⟩ := Option.isSome_iff_exists.1 hp.1
  obtain ⟨i, hi⟩ := getElem?_of_mem hmem
  have hcon : r.contains addr = true := (contains_iff (ht r hmem) addr).2 (by omega)
  exact ⟨i, r, d, scan_eq_of_contains hd ht hi hcon, hi, hdirect, hp.2, by rw [hr]; exact hdirect, hro⟩

theorem window (h : (decide (base ≤ addr) && decide (addr < base + size)) = true) :
    base ≤ addr ∧ addr < base + size := by simpa using h

section

variable {d : Nat} (hr : regions[i]? = some r) (hd : r.direct = some d)
include hr hd

theorem readAt_direct :
    readAt regions addr (some i) = .host (some d) (addr - r.base) := by simp [readAt, hr, hd]

theorem writeAt_direct (hro : r.readOnly = false) :
    writeAt regions addr (some i) = .host (some d) (addr - r.base) := by simp [writeAt, hr, hd, hro]

end

section

variable (hi : BusInv bus) (hd : RegionsDisjoint bus.regions) (ht : RegionsBelowTop bus.regions)
include hi hd ht

theorem membusRead_eq_scan (hram : inRam addr → Covers bus.regions MEMBUS_RAM_BASE addr false)
    (hflash : inFlash addr → Covers bus.regions MEMBUS_FLASH_BASE addr false) :
    membusRead bus addr = readAt bus.regions addr (scan bus.regions addr) := by
  unfold membusRead
  by_cases h : inRam addr = true
  · obtain ⟨i, r, d, hs, hr, hdir, hbase, hptr, -⟩ := (hram h).scan hd ht (window h).1
    rw [if_pos h, hs, readAt_direct hr hdir, hbase, hi.ram, hptr]
  rw [if_neg h]
  by_cases h : inFlash addr = true
  · obtain ⟨i, r, d, hs, hr, hdir, hbase, hptr, -⟩ := (hflash h).scan hd ht (window h).1
    rw [if_pos h, hs, readAt_direct hr hdir, hbase, hi.flash, hptr]
  rw [if_neg h, findRegionTlb_eq_scan hd ht]

theorem membusWrite_eq_scan
    (hram : inRam addr → Covers bus.regions MEMBUS_RAM_BASE addr true) :
    membusWrite bus addr = writeAt bus.regions addr (scan bus.regions addr) := by
  unfold membusWrite
  by_cases h : inRam addr = true
  · obtain ⟨i, r, d, hs, hr, hdir, hbase, hptr, hro⟩ := (hram h).scan hd ht (window h).1
    rw [if_pos h, hs, writeAt_direct hr hdir (hro rfl), hbase, hi.ram, hptr]
  rw [if_neg h, findRegionTlb_eq_scan hd ht]

end

/-- **The caches of the bus are transparent**: after any history of registrations and accesses that leaves
pairwise disjoint regions below the top of the address space, every lookup through the last-hit cache and
the page hash finds the region that the scan finds, and so does every access, if the memory registered at
the base of a fast path's window has the address. -/
theorem membus_transparent (es : List BusEvent) (bus : Membus) (hbus : bus = runFrom busStep membusInit es)
    (hd : RegionsDisjoint bus.regions) (ht : RegionsBelowTop bus.regions) (addr : Nat) :
    (findRegionTlb bus addr).1 = scan bus.regions addr ∧
    ((inRam addr → Covers bus.regions MEMBUS_RAM_BASE addr false) →
      (inFlash addr → Covers bus.regions MEMBUS_FLASH_BASE addr false) →
      membusRead bus addr = readAt bus.regions addr (scan bus.regions addr)) ∧
    ((inRam addr → Covers bus.regions MEMBUS_RAM_BASE addr true) →
      membusWrite bus addr = writeAt bus.regions addr (scan bus.regions addr)) := by
  have hi : BusInv bus := hbus ▸ runFrom_busInv es membusInit_inv
  exact ⟨findRegionTlb_eq_scan hd ht addr, membusRead_eq_scan hi hd ht, membusWrite_eq_scan hi hd ht⟩

/-- Flash, RAM and one device, as a board has them, and an access to the device. -/
def boardEvents : List BusEvent :=
  [.registerRam 0x08000000 0x80000 0 true, .registerRam 0x20000000 0x20000 1 false,
    .register 0x40011000 0x20, .read 0x40011004]

def board : Membus := runFrom busStep membusInit boardEvents

theorem board_regions : board.regions =
    [⟨0x08000000, 0x80000, some 0, true⟩, ⟨0x20000000, 0x20000, some 1, false⟩, ⟨0x40011000, 0x20, none, false⟩] := by
  decide

theorem board_disjoint : RegionsDisjoint board.regions := by
  rw [board_regions]
  simp only [RegionsDisjoint, pairwise_cons, mem_cons, not_mem_nil, or_false, forall_eq_or_imp,
    forall_eq, IsEmpty.forall_iff, implies_true, List.Pairwise.nil, and_true]
  exact ⟨⟨fun x => by omega, fun x => by omega⟩, fun x => by omega⟩

theorem board_belowTop : RegionsBelowTop board.regions := by
  rw [board_regions]
  simp [RegionsBelowTop]

theorem membus_transparent_board : (findRegionTlb board 0x40011004).1 = scan board.regions 0x40011004 ∧
    membusRead board 0x08000010 = readAt board.regions 0x08000010 (scan board.regions 0x08000010) ∧
    membusWrite board 0x20000010 = writeAt board.regions 0x20000010 (scan board.regions 0x20000010) := by
  have hboard : board = runFrom busStep membusInit boardEvents := rfl
  refine ⟨(membus_transparent boardEvents board hboard board_disjoint board_belowTop 0x40011004).1,
    (membus_transparent boardEvents board hboard board_disjoint board_belowTop 0x08000010).2.1
      (fun h => absurd h (by decide)) (fun _ => ?_),
    (membus_transparent boardEvents board hboard board_disjoint board_belowTop 0x20000010).2.2 (fun _ => ?_)⟩
  · exact ⟨⟨0x08000000, 0x80000, some 0, true⟩, by rw [board_regions]; rfl, by decide, nofun⟩
  · exact ⟨⟨0x20000000, 0x20000, some 1, false⟩, by rw [board_regions]; rfl, by decide, fun _ => rfl⟩

/-- A device in the window of the RAM: the scan finds it, the fast path goes through the pointer of a RAM
that nobody registered. -/
theorem membusRead_device_in_window :
    let bus := runFrom busStep membusInit [.register 0x20000000 0x400]
    RegionsDisjoint bus.regions ∧ RegionsBelowTop bus.regions ∧ scan bus.regions 0x20000010 = some 0 ∧
      readAt bus.regions 0x20000010 (scan bus.regions 0x20000010) = .device 0 0x10 ∧
      membusRead bus 0x20000010 = .host none 0x10 := by
  refine ⟨pairwise_singleton _ _, ?_, by decide, by decide, by decide⟩
  intro r hr
  rw [mem_singleton.1 hr]
  decide

end Embedded.Sim
