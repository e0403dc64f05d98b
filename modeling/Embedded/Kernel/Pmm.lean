import Embedded.Lib.Mem

/-! # The physical page allocator (`mm/pmm.c`)

A bitmap over the 4 KB frames of `[basePa, basePa + numPages * 4096)`, one bit a frame, scanned
linearly. Frames come back zeroed, so the allocator works on the physical memory too: `Mm` is the
memory, the allocator's statics and the base of the kernel's own L1 table (`l1_pa` of `mmu.c`),
which `vm_create` copies. -/

namespace Embedded.Kernel

/-- `MAX_PAGES`: the bitmap covers 128 MB. -/
def maxPages : Nat := 32768

/-- The statics of `pmm.c`. -/
structure Pmm where
  basePa : Nat
  numPages : Nat
  usedPages : Nat
  bitmap : Nat → Bool

/-- Physical memory and everything that hands out parts of it. -/
structure Mm where
  mem : Mem
  pmm : Pmm
  /-- `mmu_l1_base()`. -/
  kerL1 : Nat

/-- `bit_set` on the `n` bits from `i` on, with the count of used pages. -/
def Pmm.setRun (p : Pmm) (i n : Nat) : Pmm :=
  { p with
    bitmap := fun x => decide (i ≤ x ∧ x < i + n) || p.bitmap x
    usedPages := p.usedPages + n }

/-- `bit_clr` on bit `i`, with the count of used pages. -/
def Pmm.clearBit (p : Pmm) (i : Nat) : Pmm :=
  { p with
    bitmap := fun x => !decide (x = i) && p.bitmap x
    usedPages := p.usedPages - 1 }

/-- `pmm_init`: manage the whole frames of `[start, stop)`, all free. -/
def pmmInit (start stop : Nat) : Pmm :=
  let start := pageUp start
  let stop := pageDown stop
  let n := if stop > start then (stop - start) / 4096 else 0
  { basePa := start
    numPages := if n > maxPages then maxPages else n
    usedPages := 0
    bitmap := fun _ => false }

/-- The scan of `pmm_alloc_page`: the first free index from `i` on, `fuel` indices left. -/
def Pmm.firstFree (p : Pmm) : Nat → Nat → Option Nat
  | 0, _ => none
  | fuel + 1, i => if p.bitmap i then p.firstFree fuel (i + 1) else some i

/-- `pmm_alloc_page`: one zeroed frame, or `0` when there is none. -/
def pmmAllocPage (m : Mm) : Nat × Mm :=
  match m.pmm.firstFree m.pmm.numPages 0 with
  | none => (0, m)
  | some i =>
    (m.pmm.basePa + i * 4096,
      { m with
        mem := m.mem.zero (m.pmm.basePa + i * 4096) 4096
        pmm := m.pmm.setRun i 1 })

/-- Are the `n` bits from `i` on all clear? -/
def Pmm.runFree (p : Pmm) : Nat → Nat → Bool
  | 0, _ => true
  | n + 1, i => !p.bitmap i && p.runFree n (i + 1)

/-- The scan of `pmm_alloc_aligned`: the first index from `i` on that starts `n` free frames at an
    aligned address. `fuel` bounds the number of indices looked at. -/
def Pmm.firstRun (p : Pmm) (n align : Nat) : Nat → Nat → Option Nat
  | 0, _ => none
  | fuel + 1, i =>
    if i + n ≤ p.numPages then
      if (p.basePa + i * 4096) % align = 0 ∧ p.runFree n i = true then some i
      else p.firstRun n align fuel (i + 1)
    else none

/-- `pmm_alloc_aligned`: `n` consecutive zeroed frames aligned to `align` (a power of two), or `0`. -/
def pmmAllocAligned (m : Mm) (n align : Nat) : Nat × Mm :=
  match m.pmm.firstRun n align (m.pmm.numPages + 1) 0 with
  | none => (0, m)
  | some i =>
    (m.pmm.basePa + i * 4096,
      { m with
        mem := m.mem.zero (m.pmm.basePa + i * 4096) (n * 4096)
        pmm := m.pmm.setRun i n })

/-- `pmm_free_page`. -/
def pmmFreePage (m : Mm) (pa : Nat) : Mm :=
  if pa < m.pmm.basePa then m
  else
    let i := (pa - m.pmm.basePa) / 4096
    if i < m.pmm.numPages ∧ m.pmm.bitmap i = true then { m with pmm := m.pmm.clearBit i } else m

/-- The loop of `pmm_reserve`: mark the `n` pages from `i` on, counting each at most once. -/
def Pmm.markUsed (p : Pmm) : Nat → Nat → Pmm
  | 0, _ => p
  | n + 1, i => Pmm.markUsed (if p.bitmap i then p else p.setRun i 1) n (i + 1)

/-- `pmm_reserve`: mark every managed page that overlaps `[start, stop)` as used. -/
def pmmReserve (p : Pmm) (start stop : Nat) : Pmm :=
  if stop ≤ p.basePa then p
  else
    let start := if start < p.basePa then p.basePa else start
    let s := (start - p.basePa) / 4096
    let e := add32 (stop - p.basePa) 4095 / 4096
    let e := if e > p.numPages then p.numPages else e
    p.markUsed (e - s) s

/-! ## What the allocator does to the set of used frames

Frames are numbered by `pa / 4096`. A caller of the allocator needs to know only `AllocSpec`: the
frames handed out were free, they are used and zeroed now, and nothing else changed. -/

/-- The frame `f` is managed and marked used. -/
def Mm.used (m : Mm) (f : Nat) : Prop :=
  m.pmm.basePa / 4096 ≤ f ∧ f < m.pmm.basePa / 4096 + m.pmm.numPages ∧
    m.pmm.bitmap (f - m.pmm.basePa / 4096) = true

/-- The managed window is page-aligned, off address `0` and inside the 32-bit space. -/
structure PmmOk (p : Pmm) : Prop where
  aligned : p.basePa % 4096 = 0
  pos : 0 < p.basePa
  fits : p.basePa + p.numPages * 4096 ≤ 4294967296

/-- `m'` is `m` after `n` frames from address `pa` on were handed out. -/
structure AllocSpec (m : Mm) (n pa : Nat) (m' : Mm) : Prop where
  aligned : pa % 4096 = 0
  pos : 0 < pa
  fits : pa + n * 4096 ≤ 4294967296
  fresh : ∀ f, pa / 4096 ≤ f → f < pa / 4096 + n → ¬ m.used f
  used : ∀ f, m'.used f ↔ m.used f ∨ (pa / 4096 ≤ f ∧ f < pa / 4096 + n)
  mem : m'.mem = m.mem.zero pa (n * 4096)
  kerL1 : m'.kerL1 = m.kerL1
  pmmOk : PmmOk m'.pmm

theorem Pmm.firstFree_spec (p : Pmm) :
    ∀ (fuel i j : Nat), p.firstFree fuel i = some j → j < i + fuel ∧ p.bitmap j = false := by
  intro fuel
  induction fuel with
  | zero => intro i j h; simp [Pmm.firstFree] at h
  | succ fuel ih => ?_
  intro i j h
  simp only [Pmm.firstFree] at h
  split at h
  · obtain ⟨hlt, hfree⟩ := ih (i + 1) j h
    exact ⟨by omega, hfree⟩
  rename_i hbit
  cases h
  exact ⟨by omega, by simpa using hbit⟩

theorem Pmm.runFree_spec (p : Pmm) :
    ∀ (n i : Nat), p.runFree n i = true → ∀ j, i ≤ j → j < i + n → p.bitmap j = false := by
  intro n
  induction n with
  | zero => intro i _ j _ _; omega
  | succ n ih => ?_
  intro i h j hij hj
  simp only [Pmm.runFree, Bool.and_eq_true, Bool.not_eq_true'] at h
  rcases Nat.eq_or_lt_of_le hij with rfl | hlt
  · exact h.1
  · exact ih (i + 1) h.2 j hlt (by omega)

theorem Pmm.firstRun_spec (p : Pmm) (n align : Nat) : ∀ (fuel i j : Nat), p.firstRun n align fuel i = some j →
      j + n ≤ p.numPages ∧ (p.basePa + j * 4096) % align = 0 ∧ p.runFree n j = true := by
  intro fuel
  induction fuel with
  | zero => intro i j h; simp [Pmm.firstRun] at h
  | succ fuel ih => ?_
  intro i j h
  simp only [Pmm.firstRun] at h
  split at h
  · next hle =>
    split at h
    · next hrun =>
      cases h
      exact ⟨hle, hrun.1, hrun.2⟩
    exact ih (i + 1) j h
  simp at h

theorem allocSpec_setRun (m : Mm) (n i : Nat) (ok : PmmOk m.pmm) (hin : i + n ≤ m.pmm.numPages)
    (hfree : ∀ j, i ≤ j → j < i + n → m.pmm.bitmap j = false) :
    AllocSpec m n (m.pmm.basePa + i * 4096)
      { m with mem := m.mem.zero (m.pmm.basePa + i * 4096) (n * 4096), pmm := m.pmm.setRun i n } := by
  obtain ⟨hal, hpos, hfits⟩ := ok
  have hdiv : (m.pmm.basePa + i * 4096) / 4096 = m.pmm.basePa / 4096 + i := by omega
  refine ⟨by omega, by omega, by omega, ?_, ?_, rfl, rfl, ⟨hal, hpos, hfits⟩⟩
  · rintro f hf hf' ⟨_, _, hbit⟩
    rw [hfree (f - m.pmm.basePa / 4096) (by omega) (by omega)] at hbit
    simp at hbit
  intro f
  simp only [Mm.used, Pmm.setRun, Bool.or_eq_true, decide_eq_true_eq, hdiv]
  constructor
  · rintro ⟨h1, h2, h3 | h3⟩
    · exact .inr (by omega)
    exact .inl ⟨h1, h2, h3⟩
  rintro (⟨h1, h2, h3⟩ | ⟨h1, h2⟩)
  · exact ⟨h1, h2, .inr h3⟩
  · exact ⟨by omega, by omega, .inl ⟨by omega, by omega⟩⟩

theorem pmmAllocPage_cases (m : Mm) (ok : PmmOk m.pmm) : ((pmmAllocPage m).1 = 0 ∧ (pmmAllocPage m).2 = m) ∨
      AllocSpec m 1 (pmmAllocPage m).1 (pmmAllocPage m).2 := by
  unfold pmmAllocPage
  split
  · exact .inl ⟨rfl, rfl⟩
  rename_i i hi
  obtain ⟨hlt, hbit⟩ := m.pmm.firstFree_spec _ _ _ hi
  refine .inr (allocSpec_setRun m 1 i ok (by omega) ?_)
  intro j hj hj'
  obtain rfl : j = i := by omega
  exact hbit

theorem pmmAllocAligned_cases (m : Mm) (n align : Nat) (ok : PmmOk m.pmm) :
    ((pmmAllocAligned m n align).1 = 0 ∧ (pmmAllocAligned m n align).2 = m) ∨
      (AllocSpec m n (pmmAllocAligned m n align).1 (pmmAllocAligned m n align).2 ∧
        (pmmAllocAligned m n align).1 % align = 0) := by
  unfold pmmAllocAligned
  split
  · exact .inl ⟨rfl, rfl⟩
  rename_i i hi
  obtain ⟨hin, hal, hrun⟩ := m.pmm.firstRun_spec n align _ _ _ hi
  exact .inr ⟨allocSpec_setRun m n i ok hin (m.pmm.runFree_spec n i hrun), hal⟩

/-- What `pmm_free_page` leaves: the same memory, and every used frame but the one freed. -/
structure FreeSpec (m : Mm) (f : Nat) (m' : Mm) : Prop where
  used : ∀ g, m'.used g ↔ m.used g ∧ g ≠ f
  mem : m'.mem = m.mem
  kerL1 : m'.kerL1 = m.kerL1
  pmmOk : PmmOk m'.pmm

theorem pmmFreePage_spec (m : Mm) (pa : Nat) (ok : PmmOk m.pmm) :
    FreeSpec m (pa / 4096) (pmmFreePage m pa) := by
  obtain ⟨hal, hpos, hfits⟩ := ok
  unfold pmmFreePage
  split
  · next hlt =>
    refine ⟨fun g => ⟨fun h => ⟨h, ?_⟩, fun h => h.1⟩, rfl, rfl, ⟨hal, hpos, hfits⟩⟩
    have := h.1
    omega
  rename_i hge
  have hdiv : (pa - m.pmm.basePa) / 4096 = pa / 4096 - m.pmm.basePa / 4096 := by omega
  simp only
  split
  · refine ⟨fun g => ?_, rfl, rfl, ⟨hal, hpos, hfits⟩⟩
    simp only [Mm.used, Pmm.clearBit, Bool.and_eq_true, Bool.not_eq_true', decide_eq_false_iff_not, hdiv]
    constructor
    · rintro ⟨h1, h2, h3, h4⟩
      exact ⟨⟨h1, h2, h4⟩, by omega⟩
    rintro ⟨⟨h1, h2, h3⟩, h4⟩
    exact ⟨h1, h2, by omega, h3⟩
  rename_i hno
  refine ⟨fun g => ⟨fun h => ⟨h, ?_⟩, fun h => h.1⟩, rfl, rfl, ⟨hal, hpos, hfits⟩⟩
  rintro rfl
  rw [hdiv] at hno
  obtain ⟨h1, h2, h3⟩ := h
  exact hno ⟨by omega, h3⟩

end Embedded.Kernel
