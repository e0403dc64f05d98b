import Embedded.Kernel.Pmm
import Embedded.Lib.Run
import Mathlib.Order.Interval.Finset.Nat

/-! # Whole runs of the physical page allocator

The allocator together with what its callers hold: `PmmRun` adds to the allocator's statics the
window it was given, the list of live allocations and the list of reserved ranges. `pmm_sound` is
about every state that any sequence of `pmm_reserve`, `pmm_alloc_page`, `pmm_alloc_aligned` and
frees of live allocations reaches. -/

namespace Embedded.Kernel

open List Finset Pmm

variable {start stop i align : Nat}

/-! ## The window -/

theorem pmmInit_ok (h0 : 0 < start) (h1 : start ≤ 0xFFFFF000)
    (h2 : stop < 4294967296) : PmmOk (pmmInit start stop) := by
  have hup : pageUp start = (start + 4095) / 4096 * 4096 := by
    unfold pageUp pageDown add32
    omega
  unfold pmmInit pageDown maxPages
  simp only [hup]
  refine ⟨by simp only; omega, by simp only; omega, ?_⟩
  simp only
  split <;> split <;> omega

/-- The managed frames lie in the window that was asked for. -/
theorem pmmInit_inside (stop : Nat) (h1 : start ≤ 0xFFFFF000) : start ≤ (pmmInit start stop).basePa ∧
      ∀ x, x < (pmmInit start stop).basePa + (pmmInit start stop).numPages * 4096 →
        (pmmInit start stop).basePa ≤ x → x < stop := by
  refine ⟨le_pageUp h1, fun x => ?_⟩
  unfold pmmInit pageDown maxPages
  simp only
  split <;> split <;> omega

theorem markUsed_same (n : Nat) : ∀ (p : Pmm) (i : Nat),
    (p.markUsed n i).basePa = p.basePa ∧ (p.markUsed n i).numPages = p.numPages := by
  induction n with
  | zero => intro p i; exact ⟨rfl, rfl⟩
  | succ n ih => ?_
  intro p i
  simp only [markUsed]
  obtain ⟨h1, h2⟩ := ih (if p.bitmap i then p else p.setRun i 1) (i + 1)
  rw [h1, h2]
  split <;> exact ⟨rfl, rfl⟩

theorem pmmReserve_same (p : Pmm) (start stop : Nat) : (pmmReserve p start stop).basePa = p.basePa ∧
      (pmmReserve p start stop).numPages = p.numPages := by
  unfold pmmReserve
  split
  · exact ⟨rfl, rfl⟩
  · exact markUsed_same _ _ _

variable {p : Pmm} {n x : Nat} {m : Mm}

theorem pmmReserve_ok (h : PmmOk p) (start stop : Nat) : PmmOk (pmmReserve p start stop) := by
  obtain ⟨hb, hn⟩ := pmmReserve_same p start stop
  exact ⟨by rw [hb]; exact h.aligned, by rw [hb]; exact h.pos, by rw [hb, hn]; exact h.fits⟩

/-! ## The bitmap after each operation -/

theorem markUsed_bitmap (n : Nat) : ∀ (p : Pmm) (i x : Nat),
    (p.markUsed n i).bitmap x = true ↔ (i ≤ x ∧ x < i + n) ∨ p.bitmap x = true := by
  induction n with
  | zero =>
    intro p i x
    rw [markUsed]
    exact ⟨.inr, fun h => h.resolve_left (by omega)⟩
  | succ n ih => ?_
  intro p i x
  rw [markUsed, ih]
  split
  · next hbit =>
    by_cases hx : x = i
    · subst hx
      simp [hbit]
    have hiff : (i + 1 ≤ x ∧ x < i + 1 + n) ↔ (i ≤ x ∧ x < i + (n + 1)) := by omega
    rw [hiff]
  simp only [setRun, Bool.or_eq_true, decide_eq_true_eq, ← or_assoc]
  have hiff : ((i + 1 ≤ x ∧ x < i + 1 + n) ∨ (i ≤ x ∧ x < i + 1)) ↔ (i ≤ x ∧ x < i + (n + 1)) := by omega
  rw [hiff]

theorem pmmReserve_marks (h : PmmOk p) (hstop : stop < 4294967296)
    (h1 : start ≤ x) (h2 : x < stop) (h3 : p.basePa ≤ x) (h4 : x < p.basePa + p.numPages * 4096) :
    (pmmReserve p start stop).bitmap ((x - p.basePa) / 4096) = true := by
  have hpos := h.pos
  have hal := h.aligned
  have hadd : add32 (stop - p.basePa) 4095 = stop - p.basePa + 4095 := by
    unfold add32
    omega
  have hno : ¬ stop ≤ p.basePa := by omega
  simp only [pmmReserve, if_neg hno, hadd]
  rw [markUsed_bitmap]
  left
  split <;> split <;> omega

theorem pmmReserve_mono (p : Pmm) (start stop : Nat) (hx : p.bitmap x = true) :
    (pmmReserve p start stop).bitmap x = true := by
  unfold pmmReserve
  split
  · exact hx
  · exact (markUsed_bitmap _ _ _ _).2 (.inr hx)

/-! ## The count of used pages -/

/-- The number of managed pages that are marked. -/
def Pmm.marked (p : Pmm) : Nat := ((Finset.range p.numPages).filter fun i => p.bitmap i = true).card

theorem setRun_marked (hin : i + n ≤ p.numPages) (hfree : ∀ j, i ≤ j → j < i + n → p.bitmap j = false) :
    (p.setRun i n).marked = p.marked + n := by
  have hset : (Finset.range p.numPages).filter (fun x => (p.setRun i n).bitmap x = true)
      = (Finset.range p.numPages).filter (fun x => p.bitmap x = true) ∪ Finset.Ico i (i + n) := by
    ext x
    simp only [setRun, Bool.or_eq_true, decide_eq_true_eq, Finset.mem_filter, Finset.mem_range,
      Finset.mem_union, Finset.mem_Ico]
    constructor
    · rintro ⟨hx, h | h⟩
      · exact .inr h
      exact .inl ⟨hx, h⟩
    rintro (⟨hx, h⟩ | h)
    · exact ⟨hx, .inr h⟩
    exact ⟨by omega, .inl h⟩
  have hdis : Disjoint ((Finset.range p.numPages).filter fun x => p.bitmap x = true)
      (Finset.Ico i (i + n)) := by
    rw [Finset.disjoint_left]
    intro x hx hin
    rw [Finset.mem_filter] at hx
    rw [mem_Ico] at hin
    rw [hfree x hin.1 hin.2] at hx
    exact absurd hx.2 (by simp)
  have hnum : (p.setRun i n).numPages = p.numPages := rfl
  rw [marked, hnum, hset, card_union_of_disjoint hdis, Nat.card_Ico, marked]
  omega

theorem clearBit_marked (hi : i < p.numPages) (hbit : p.bitmap i = true) :
    (p.clearBit i).marked = p.marked - 1 := by
  have hset : (Finset.range p.numPages).filter (fun x => (p.clearBit i).bitmap x = true)
      = ((Finset.range p.numPages).filter fun x => p.bitmap x = true).erase i := by
    ext x
    simp only [clearBit, Bool.and_eq_true, Bool.not_eq_true', decide_eq_false_iff_not,
      Finset.mem_filter, Finset.mem_range, Finset.mem_erase]
    tauto
  have hmem : i ∈ (Finset.range p.numPages).filter fun x => p.bitmap x = true := by
    simpa using ⟨hi, hbit⟩
  have hnum : (p.clearBit i).numPages = p.numPages := rfl
  rw [marked, hnum, hset, Finset.card_erase_of_mem hmem, marked]

/-- The counter is the number of marked pages. -/
def Pmm.Counted (p : Pmm) : Prop := p.usedPages = p.marked

theorem Pmm.Counted.setRun (h : p.Counted) (hin : i + n ≤ p.numPages)
    (hfree : ∀ j, i ≤ j → j < i + n → p.bitmap j = false) : (p.setRun i n).Counted := by
  unfold Pmm.Counted at *
  rw [setRun_marked hin hfree, ← h]
  rfl

theorem Pmm.Counted.markUsed (n : Nat) : ∀ {p : Pmm} {i : Nat}, p.Counted → i + n ≤ p.numPages →
    (p.markUsed n i).Counted := by
  induction n with
  | zero => intro p i h _; exact h
  | succ n ih => ?_
  intro p i h hin
  rw [Pmm.markUsed]
  split
  · exact ih h (by omega)
  rename_i hbit
  refine ih (h.setRun (by omega) ?_) (show i + 1 + n ≤ p.numPages by omega)
  intro j hj hj'
  obtain rfl : j = i := by omega
  simpa using hbit

theorem Pmm.Counted.reserve (h : p.Counted) (start stop : Nat) : (pmmReserve p start stop).Counted := by
  unfold pmmReserve
  split
  · exact h
  simp only
  generalize add32 (stop - p.basePa) 4095 / 4096 = e
  generalize ((if start < p.basePa then p.basePa else start) - p.basePa) / 4096 = s
  by_cases hs : s ≤ p.numPages
  · exact Pmm.Counted.markUsed _ h (by split <;> omega)
  have h0 : (if e > p.numPages then p.numPages else e) - s = 0 := by split <;> omega
  rw [h0]
  exact h

theorem Pmm.Counted.free (h : m.pmm.Counted) (pa : Nat) : (pmmFreePage m pa).pmm.Counted := by
  unfold pmmFreePage
  split
  · exact h
  simp only
  split
  · next hb =>
    show m.pmm.usedPages - 1 = (m.pmm.clearBit _).marked
    rw [clearBit_marked hb.1 hb.2, ← h]
  exact h

/-! ## A failed search has looked everywhere -/

theorem Pmm.firstFree_none (p : Pmm) (fuel : Nat) :
    ∀ i, p.firstFree fuel i = none → ∀ j, i ≤ j → j < i + fuel → p.bitmap j = true := by
  induction fuel with
  | zero => intro i _ j _ _; omega
  | succ fuel ih => ?_
  intro i h j hij hj
  rw [firstFree] at h
  split at h
  · next hbit =>
    rcases Nat.eq_or_lt_of_le hij with rfl | hlt
    · exact hbit
    exact ih (i + 1) h j hlt (by omega)
  simp at h

theorem Pmm.runFree_false (p : Pmm) (n : Nat) :
    ∀ i, p.runFree n i = false → ∃ j, i ≤ j ∧ j < i + n ∧ p.bitmap j = true := by
  induction n with
  | zero => intro i h; simp [runFree] at h
  | succ n ih => ?_
  intro i h
  cases hb : p.bitmap i with
  | true => exact ⟨i, le_rfl, by omega, hb⟩
  | false =>
    rw [runFree, hb, Bool.not_false, Bool.true_and] at h
    obtain ⟨j, h1, h2, h3⟩ := ih (i + 1) h
    exact ⟨j, by omega, by omega, h3⟩

theorem Pmm.firstRun_none (p : Pmm) (n align fuel : Nat) :
    ∀ i, p.firstRun n align fuel i = none → ∀ j, i ≤ j → j < i + fuel → j + n ≤ p.numPages →
      (p.basePa + j * 4096) % align = 0 → p.runFree n j = false := by
  induction fuel with
  | zero => intro i _ j _ _ _ _; omega
  | succ fuel ih => ?_
  intro i h j hij hj hin hal
  rw [firstRun, if_pos (by omega)] at h
  split at h
  · simp at h
  rename_i hno
  rcases Nat.eq_or_lt_of_le hij with rfl | hlt
  · cases hr : p.runFree n i with
    | false => rfl
    | true => exact absurd ⟨hal, hr⟩ hno
  exact ih (i + 1) h j hlt (by omega) hin hal

theorem pmmAllocPage_eq_zero (ok : PmmOk m.pmm) (h : (pmmAllocPage m).1 = 0) :
    ∀ i < m.pmm.numPages, m.pmm.bitmap i = true := by
  intro i hi
  have hpos := ok.pos
  unfold pmmAllocPage at h
  split at h
  · next hnone => exact m.pmm.firstFree_none _ 0 hnone i (by omega) (by omega)
  simp only at h
  omega

theorem pmmAllocAligned_eq_zero (ok : PmmOk m.pmm) (h : (pmmAllocAligned m n align).1 = 0) :
    ∀ i, i + n ≤ m.pmm.numPages → (m.pmm.basePa + i * 4096) % align = 0 →
      ∃ j, i ≤ j ∧ j < i + n ∧ m.pmm.bitmap j = true := by
  intro i hi hal
  have hpos := ok.pos
  unfold pmmAllocAligned at h
  split at h
  · next hnone =>
    exact m.pmm.runFree_false n i (m.pmm.firstRun_none n align _ 0 hnone i (by omega) (by omega) hi hal)
  simp only at h
  omega

/-! ## Runs -/

/-- A live allocation: `n` pages from `pa` on, asked for with alignment `align`. -/
structure Alloc where
  pa : Nat
  n : Nat
  align : Nat
deriving DecidableEq

/-- The bytes of an allocation. -/
def Alloc.covers (a : Alloc) (x : Nat) : Prop := a.pa ≤ x ∧ x < a.pa + a.n * 4096

/-- The allocator with its window, the live allocations and the reserved ranges. -/
structure PmmRun where
  start : Nat
  stop : Nat
  mm : Mm
  live : List Alloc
  reserved : List (Nat × Nat)

/-- What callers ask of the allocator. `allocAligned n k` aligns to `2 ^ k` bytes; `free j` gives
    back the `j`-th live allocation. -/
inductive PmmOp
  | reserve (start stop : Nat)
  | allocPage
  | allocAligned (n k : Nat)
  | free (j : Nat)

/-- An allocation is freed page by page: `pmm_free_page` is all there is. -/
def freeRun : Mm → Nat → Nat → Mm
  | m, _, 0 => m
  | m, pa, n + 1 => freeRun (pmmFreePage m pa) (pa + 4096) n

/-- A returned address is an allocation unless it is `0`. -/
def PmmRun.hold (s : PmmRun) (r : Nat × Mm) (n align : Nat) : PmmRun :=
  { s with mm := r.2, live := if r.1 = 0 then s.live else ⟨r.1, n, align⟩ :: s.live }

def PmmRun.step (s : PmmRun) : PmmOp → PmmRun
  | .reserve a b =>
    { s with mm := { s.mm with pmm := pmmReserve s.mm.pmm a b }, reserved := (a, b) :: s.reserved }
  | .allocPage => s.hold (pmmAllocPage s.mm) 1 4096
  | .allocAligned n k => s.hold (pmmAllocAligned s.mm n (2 ^ k)) n (2 ^ k)
  | .free j =>
    match s.live[j]? with
    | none => s
    | some a => { s with mm := freeRun s.mm a.pa a.n, live := s.live.eraseIdx j }

/-- `pmm_init` over a window of nonzero addresses that rounding up does not push out of the address
    space. -/
def PmmRun.Init (s : PmmRun) : Prop :=
  0 < s.start ∧ s.start ≤ 0xFFFFF000 ∧ s.stop < 4294967296 ∧ s.mm.pmm = pmmInit s.start s.stop ∧
    s.live = [] ∧ s.reserved = []

/-- A reserved range is a 32-bit range off the live allocations. -/
def PmmOp.ok (s : PmmRun) : PmmOp → Prop
  | .reserve a b => b < 4294967296 ∧ ∀ l ∈ s.live, b ≤ l.pa ∨ l.pa + l.n * 4096 ≤ a
  | _ => True

/-- What the allocator promises its callers. -/
structure PmmSound (s : PmmRun) : Prop where
  disjoint : s.live.Pairwise fun a b => ∀ x, a.covers x → ¬ b.covers x
  aligned : ∀ a ∈ s.live, a.pa % 4096 = 0 ∧ a.pa % a.align = 0
  inside : ∀ a ∈ s.live, ∀ x, a.covers x → s.start ≤ x ∧ x < s.stop
  offReserved : ∀ a ∈ s.live, ∀ r ∈ s.reserved, ∀ x, a.covers x → ¬ (r.1 ≤ x ∧ x < r.2)
  counted : s.mm.pmm.usedPages = s.mm.pmm.marked
  pageFails : (pmmAllocPage s.mm).1 = 0 → ∀ i < s.mm.pmm.numPages, s.mm.pmm.bitmap i = true
  alignedFails : ∀ n k, (pmmAllocAligned s.mm n (2 ^ k)).1 = 0 → ∀ i, i + n ≤ s.mm.pmm.numPages →
    (s.mm.pmm.basePa + i * 4096) % 2 ^ k = 0 → ∃ j, i ≤ j ∧ j < i + n ∧ s.mm.pmm.bitmap j = true

/-! ## The invariant -/

/-- The address belongs to a managed frame. -/
def Pmm.manages (p : Pmm) (x : Nat) : Prop := p.basePa ≤ x ∧ x < p.basePa + p.numPages * 4096

/-- `m'` manages the frames that `m` does, and counts them as exactly. -/
structure SamePool (m m' : Mm) : Prop where
  base : m'.pmm.basePa = m.pmm.basePa
  num : m'.pmm.numPages = m.pmm.numPages
  counted : m.pmm.Counted → m'.pmm.Counted

theorem SamePool.trans {m1 m2 : Mm} (h : SamePool m m1) (h' : SamePool m1 m2) : SamePool m m2 :=
  ⟨h'.base.trans h.base, h'.num.trans h.num, fun hc => h'.counted (h.counted hc)⟩

theorem pmmAllocPage_samePool (m : Mm) : SamePool m (pmmAllocPage m).2 := by
  unfold pmmAllocPage
  split
  · exact ⟨rfl, rfl, id⟩
  rename_i i hi
  obtain ⟨hlt, hbit⟩ := m.pmm.firstFree_spec _ _ _ hi
  refine ⟨rfl, rfl, fun hc => hc.setRun (by omega) fun j hj hj' => ?_⟩
  obtain rfl : j = i := by omega
  exact hbit

theorem pmmAllocAligned_samePool (m : Mm) (n align : Nat) : SamePool m (pmmAllocAligned m n align).2 := by
  unfold pmmAllocAligned
  split
  · exact ⟨rfl, rfl, id⟩
  rename_i i hi
  obtain ⟨hin, _, hrun⟩ := m.pmm.firstRun_spec n align _ _ _ hi
  exact ⟨rfl, rfl, fun hc => hc.setRun hin (m.pmm.runFree_spec n i hrun)⟩

theorem pmmFreePage_samePool (m : Mm) (pa : Nat) : SamePool m (pmmFreePage m pa) := by
  refine ⟨?_, ?_, fun hc => hc.free pa⟩ <;>
  · simp only [pmmFreePage]
    split
    · rfl
    split <;> rfl

theorem freeRun_spec (n : Nat) : ∀ (m : Mm) (pa : Nat), PmmOk m.pmm → pa % 4096 = 0 →
    PmmOk (freeRun m pa n).pmm ∧ SamePool m (freeRun m pa n) ∧
      ∀ f, (freeRun m pa n).used f ↔ m.used f ∧ ¬ (pa / 4096 ≤ f ∧ f < pa / 4096 + n) := by
  induction n with
  | zero =>
    intro m pa ok _
    exact ⟨ok, ⟨rfl, rfl, id⟩, fun f => ⟨fun h => ⟨h, by omega⟩, fun h => h.1⟩⟩
  | succ n ih => ?_
  intro m pa ok hal
  have hfree := pmmFreePage_spec m pa ok
  obtain ⟨ok', hpool, hused⟩ := ih (pmmFreePage m pa) (pa + 4096) hfree.pmmOk (by omega)
  refine ⟨ok', (pmmFreePage_samePool m pa).trans hpool, fun f => ?_⟩
  rw [freeRun, hused f, hfree.used f, and_assoc]
  refine and_congr_right fun _ => ?_
  omega

/-- The books: live and reserved bytes are marked, and nothing is both or live twice. -/
structure PmmInv (s : PmmRun) : Prop where
  ok : PmmOk s.mm.pmm
  window : ∀ x, s.mm.pmm.manages x → s.start ≤ x ∧ x < s.stop
  counted : s.mm.pmm.Counted
  disjoint : s.live.Pairwise fun a b => ∀ x, a.covers x → ¬ b.covers x
  aligned : ∀ a ∈ s.live, a.pa % 4096 = 0 ∧ a.pa % a.align = 0
  used : ∀ a ∈ s.live, ∀ x, a.covers x → s.mm.used (x / 4096)
  offReserved : ∀ a ∈ s.live, ∀ r ∈ s.reserved, ∀ x, a.covers x → ¬ (r.1 ≤ x ∧ x < r.2)
  reserved : ∀ r ∈ s.reserved, ∀ x, r.1 ≤ x → x < r.2 → s.mm.pmm.manages x → s.mm.used (x / 4096)

variable {s : PmmRun}

theorem SamePool.manages {m' : Mm} (h : SamePool m m') : m'.pmm.manages x ↔ m.pmm.manages x := by
  rw [Pmm.manages, Pmm.manages, h.base, h.num]

theorem PmmOk.manages_of_used (ok : PmmOk m.pmm) (h : m.used (x / 4096)) : m.pmm.manages x := by
  have hal := ok.aligned
  obtain ⟨h1, h2, _⟩ := h
  exact ⟨by omega, by omega⟩

theorem PmmInv.init (h : s.Init) : PmmInv s := by
  obtain ⟨h0, h1, h2, hp, hl, hr⟩ := h
  obtain ⟨hlow, hhigh⟩ := pmmInit_inside s.stop h1
  refine ⟨by rw [hp]; exact pmmInit_ok h0 h1 h2, fun x hx => ?_, ?_, by simp [hl], by simp [hl],
    by simp [hl], by simp [hl], by simp [hr]⟩
  · rw [hp] at hx
    exact ⟨hlow.trans hx.1, hhigh x hx.2 hx.1⟩
  rw [hp]
  show 0 = ((Finset.range _).filter fun i => false = true).card
  simp

/-- An allocation takes free frames, so it meets neither a live one nor a reserved range. -/
theorem PmmInv.hold (h : PmmInv s) {r : Nat × Mm}
    (hr : (r.1 = 0 ∧ r.2 = s.mm) ∨ (AllocSpec s.mm n r.1 r.2 ∧ r.1 % align = 0))
    (hpool : SamePool s.mm r.2) : PmmInv (s.hold r n align) := by
  rcases hr with ⟨h0, hm⟩ | ⟨ha, hal⟩
  · have : s.hold r n align = s := by rw [PmmRun.hold, if_pos h0, hm]
    rw [this]
    exact h
  have hpos : r.1 ≠ 0 := by
    have := ha.pos
    omega
  have hpa := ha.aligned
  -- no byte of the new allocation was in a used frame
  have hfresh : ∀ x, Alloc.covers ⟨r.1, n, align⟩ x → ¬ s.mm.used (x / 4096) := fun x hx =>
    ha.fresh _ (by have := hx.1; simp only at this; omega) (by have := hx.2; simp only at this; omega)
  have hkeep : ∀ f, s.mm.used f → r.2.used f := fun f hf => (ha.used f).2 (.inl hf)
  have hnew : ∀ x, Alloc.covers ⟨r.1, n, align⟩ x → r.2.used (x / 4096) := fun x hx =>
    (ha.used _).2 (.inr ⟨by have := hx.1; simp only at this; omega,
      by have := hx.2; simp only at this; omega⟩)
  unfold PmmRun.hold
  rw [if_neg hpos]
  refine ⟨ha.pmmOk, fun x hx => h.window x (hpool.manages.1 hx), hpool.counted h.counted,
    pairwise_cons.2 ⟨fun b hb x hx hx' => hfresh x hx (h.used b hb x hx'), h.disjoint⟩,
    forall_mem_cons.2 ⟨⟨hpa, hal⟩, h.aligned⟩,
    forall_mem_cons.2 ⟨hnew, fun b hb x hx => hkeep _ (h.used b hb x hx)⟩,
    forall_mem_cons.2 ⟨fun q hq x hx hq' => ?_, h.offReserved⟩,
    fun q hq x h1 h2 hx => hkeep _ (h.reserved q hq x h1 h2 (hpool.manages.1 hx))⟩
  have hman := ha.pmmOk.manages_of_used (hnew x hx)
  exact hfresh x hx (h.reserved q hq x hq'.1 hq'.2 (hpool.manages.1 hman))

theorem PmmInv.reserve (h : PmmInv s) {a b : Nat} (hok : PmmOp.ok s (.reserve a b)) :
    PmmInv (s.step (.reserve a b)) := by
  obtain ⟨hbase, hnum⟩ := pmmReserve_same s.mm.pmm a b
  have hal := h.ok.aligned
  have hman : ∀ x, (pmmReserve s.mm.pmm a b).manages x ↔ s.mm.pmm.manages x := fun x => by
    rw [manages, manages, hbase, hnum]
  have hused : ∀ f, s.mm.pmm.basePa / 4096 ≤ f → f < s.mm.pmm.basePa / 4096 + s.mm.pmm.numPages →
      (pmmReserve s.mm.pmm a b).bitmap (f - s.mm.pmm.basePa / 4096) = true →
      Mm.used { s.mm with pmm := pmmReserve s.mm.pmm a b } f := by
    intro f h1 h2 h3
    simp only [Mm.used, hbase, hnum]
    exact ⟨h1, h2, h3⟩
  have hkeep : ∀ f, s.mm.used f → Mm.used { s.mm with pmm := pmmReserve s.mm.pmm a b } f :=
    fun f hf => hused f hf.1 hf.2.1 (pmmReserve_mono _ _ _ hf.2.2)
  refine ⟨pmmReserve_ok h.ok a b, fun x hx => h.window x ((hman x).1 hx), h.counted.reserve a b,
    h.disjoint, h.aligned, fun l hl x hx => hkeep _ (h.used l hl x hx), fun l hl => ?_, ?_⟩
  · refine forall_mem_cons.2 ⟨fun x hx hx' => ?_, h.offReserved l hl⟩
    have := hok.2 l hl
    obtain ⟨h1, h2⟩ := hx
    omega
  refine forall_mem_cons.2 ⟨fun x h1 h2 hx => ?_, fun r hr x h1 h2 hx =>
    hkeep _ (h.reserved r hr x h1 h2 ((hman x).1 hx))⟩
  have hx' := (hman x).1 hx
  have hbit := pmmReserve_marks h.ok hok.1 h1 h2 hx'.1 hx'.2
  obtain ⟨h3, h4⟩ := hx'
  have hdiv : (x - s.mm.pmm.basePa) / 4096 = x / 4096 - s.mm.pmm.basePa / 4096 := by omega
  rw [hdiv] at hbit
  exact hused _ (by omega) (by omega) hbit

theorem pairwise_eraseIdx_ne {α : Type} {R : α → α → Prop} (hsymm : ∀ a b, R a b → R b a) :
    ∀ (l : List α) (j : Nat) (a : α), l.Pairwise R → l[j]? = some a → ∀ b ∈ l.eraseIdx j, R a b := by
  intro l
  induction l with
  | nil => intro j a _ h; simp at h
  | cons x l ih => ?_
  intro j a hp h b hb
  obtain ⟨hx, hl⟩ := pairwise_cons.1 hp
  cases j with
  | zero =>
    cases h
    exact hx b hb
  | succ j => ?_
  rcases mem_cons.1 hb with rfl | hb
  · exact hsymm _ _ (hx a (mem_of_getElem? h))
  · exact ih j a hl h b hb

theorem PmmInv.free (h : PmmInv s) (j : Nat) : PmmInv (s.step (.free j)) := by
  simp only [PmmRun.step]
  split
  · exact h
  rename_i a ha
  have hmem := mem_of_getElem? ha
  have hpa := (h.aligned a hmem).1
  obtain ⟨ok', hpool, hused⟩ := freeRun_spec a.n s.mm a.pa h.ok hpa
  have hsub : ∀ b ∈ s.live.eraseIdx j, b ∈ s.live := fun b hb => mem_of_mem_eraseIdx hb
  have hne := pairwise_eraseIdx_ne (fun a b hab x hb ha => hab x ha hb) s.live j a h.disjoint ha
  -- a byte outside the freed allocation stays in a used frame
  have hkeep : ∀ x, s.mm.used (x / 4096) → ¬ a.covers x → (freeRun s.mm a.pa a.n).used (x / 4096) :=
    fun x hx hno => (hused _).2 ⟨hx, fun hf => hno ⟨by omega, by omega⟩⟩
  exact ⟨ok', fun x hx => h.window x (hpool.manages.1 hx), hpool.counted h.counted,
    h.disjoint.sublist (eraseIdx_sublist _ _), fun b hb => h.aligned b (hsub b hb),
    fun b hb x hx => hkeep x (h.used b (hsub b hb) x hx) fun hx' => hne b hb x hx' hx,
    fun b hb => h.offReserved b (hsub b hb),
    fun r hr x h1 h2 hx => hkeep x (h.reserved r hr x h1 h2 (hpool.manages.1 hx))
      fun hx' => h.offReserved a hmem r hr x hx' ⟨h1, h2⟩⟩

theorem PmmInv.step (h : PmmInv s) (e : PmmOp) (hok : PmmOp.ok s e) : PmmInv (s.step e) := by
  cases e with
  | reserve a b => exact h.reserve hok
  | allocPage =>
    refine h.hold ?_ (pmmAllocPage_samePool s.mm)
    rcases pmmAllocPage_cases s.mm h.ok with h0 | ha
    · exact .inl h0
    exact .inr ⟨ha, ha.aligned⟩
  | allocAligned n k =>
    exact h.hold (pmmAllocAligned_cases s.mm n (2 ^ k) h.ok) (pmmAllocAligned_samePool s.mm n _)
  | free j => exact h.free j

/-- **The page allocator over whole runs**: live allocations are disjoint, aligned, inside the
    window and off the reserved ranges, the counter is exact, and a request fails only when no free
    run would do. -/
theorem pmm_sound (h : Reachable PmmRun.step PmmOp.ok PmmRun.Init s) : PmmSound s := by
  have inv : PmmInv s := h.invariant (fun _ => PmmInv.init) fun _ e hok hi => hi.step e hok
  exact ⟨inv.disjoint, inv.aligned,
    fun a ha x hx => inv.window x (inv.ok.manages_of_used (inv.used a ha x hx)), inv.offReserved,
    inv.counted, pmmAllocPage_eq_zero inv.ok, fun n k => pmmAllocAligned_eq_zero inv.ok⟩

/-- The allocator over `[start, stop)`, nothing handed out. -/
def PmmRun.fresh (start stop : Nat) : PmmRun :=
  ⟨start, stop, ⟨fun _ => 0, pmmInit start stop, 0⟩, [], []⟩

def pmmOps : List PmmOp :=
  [.reserve 0x40002100 0x40003000, .allocPage, .allocAligned 4 14, .free 1, .allocPage]

theorem pmm_sound_four_pages : (runFrom PmmRun.step (PmmRun.fresh 0x40000001 0x40010000) pmmOps).live
        = [⟨0x40001000, 1, 4096⟩, ⟨0x40004000, 4, 16384⟩] ∧
      PmmSound (runFrom PmmRun.step (PmmRun.fresh 0x40000001 0x40010000) pmmOps) := by
  refine ⟨by decide +kernel, pmm_sound (Reachable.runFrom (.init ?_) pmmOps ?_)⟩
  · exact ⟨by decide, by decide, by decide, rfl, rfl, rfl⟩
  · exact ⟨⟨by decide, by decide⟩, trivial, trivial, trivial, trivial, trivial⟩

/-- Over a window that starts at address `0` the first page handed out cannot be told from a
    failure. -/
theorem pmmAllocPage_zero_window : ¬ PmmSound (PmmRun.fresh 0 0x2000) := by
  intro h
  have hall := h.pageFails (by decide +kernel) 0 (by decide +kernel)
  exact absurd hall (by decide +kernel)

end Embedded.Kernel
