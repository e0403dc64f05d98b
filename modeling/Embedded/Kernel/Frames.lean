import Embedded.Lib.Owner
import Embedded.Kernel.Vm

/-! # Who holds a physical frame

A frame of a live address space is held by exactly one *reference*: one of the four frames of an L1
table, an L1 slot (the frame of its L2 table), or an L2 entry (a user page). `Inv m live` says that
the tables of the address spaces in `live` are well formed, that every frame they hold is marked
used in the allocator and that no frame is held twice. The section on primitives shows what each
operation of `vm.c` does to the relation `Mm.holds`; everything about address spaces follows from
those lemmas, never from the words in memory again. -/

namespace Embedded.Kernel

open Mm

variable {f i k l n pa va : Nat} {m2 : Mm}

/-- A place that can hold a frame. -/
inductive Ref
  /-- Frame `k` of the kernel's own L1 table. -/
  | ker (k : Nat)
  /-- Frame `k` of the L1 table `l`. -/
  | l1 (l k : Nat)
  /-- Slot `i` of the L1 table `l`, holding the frame of an L2 table. -/
  | l2 (l i : Nat)
  /-- Entry `k` of the L2 table behind slot `i` of `l`, holding a user page. -/
  | page (l i k : Nat)
deriving DecidableEq

/-- The table a slot of `l` points to. -/
def Mm.l2Base (m : Mm) (l i : Nat) : Nat := l1CoarseL2Base (m.l1Entry l i)

theorem Mm.l2Base_congr {m m' : Mm} (h : m'.l1Entry l i = m.l1Entry l i) : m'.l2Base l i = m.l2Base l i := by
  rw [l2Base, l2Base, h]

/-- The reference `r` of the address spaces `live` holds the frame `f`. -/
def Mm.holds (m : Mm) (live : Set Nat) : Ref → Nat → Prop
  | .ker k, f => k < 4 ∧ f = m.kerL1 / 4096 + k
  | .l1 l k, f => l ∈ live ∧ k < 4 ∧ f = l / 4096 + k
  | .l2 l i, f => l ∈ live ∧ i < 4096 ∧ l1IsCoarse (m.l1Entry l i) = true ∧ f = m.l2Base l i / 4096
  | .page l i k, f =>
    l ∈ live ∧ i < 4096 ∧ l1IsCoarse (m.l1Entry l i) = true ∧ k < 256 ∧
      l2IsValid (m.l2Entry (m.l2Base l i) k) = true ∧ f = m.l2Entry (m.l2Base l i) k / 4096

/-- References to frames that hold tables, as opposed to user pages. -/
def Ref.isTable : Ref → Bool
  | .page _ _ _ => false
  | _ => true

/-- The frame invariant for the live address spaces `live`. -/
structure Inv (m : Mm) (live : Set Nat) : Prop where
  pmm : PmmOk m.pmm
  kerAligned : m.kerL1 % 16384 = 0
  kerSections : ∀ i < 4096, l1IsCoarse (m.l1Entry m.kerL1 i) = false
  l1Aligned : ∀ l ∈ live, l % 16384 = 0
  l2Aligned : ∀ l ∈ live, ∀ i < 4096, l1IsCoarse (m.l1Entry l i) = true →
    i < 1024 ∧ m.l2Base l i % 4096 = 0
  owns : Owns (m.holds live) m.used

/-- Used, and held by no reference. -/
def Mm.loose (m : Mm) (live : Set Nat) (f : Nat) : Prop := Loose (m.holds live) m.used f

/-! ## Memory outside the tables does not matter -/

/-- `m'` has the words of `m` in every frame that holds a table. -/
def TablesAgree (m m' : Mm) (live : Set Nat) : Prop :=
  m'.kerL1 = m.kerL1 ∧
    ∀ r f, r.isTable = true → m.holds live r f → ∀ x, x / 4096 = f → m'.mem x = m.mem x

variable {m m' : Mm} {live : Set Nat}

variable (h : TablesAgree m m' live)
include h

theorem TablesAgree.kerEntry (hk : m.kerL1 % 16384 = 0) (hi : i < 4096) :
    m'.l1Entry m'.kerL1 i = m.l1Entry m.kerL1 i := by
  rw [h.1]
  refine Mem.r32_congr fun j hj => h.2 (.ker (i / 1024)) _ rfl ⟨by omega, rfl⟩ _ (by omega)

theorem TablesAgree.l1Entry (hl : l ∈ live) (hal : l % 16384 = 0) (hi : i < 4096) :
    m'.l1Entry l i = m.l1Entry l i :=
  Mem.r32_congr fun j hj => h.2 (.l1 l (i / 1024)) _ rfl ⟨hl, by omega, rfl⟩ _ (by omega)

theorem TablesAgree.l2Entry (hl : l ∈ live) (hi : i < 4096)
    (hc : l1IsCoarse (m.l1Entry l i) = true) (hal : m.l2Base l i % 4096 = 0) (hk : k < 256) :
    m'.l2Entry (m.l2Base l i) k = m.l2Entry (m.l2Base l i) k :=
  Mem.r32_congr fun j hj => h.2 (.l2 l i) _ rfl ⟨hl, hi, hc, rfl⟩ _ (by omega)

theorem TablesAgree.holds_iff
    (inv : Inv m live) (r : Ref) (f : Nat) : m'.holds live r f ↔ m.holds live r f := by
  have h1 : ∀ l ∈ live, ∀ i < 4096, m'.l1Entry l i = m.l1Entry l i :=
    fun l hl i hi => h.l1Entry hl (inv.l1Aligned l hl) hi
  cases r with
  | ker k => simp only [holds, h.1]
  | l1 l k => simp only [holds]
  | l2 l i =>
    simp only [holds, l2Base]
    refine and_congr_right fun hl => and_congr_right fun hi => ?_
    rw [h1 l hl i hi]
  | page l i k => ?_
  simp only [holds, l2Base]
  refine and_congr_right fun hl => and_congr_right fun hi => ?_
  rw [h1 l hl i hi]
  refine and_congr_right fun hc => and_congr_right fun hk => ?_
  have h2 : m'.l2Entry (l1CoarseL2Base (m.l1Entry l i)) k = m.l2Entry (l1CoarseL2Base (m.l1Entry l i)) k :=
    h.l2Entry hl hi hc (inv.l2Aligned l hl i hi hc).2 hk
  rw [h2]

omit h

/-- The invariant survives any change of memory outside the tables and any change of the allocator
    that keeps the held frames used. -/
theorem Inv.frame (inv : Inv m live) (h : TablesAgree m m' live)
    (hpmm : PmmOk m'.pmm) (hused : ∀ r f, m.holds live r f → m'.used f) : Inv m' live := by
  have hiff := h.holds_iff inv
  have h1 : ∀ l ∈ live, ∀ i < 4096, m'.l1Entry l i = m.l1Entry l i :=
    fun l hl i hi => h.l1Entry hl (inv.l1Aligned l hl) hi
  refine ⟨hpmm, by rw [h.1]; exact inv.kerAligned, fun i hi => ?_, inv.l1Aligned, fun l hl i hi => ?_, ?_⟩
  · rw [h.kerEntry inv.kerAligned hi]
    exact inv.kerSections i hi
  · rw [l2Base_congr (h1 l hl i hi), h1 l hl i hi]
    exact inv.l2Aligned l hl i hi
  exact inv.owns.mono (fun r f => (hiff r f).1) (fun r f hr => hused r f ((hiff r f).1 hr))

/-! ## Allocating, freeing, and writing user pages -/

section Primitives

variable (a : AllocSpec m n pa m')
include a

theorem AllocSpec.tablesAgree (inv : Inv m live) : TablesAgree m m' live := by
  refine ⟨a.kerL1, fun r f _ hr x hx => ?_⟩
  rw [a.mem]
  apply Mem.zero_of_not_mem
  -- a held frame is used, so it is none of those just handed out
  rintro ⟨h1, h2⟩
  have hal := a.aligned
  exact a.fresh f (by omega) (by omega) (inv.owns.alloc r f hr)

theorem AllocSpec.inv (inv : Inv m live) : Inv m' live :=
  inv.frame (a.tablesAgree inv) a.pmmOk fun r f hr => (a.used f).2 (.inl (inv.owns.alloc r f hr))

theorem AllocSpec.loose (inv : Inv m live)
    (h1 : pa / 4096 ≤ f) (h2 : f < pa / 4096 + n) : m'.loose live f := by
  refine ⟨(a.used f).2 (.inr ⟨h1, h2⟩), fun r hr => ?_⟩
  exact a.fresh f h1 h2 (inv.owns.alloc r f (((a.tablesAgree inv).holds_iff inv r f).1 hr))

theorem AllocSpec.loose_of_loose (inv : Inv m live) (h : m.loose live f) : m'.loose live f :=
  ⟨(a.used f).2 (.inl h.1), fun r hr => h.2 r (((a.tablesAgree inv).holds_iff inv r f).1 hr)⟩

omit a

theorem FreeSpec.tablesAgree (h : FreeSpec m f m') : TablesAgree m m' live :=
  ⟨h.kerL1, fun _ _ _ _ _ _ => by rw [h.mem]⟩

theorem FreeSpec.inv (h : FreeSpec m f m') (inv : Inv m live)
    (hf : ∀ r, ¬ m.holds live r f) : Inv m' live := by
  refine inv.frame h.tablesAgree h.pmmOk fun r g hr => (h.used g).2 ⟨inv.owns.alloc r g hr, ?_⟩
  rintro rfl
  exact hf r hr

theorem tablesAgree_of_write {mem : Mem} (hf : ∀ r, r.isTable = true → ¬ m.holds live r f)
    (hmem : ∀ x, x / 4096 ≠ f → mem x = m.mem x) : TablesAgree m { m with mem := mem } live := by
  refine ⟨rfl, fun r g ht hr x hx => hmem x ?_⟩
  rintro rfl
  subst hx
  exact hf r ht hr

variable (inv : Inv m live)
include inv

theorem Inv.not_table_of_page
    (h : m.holds live (.page l i k) f) : ∀ r, r.isTable = true → ¬ m.holds live r f := by
  rintro r ht hr
  rw [inv.owns.uniq r _ f hr h] at ht
  simp [Ref.isTable] at ht

/-! ## Writing table entries -/

section Written

variable {r₀ : Ref} {g : Nat} (h₀ : m.holds live r₀ g) (hmem : ∀ x, x / 4096 ≠ g → m'.mem x = m.mem x)
include h₀ hmem

/-- A write into the frame of one reference leaves the words in the frames of the others. -/
theorem Inv.word_congr {r : Ref} {x : Nat} (hne : r ≠ r₀) (hr : m.holds live r f)
    (hx : x / 4096 = f) (hx4 : x % 4 = 0) : m'.mem.r32 x = m.mem.r32 x := by
  have hfg : f ≠ g := by
    rintro rfl
    exact hne (inv.owns.uniq r _ _ hr h₀)
  exact Mem.r32_congr fun j hj => hmem _ (by omega)

theorem Inv.kerEntry_congr (hi : i < 4096) (hne : .ker (i / 1024) ≠ r₀) :
    m'.l1Entry m.kerL1 i = m.l1Entry m.kerL1 i := by
  have hal := inv.kerAligned
  exact inv.word_congr h₀ hmem hne ⟨by omega, rfl⟩ (by omega) (by omega)

theorem Inv.l2Entry_congr (hl : l ∈ live) (hi : i < 4096) (hc : l1IsCoarse (m.l1Entry l i) = true)
    (hk : k < 256) (hne : .l2 l i ≠ r₀) :
    m'.l2Entry (l1CoarseL2Base (m.l1Entry l i)) k = m.l2Entry (l1CoarseL2Base (m.l1Entry l i)) k := by
  have hal := (inv.l2Aligned l hl i hi hc).2
  unfold l2Base at hal
  exact inv.word_congr h₀ hmem hne ⟨hl, hi, hc, rfl⟩ (by unfold l2Base; omega) (by omega)

end Written

section

variable {d : Nat} (hl : l ∈ live) (hi : i < 4096) (hc : l1IsCoarse (m.l1Entry l i) = true) (hk : k < 256)
  (hd : d < 4294967296)
include hl hi hc hk hd

/-- Storing `d` in entry `k` of the L2 table behind slot `i`: only that page reference changes. -/
theorem holds_setL2 (hm' : m' = { m with mem := m.mem.w32 (m.l2Base l i + 4 * k) d }) :
    (∀ l' i', l' ∈ live → i' < 4096 → m'.l1Entry l' i' = m.l1Entry l' i') ∧
    (∀ i', i' < 4096 → m'.l1Entry m.kerL1 i' = m.l1Entry m.kerL1 i') ∧
    (∀ r f, m'.holds live r f ↔
      (r = .page l i k ∧ l2IsValid d = true ∧ f = d / 4096) ∨ (r ≠ .page l i k ∧ m.holds live r f)) := by
  obtain ⟨hi1024, hal⟩ := inv.l2Aligned l hl i hi hc
  have hhold : m.holds live (.l2 l i) (m.l2Base l i / 4096) := ⟨hl, hi, hc, rfl⟩
  -- the frame written is the one L2 frame of slot `i`, so no other table word moves
  have hmem : ∀ x, x / 4096 ≠ m.l2Base l i / 4096 → m'.mem x = m.mem x := by
    intro x hx
    rw [hm']
    exact Mem.w32_of_ne (by omega)
  have hker : m'.kerL1 = m.kerL1 := by rw [hm']
  have h1 : ∀ l' i', l' ∈ live → i' < 4096 → m'.l1Entry l' i' = m.l1Entry l' i' := by
    intro l' i' hl' hi'
    have hal' := inv.l1Aligned l' hl'
    exact inv.word_congr (r := .l1 l' (i' / 1024)) hhold hmem (by simp) ⟨hl', by omega, rfl⟩
      (by omega) (by omega)
  have h0 := fun i' hi' => inv.kerEntry_congr hhold hmem (i := i') hi' (by simp)
  refine ⟨h1, h0, fun r f => ?_⟩
  cases r with
  | ker k' => simp only [holds, hker]; simp
  | l1 l' k' => simp only [holds]; simp
  | l2 l' i' =>
    simp only [holds, l2Base, ne_eq, reduceCtorEq, false_and, false_or, not_false_eq_true, true_and]
    refine and_congr_right fun hl' => and_congr_right fun hi' => ?_
    rw [h1 l' i' hl' hi']
  | page l' i' k' => ?_
  by_cases hsame : l' = l ∧ i' = i
  · obtain ⟨rfl, rfl⟩ := hsame
    have he : m'.l1Entry l' i' = m.l1Entry l' i' := h1 l' i' hl hi
    by_cases hkk : k' = k
    · subst hkk
      have hd' : m'.l2Entry (m.l2Base l' i') k' = d := by
        simp only [l2Entry, hm']
        exact Mem.r32_w32_self hd
      have hb : m'.l2Base l' i' = m.l2Base l' i' := by simp only [l2Base, he]
      simp only [holds, hb, he, hd', hl, hi, hc, hk, true_and, ne_eq, not_true_eq_false, false_and, or_false]
    have hk' : ∀ k'', k'' ≠ k → m'.l2Entry (m.l2Base l' i') k'' = m.l2Entry (m.l2Base l' i') k'' := by
      intro k'' hne
      simp only [l2Entry, hm']
      exact Mem.r32_w32_of_ne (by omega)
    have hb : m'.l2Base l' i' = m.l2Base l' i' := by simp only [l2Base, he]
    simp only [holds, hb, he, hk' k' hkk, Ref.page.injEq, hkk, and_false, false_and, false_or,
      ne_eq, not_false_eq_true, true_and]
  have hne : Ref.page l' i' k' ≠ Ref.page l i k := by
    intro h
    rw [Ref.page.injEq] at h
    exact hsame ⟨h.1, h.2.1⟩
  simp only [holds, l2Base, hne, false_and, false_or, ne_eq, not_false_eq_true, true_and]
  refine and_congr_right fun hl' => and_congr_right fun hi' => ?_
  rw [h1 l' i' hl' hi']
  refine and_congr_right fun hc' => and_congr_right fun hk' => ?_
  rw [inv.l2Entry_congr hhold hmem hl' hi' hc' hk' (by simpa using hsame)]

/-- An L2 entry may be cleared, or set to a frame that nothing holds. -/
theorem Inv.setL2 (hloose : l2IsValid d = true → m.loose live (d / 4096)) :
    Inv { m with mem := m.mem.w32 (m.l2Base l i + 4 * k) d } live := by
  obtain ⟨h1, h0, hiff⟩ := holds_setL2 inv hl hi hc hk hd rfl
  refine ⟨inv.pmm, inv.kerAligned, fun i' hi' => ?_, inv.l1Aligned, fun l' hl' i' hi' => ?_, ?_⟩
  · rw [h0 i' hi']
    exact inv.kerSections i' hi'
  · rw [l2Base_congr (h1 l' i' hl' hi'), h1 l' i' hl' hi']
    exact inv.l2Aligned l' hl' i' hi'
  by_cases hv : l2IsValid d = true
  · refine inv.owns.take (.page l i k) (hloose hv) (fun r f hr => ?_) (fun f hf => hf)
    rcases (hiff r f).1 hr with ⟨hr, _, hf⟩ | ⟨_, hr⟩
    · exact .inl ⟨hr, hf⟩
    exact .inr hr
  have hsub : ∀ r f, holds { m with mem := m.mem.w32 (m.l2Base l i + 4 * k) d } live r f →
      m.holds live r f := by
    intro r f hr
    rcases (hiff r f).1 hr with ⟨_, h, _⟩ | ⟨_, hr⟩
    · exact absurd h hv
    exact hr
  exact inv.owns.mono hsub fun r f hr => inv.owns.alloc r f (hsub r f hr)

end

omit inv in
theorem l1IsCoarse_l1Coarse {t : Nat} (hal : t % 4096 = 0) : l1IsCoarse (l1Coarse t) = true := by
  simp only [l1IsCoarse, l1Coarse, beq_iff_eq]; omega

omit inv in
theorem l1CoarseL2Base_l1Coarse {t : Nat} (hal : t % 4096 = 0) : l1CoarseL2Base (l1Coarse t) = t := by
  simp only [l1CoarseL2Base, l1Coarse]; omega

/-- Pointing a section slot of `l` at a zeroed table in a loose frame: the slot takes that frame and
    no page reference changes. -/
theorem holds_setL1 {t : Nat} (hl : l ∈ live) (hi : i < 4096)
    (hnc : l1IsCoarse (m.l1Entry l i) = false) (hal : t % 4096 = 0) (ht : t < 4294967296)
    (hloose : m.loose live (t / 4096)) (hzero : ∀ k < 256, m.l2Entry t k = 0)
    (hm' : m' = { m with mem := m.mem.w32 (l + 4 * i) (l1Coarse t) }) :
    m'.l1Entry l i = l1Coarse t ∧
    (∀ l' i', l' ∈ live → i' < 4096 → ¬ (l' = l ∧ i' = i) → m'.l1Entry l' i' = m.l1Entry l' i') ∧
    (∀ i', i' < 4096 → m'.l1Entry m.kerL1 i' = m.l1Entry m.kerL1 i') ∧
    (∀ r f, m'.holds live r f ↔ (r = .l2 l i ∧ f = t / 4096) ∨ m.holds live r f) := by
  have hlal := inv.l1Aligned l hl
  have hhold : m.holds live (.l1 l (i / 1024)) (l / 4096 + i / 1024) := ⟨hl, by omega, rfl⟩
  -- the frame written is one frame of `l`'s own L1 table
  have hmem : ∀ x, x / 4096 ≠ l / 4096 + i / 1024 → m'.mem x = m.mem x := by
    intro x hx
    rw [hm']
    exact Mem.w32_of_ne (by omega)
  have hker : m'.kerL1 = m.kerL1 := by rw [hm']
  have hself : m'.l1Entry l i = l1Coarse t := by
    simp only [l1Entry, hm']
    exact Mem.r32_w32_self (by unfold l1Coarse; omega)
  have h1 : ∀ l' i', l' ∈ live → i' < 4096 → ¬ (l' = l ∧ i' = i) → m'.l1Entry l' i' = m.l1Entry l' i' := by
    intro l' i' hl' hi' hne
    have hal' := inv.l1Aligned l' hl'
    by_cases hll : l' = l
    · subst hll
      simp only [l1Entry, hm']
      exact Mem.r32_w32_of_ne (by omega)
    exact inv.word_congr (r := .l1 l' (i' / 1024)) hhold hmem (by simp [hll]) ⟨hl', by omega, rfl⟩
      (by omega) (by omega)
  have h0 := fun i' hi' => inv.kerEntry_congr hhold hmem (i := i') hi' (by simp)
  have hcoarse := l1IsCoarse_l1Coarse hal
  have hbase := l1CoarseL2Base_l1Coarse hal
  refine ⟨hself, h1, h0, fun r f => ?_⟩
  cases r with
  | ker k' => simp only [holds, hker]; simp
  | l1 l' k' => simp only [holds]; simp
  | l2 l' i' =>
    by_cases hsame : l' = l ∧ i' = i
    · obtain ⟨rfl, rfl⟩ := hsame
      simp only [holds, l2Base, hself, hcoarse, hbase, hl, hi, hnc, true_and,
        Bool.false_eq_true, false_and, or_false]
    simp only [holds, l2Base, Ref.l2.injEq, hsame, false_and, false_or]
    refine and_congr_right fun hl' => and_congr_right fun hi' => ?_
    rw [h1 l' i' hl' hi' hsame]
  | page l' i' k' => ?_
  simp only [holds, l2Base, reduceCtorEq, false_and, false_or]
  refine and_congr_right fun hl' => and_congr_right fun hi' => ?_
  by_cases hsame : l' = l ∧ i' = i
  · obtain ⟨rfl, rfl⟩ := hsame
    rw [hself, hcoarse, hbase, hnc]
    simp only [true_and, Bool.false_eq_true, false_and, iff_false, not_and]
    intro hk'
    have hz : m'.l2Entry t k' = m.l2Entry t k' := by
      refine Mem.r32_congr fun j hj => hmem _ ?_
      have : t / 4096 ≠ l' / 4096 + i' / 1024 := by
        intro h
        rw [h] at hloose
        exact hloose.2 _ hhold
      omega
    rw [hz, hzero k' hk']
    simp [l2IsValid]
  rw [h1 l' i' hl' hi' hsame]
  refine and_congr_right fun hc' => and_congr_right fun hk' => ?_
  rw [inv.l2Entry_congr hhold hmem hl' hi' hc' hk' (by simp)]

theorem Inv.setL1 {t : Nat} (hl : l ∈ live) (hi : i < 1024)
    (hnc : l1IsCoarse (m.l1Entry l i) = false) (hal : t % 4096 = 0) (ht : t < 4294967296)
    (hloose : m.loose live (t / 4096)) (hzero : ∀ k < 256, m.l2Entry t k = 0) :
    Inv { m with mem := m.mem.w32 (l + 4 * i) (l1Coarse t) } live := by
  obtain ⟨hself, h1, h0, hiff⟩ := holds_setL1 inv hl (by omega) hnc hal ht hloose hzero rfl
  refine ⟨inv.pmm, inv.kerAligned, fun i' hi' => ?_, inv.l1Aligned, fun l' hl' i' hi' => ?_, ?_⟩
  · rw [h0 i' hi']
    exact inv.kerSections i' hi'
  · simp only [l2Base]
    by_cases hsame : l' = l ∧ i' = i
    · obtain ⟨rfl, rfl⟩ := hsame
      rw [hself, l1CoarseL2Base_l1Coarse hal]
      exact fun _ => ⟨hi, hal⟩
    rw [h1 l' i' hl' hi' hsame]
    exact inv.l2Aligned l' hl' i' hi'
  exact inv.owns.take (.l2 l i) hloose (fun r f hr => (hiff r f).1 hr) (fun f hf => hf)

/-! ## `vm.c`, function by function -/

omit inv in
/-- The reference of the user page at `va`. -/
def pageRef (l va : Nat) : Ref := .page l (l1Index va) (l2Index va)

omit inv in
theorem l1Index_lt (h : va < 4294967296) : l1Index va < 4096 := by
  unfold l1Index; omega

omit inv in
theorem l2Index_lt (va : Nat) : l2Index va < 256 := by
  unfold l2Index; omega

theorem Inv.l2Base_ne_zero (hl : l ∈ live) (hi : i < 4096)
    (hc : l1IsCoarse (m.l1Entry l i) = true) : m.l2Base l i ≠ 0 := by
  intro h
  have hu := inv.owns.alloc (.l2 l i) _ ⟨hl, hi, hc, rfl⟩
  have h1 := inv.pmm.pos
  have h2 := inv.pmm.aligned
  have h3 := hu.1
  omega

omit inv in
theorem l2For_false (m : Mm) (l va : Nat) : (l2For m l va false).1
      = if l1IsCoarse (m.l1Entry l (l1Index va)) = true then m.l2Base l (l1Index va) else 0 := by
  unfold l2For
  simp only [Bool.not_false, if_true]
  split <;> rfl

theorem vmWalk_of_holds (h : m.holds live (pageRef l va) f) : vmWalk m l va = f * 4096 + va % 4096 := by
  obtain ⟨hl, hi, hc, _, hv, rfl⟩ := h
  have hne := inv.l2Base_ne_zero hl hi hc
  simp only [vmWalk, l2For_false, hc, if_true, if_neg hne, hv, l2SmallBase, pageDown]

theorem vmWalk_eq_zero (hl : l ∈ live) (hva : va < 4294967296)
    (h : ∀ f, ¬ m.holds live (pageRef l va) f) : vmWalk m l va = 0 := by
  simp only [vmWalk, l2For_false]
  by_cases hc : l1IsCoarse (m.l1Entry l (l1Index va)) = true
  · rw [if_pos hc, if_neg (inv.l2Base_ne_zero hl (l1Index_lt hva) hc)]
    split
    · next hv => exact absurd ⟨hl, l1Index_lt hva, hc, l2Index_lt va, hv, rfl⟩ (h _)
    rfl
  rw [if_neg hc, if_pos rfl]

theorem Inv.frame_pos {r : Ref} (h : m.holds live r f) : 0 < f := by
  have h1 := inv.pmm.pos
  have h2 := inv.pmm.aligned
  have h3 := (inv.owns.alloc r f h).1
  omega

theorem vmWalk_ne_zero_iff (hl : l ∈ live)
    (hva : va < 4294967296) : vmWalk m l va ≠ 0 ↔ ∃ f, m.holds live (pageRef l va) f := by
  constructor
  · intro h
    by_contra hno
    exact h (vmWalk_eq_zero inv hl hva fun f hf => hno ⟨f, hf⟩)
  rintro ⟨f, hf⟩
  have := inv.frame_pos hf
  rw [vmWalk_of_holds inv hf]
  omega

/-- A map from page references to frames. -/
abbrev Pages := Ref → Nat → Prop

omit inv in
/-- `P` with `r₀` mapped to `f₀`. -/
def Pages.set (P : Pages) (r₀ : Ref) (f₀ : Nat) : Pages :=
  fun r f => (r = r₀ ∧ f = f₀) ∨ (r ≠ r₀ ∧ P r f)

omit inv in
/-- `P` with `r₀` unmapped. -/
def Pages.clear (P : Pages) (r₀ : Ref) : Pages :=
  fun r f => r ≠ r₀ ∧ P r f

/-- From `m` to `m'` the invariant is kept, every table stays where it was, and a frame that is in
    use but not held by an address space stays that way. -/
structure Keeps (m m' : Mm) (live : Set Nat) : Prop where
  inv : Inv m' live
  tables : ∀ r f, r.isTable = true → m.holds live r f → m'.holds live r f
  loose : ∀ f, m.loose live f → m'.loose live f

/-- `Keeps`, with the user pages of the live address spaces as `P` says. -/
structure Evolves (m m' : Mm) (live : Set Nat) (P : Pages) : Prop extends Keeps m m' live where
  pages : ∀ r f, r.isTable = false → (m'.holds live r f ↔ P r f)

theorem Keeps.refl : Keeps m m live := ⟨inv, fun _ _ _ hr => hr, fun _ h => h⟩

omit inv

theorem Keeps.trans (h : Keeps m m' live) (h' : Keeps m' m2 live) : Keeps m m2 live :=
  ⟨h'.inv, fun r f ht hr => h'.tables r f ht (h.tables r f ht hr), fun f hf => h'.loose f (h.loose f hf)⟩

theorem TablesAgree.evolves (h : TablesAgree m m' live) (inv : Inv m live) (inv' : Inv m' live)
    (hused : ∀ f, m.loose live f → m'.used f) : Evolves m m' live (m.holds live) :=
  ⟨⟨inv', fun r f _ hr => (h.holds_iff inv r f).2 hr,
    fun f hf => ⟨hused f hf, fun r hr => hf.2 r ((h.holds_iff inv r f).1 hr)⟩⟩,
    fun r f _ => h.holds_iff inv r f⟩

theorem TablesAgree.evolves_mem {mem : Mem} (h : TablesAgree m { m with mem := mem } live)
    (inv : Inv m live) : Evolves m { m with mem := mem } live (m.holds live) :=
  h.evolves inv (inv.frame h inv.pmm inv.owns.alloc) fun _ hf => hf.1

theorem Evolves.refl (inv : Inv m live) : Evolves m m live (m.holds live) := ⟨.refl inv, fun _ _ _ => Iff.rfl⟩

theorem Evolves.congr {P Q : Pages} (h : Evolves m m' live P)
    (hPQ : ∀ r f, r.isTable = false → (P r f ↔ Q r f)) : Evolves m m' live Q :=
  ⟨h.toKeeps, fun r f ht => (h.pages r f ht).trans (hPQ r f ht)⟩

theorem Keeps.evolves {P : Pages} (h : Keeps m m' live) (h' : Evolves m' m2 live P) : Evolves m m2 live P :=
  ⟨h.trans h'.toKeeps, h'.pages⟩

theorem Evolves.trans (h : Evolves m m' live (m.holds live))
    (h' : Evolves m' m2 live (m'.holds live)) : Evolves m m2 live (m.holds live) :=
  (h.toKeeps.evolves h').congr h.pages

/-- From `m` to `m'` the page reference `r₀` took the frame `f₀`, which was loose; nothing else
    changed hands. -/
structure Maps (m m' : Mm) (live : Set Nat) (r₀ : Ref) (f₀ : Nat) : Prop where
  inv : Inv m' live
  tables : ∀ r f, r.isTable = true → m.holds live r f → m'.holds live r f
  pages : ∀ r f, r.isTable = false → (m'.holds live r f ↔ Pages.set (m.holds live) r₀ f₀ r f)
  loose : ∀ f, f ≠ f₀ → m.loose live f → m'.loose live f

/-- Mapping a frame that was taken from the allocator on the way. -/
theorem Evolves.maps {r₀ : Ref} {f₀ : Nat} (h : Evolves m m' live (m.holds live))
    (h' : Maps m' m2 live r₀ f₀) (hf0 : ¬ m.used f₀) :
    Evolves m m2 live (Pages.set (m.holds live) r₀ f₀) := by
  refine ⟨⟨h'.inv, fun r f ht hr => h'.tables r f ht (h.tables r f ht hr), fun f hf => ?_⟩, fun r f ht => ?_⟩
  · refine h'.loose f ?_ (h.loose f hf)
    rintro rfl
    exact hf0 hf.1
  rw [h'.pages r f ht]
  exact or_congr_right (and_congr_right fun _ => h.pages r f ht)

/-- `l2_for` with `create`: it fails without effect, or `va`'s slot has its table now and no page
    mapping changed. -/
theorem l2For_true_cases (inv : Inv m live) (hl : l ∈ live) (hva : l1Index va < 1024) :
    ((l2For m l va true).1 = 0 ∧ (l2For m l va true).2 = m) ∨
    (Evolves m (l2For m l va true).2 live (m.holds live) ∧
      l1IsCoarse ((l2For m l va true).2.l1Entry l (l1Index va)) = true ∧
      (l2For m l va true).1 = (l2For m l va true).2.l2Base l (l1Index va)) := by
  by_cases hc : l1IsCoarse (m.l1Entry l (l1Index va)) = true
  · have heq : l2For m l va true = (m.l2Base l (l1Index va), m) := by
      unfold l2For
      rw [if_pos hc]
      rfl
    rw [heq]
    exact .inr ⟨.refl inv, hc, rfl⟩
  have hc' : l1IsCoarse (m.l1Entry l (l1Index va)) = false := by simpa using hc
  unfold l2For
  rw [if_neg hc, if_neg (by simp)]
  rcases pmmAllocAligned_cases m 1 1024 inv.pmm with ⟨h0, hm⟩ | ⟨a, _⟩
  · rw [if_pos h0]
    exact .inl ⟨rfl, hm⟩
  have hpos := a.pos
  rw [if_neg (by omega)]
  generalize hr : pmmAllocAligned m 1 1024 = r at a
  obtain ⟨t, m1⟩ := r
  have inv1 : Inv m1 live := a.inv inv
  have hfits := a.fits
  have hal := a.aligned
  have hloose : m1.loose live (t / 4096) := a.loose inv (by omega) (by omega)
  -- the fresh frame is zeroed once more; the tables do not see it
  have hz : TablesAgree m1 { m1 with mem := m1.mem.zero t 1024 } live :=
    tablesAgree_of_write (fun r _ => hloose.2 r) (fun x hx => Mem.zero_of_not_mem (by omega))
  have hiff2 := hz.holds_iff inv1
  have inv2 : Inv { m1 with mem := m1.mem.zero t 1024 } live := inv1.frame hz inv1.pmm inv1.owns.alloc
  have hloose2 : loose { m1 with mem := m1.mem.zero t 1024 } live (t / 4096) :=
    ⟨hloose.1, fun r h => hloose.2 r ((hiff2 r _).1 h)⟩
  have hnc : l1IsCoarse (l1Entry { m1 with mem := m1.mem.zero t 1024 } l (l1Index va)) = false := by
    rw [hz.l1Entry hl (inv.l1Aligned l hl) (by omega),
      (a.tablesAgree inv).l1Entry hl (inv.l1Aligned l hl) (by omega)]
    exact hc'
  have hzero : ∀ k < 256, l2Entry { m1 with mem := m1.mem.zero t 1024 } t k = 0 :=
    fun k hk => Mem.r32_zero_of_mem (by omega) (by omega)
  obtain ⟨hself, _, _, hiff⟩ := holds_setL1 inv2 hl (by omega) hnc hal (by omega) hloose2 hzero rfl
  have hinv := inv2.setL1 hl hva hnc hal (by omega) hloose2 hzero
  have hold : ∀ r f, m.holds live r f ↔ holds { m1 with mem := m1.mem.zero t 1024 } live r f := fun r f => by
    rw [hiff2 r f, (a.tablesAgree inv).holds_iff inv r f]
  refine .inr ⟨⟨⟨hinv, fun r f _ hr => ?_, fun f hf => ?_⟩, fun r f ht => ?_⟩, ?_, ?_⟩
  · exact (hiff r f).2 (.inr ((hold r f).1 hr))
  · refine ⟨(a.used f).2 (.inl hf.1), fun r h => ?_⟩
    rcases (hiff r f).1 h with ⟨_, rfl⟩ | h
    · exact a.fresh _ (by omega) (by omega) hf.1
    exact (a.loose_of_loose inv hf).2 r ((hiff2 r f).1 h)
  · rw [hiff r f, hold r f]
    constructor
    · rintro (⟨rfl, _⟩ | h)
      · simp [Ref.isTable] at ht
      exact h
    exact .inr
  · rw [hself, l1IsCoarse_l1Coarse hal]
  rw [l2Base, hself, l1CoarseL2Base_l1Coarse hal]

/-- `vm_map_page` of a loose frame: it fails without effect, or `va` is a user address and its page
    reference holds the frame now, every other one what it held. -/
theorem vmMapPage_cases (va : Nat) (inv : Inv m live) (hl : l ∈ live)
    (hal : pa % 4096 = 0) (hpa : pa < 4294967296) (hloose : m.loose live (pa / 4096)) :
    ((vmMapPage m l va pa).1 ≠ 0 ∧ (vmMapPage m l va pa).2 = m) ∨
    ((vmMapPage m l va pa).1 = 0 ∧ userVaMin ≤ va ∧ va < userVaMax ∧
      Maps m (vmMapPage m l va pa).2 live (pageRef l va) (pa / 4096)) := by
  unfold vmMapPage
  split
  · exact .inl ⟨by simp, rfl⟩
  rename_i hrange
  have hi : l1Index va < 1024 := by
    simp only [l1Index, userVaMin, userVaMax] at *; omega
  rcases l2For_true_cases inv hl hi with ⟨h0, hm⟩ | ⟨ev, hc, hbase⟩
  · rw [if_pos h0, hm]
    exact .inl ⟨by simp, rfl⟩
  have inv1 := ev.inv
  have hne := inv1.l2Base_ne_zero hl (by omega) hc
  rw [if_neg (by rw [hbase]; exact hne), hbase]
  have hd : l2SmallUser pa < 4294967296 := by
    simp only [l2SmallUser, pageDown]; omega
  have hv : l2IsValid (l2SmallUser pa) = true := by
    simp only [l2IsValid, l2SmallUser, pageDown, bne_iff_ne]; omega
  have hdiv : l2SmallUser pa / 4096 = pa / 4096 := by
    simp only [l2SmallUser, pageDown]; omega
  obtain ⟨_, _, hiff⟩ := holds_setL2 inv1 hl (by omega) hc (l2Index_lt va) hd rfl
  have hinv := inv1.setL2 hl (by omega) hc (l2Index_lt va) hd (fun _ => by rw [hdiv]; exact ev.loose _ hloose)
  refine .inr ⟨rfl, by omega, by omega, hinv, fun r f ht hr => ?_, fun r f ht => ?_,
    fun f hf hfl => ⟨(ev.loose f hfl).1, fun r hr => ?_⟩⟩
  · refine (hiff r f).2 (.inr ⟨?_, ev.tables r f ht hr⟩)
    rintro rfl
    simp [Ref.isTable] at ht
  · rw [hiff r f, hdiv]
    simp only [hv, true_and]
    exact or_congr_right (and_congr_right fun _ => ev.pages r f ht)
  rcases (hiff r f).1 hr with ⟨_, _, h⟩ | ⟨_, h⟩
  · exact hf (h.trans hdiv)
  · exact (ev.loose f hfl).2 r h

/-- `vm_unmap_page` of a mapped page: its reference holds nothing now and the frame is loose. -/
theorem vmUnmapPage_spec (inv : Inv m live) (h : m.holds live (pageRef l va) f) :
    Evolves m (vmUnmapPage m l va).2 live (Pages.clear (m.holds live) (pageRef l va)) ∧
    (vmUnmapPage m l va).2.loose live f := by
  have h' := h
  obtain ⟨hl, hi, hc, hk, hv, _⟩ := h'
  have hne := inv.l2Base_ne_zero hl hi hc
  have heq : (vmUnmapPage m l va).2
      = { m with mem := m.mem.w32 (m.l2Base l (l1Index va) + 4 * l2Index va) 0 } := by
    simp only [vmUnmapPage, l2For_false, hc, if_true, if_neg hne, hv]
  obtain ⟨_, _, hiff⟩ := holds_setL2 inv hl hi hc hk (by omega) heq
  have hiff' : ∀ r g, (vmUnmapPage m l va).2.holds live r g ↔ r ≠ pageRef l va ∧ m.holds live r g := by
    intro r g
    rw [hiff r g]
    simp [l2IsValid, pageRef]
  have hinv : Inv (vmUnmapPage m l va).2 live := by
    rw [heq]
    exact inv.setL2 hl hi hc hk (by omega) (by simp [l2IsValid])
  have hused : (vmUnmapPage m l va).2.used = m.used := by rw [heq]; rfl
  refine ⟨⟨⟨hinv, fun r g ht hr => (hiff' r g).2 ⟨?_, hr⟩, fun g hg => ⟨?_, fun r hr => ?_⟩⟩,
    fun r g _ => hiff' r g⟩, ?_⟩
  · rintro rfl
    simp [Ref.isTable, pageRef] at ht
  · rw [hused]
    exact hg.1
  · exact hg.2 r ((hiff' r g).1 hr).2
  rw [loose, hused]
  exact inv.owns.loose_of_drop h fun r g hr => (hiff' r g).1 hr

end Primitives

end Embedded.Kernel
