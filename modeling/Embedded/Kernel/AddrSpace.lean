import Embedded.Kernel.Frames

/-! # Address spaces as a whole

The steps the callers of `vm.c` are made of (take a fresh frame and map it, unmap a page and free
its frame, map a list of pages or undo), and the three operations on whole address spaces: create,
copy for `fork`, destroy. Each has one lemma that says what it does to the frame invariant and to
the user pages of the live address spaces. -/

namespace Embedded.Kernel

open List Mem

variable {l i k f : Nat}

/-! ## Single pages -/

/-- `pa = vm_walk(l1, va); if (pa) { vm_unmap_page(l1, va); pmm_free_page(pa); }`: how every caller
    in `mmap.c` and `proc.c` gives a page back. -/
def unmapFree (m : Mm) (l1 va : Nat) : Mm :=
  let pa := vmWalk m l1 va
  if pa = 0 then m else pmmFreePage (vmUnmapPage m l1 va).2 pa

/-- `pa = pmm_alloc_page(); if (!pa || vm_map_page(l1, va, pa) != 0) { if (pa) pmm_free_page(pa); … }`:
    map a fresh zeroed frame at `va`, or fail with the frame given back. -/
def mapFresh (m : Mm) (l1 va : Nat) : Bool × Mm :=
  let r := pmmAllocPage m
  if r.1 = 0 then (false, r.2)
  else
    let s := vmMapPage r.2 l1 va r.1
    if s.1 = 0 then (true, s.2) else (false, pmmFreePage s.2 r.1)

/-- Give back the pages of a list, first to last. -/
def unmapList (m : Mm) (l1 : Nat) : List Nat → Mm
  | [] => m
  | va :: vas => unmapList (unmapFree m l1 va) l1 vas

/-- Map fresh frames at the pages `todo`, in order; when one fails, give the pages mapped so far
    (`done`) back. With `replace` an old mapping is given back first (`map_zeroed_range`); without,
    it is overwritten (`sys_brk`, `map_user_stack`). -/
def mapPages (l1 : Nat) (replace : Bool) : Mm → List Nat → List Nat → Bool × Mm
  | m, _, [] => (true, m)
  | m, done, va :: todo =>
    let r := mapFresh (if replace then unmapFree m l1 va else m) l1 va
    if r.1 then mapPages l1 replace r.2 (done ++ [va]) todo else (false, unmapList r.2 l1 done)

/-- The `n` page addresses from `base` on. -/
def pageRange (base n : Nat) : List Nat := (List.range n).map fun i => add32 base (i * 4096)

/-- The address space a reference belongs to. -/
def Ref.space : Ref → Option Nat
  | .ker _ => none
  | .l1 l _ => some l
  | .l2 l _ => some l
  | .page l _ _ => some l

/-- What an operation on the address space `l` may do: keep the invariant, leave the pages of the
    other address spaces alone, and give `l` new pages only where `S` says (slot, entry). -/
structure Adds (m m' : Mm) (live : Set Nat) (l : Nat) (S : Nat → Nat → Prop) : Prop
    extends Keeps m m' live where
  other : ∀ r f, r.isTable = false → r.space ≠ some l → (m'.holds live r f ↔ m.holds live r f)
  sub : ∀ i k f, m'.holds live (.page l i k) f → m.holds live (.page l i k) f ∨ S i k

section Steps

variable {m m' m2 : Mm} {live : Set Nat} {S S' : Nat → Nat → Prop} {l : Nat}

theorem Adds.refl (inv : Inv m live) : Adds m m live l S :=
  ⟨.refl inv, fun _ _ _ _ => Iff.rfl, fun _ _ _ h => .inl h⟩

theorem Adds.trans (h : Adds m m' live l S) (h' : Adds m' m2 live l S) : Adds m m2 live l S := by
  refine ⟨h.toKeeps.trans h'.toKeeps,
    fun r f ht hr => (h'.other r f ht hr).trans (h.other r f ht hr), fun i k f hf => ?_⟩
  rcases h'.sub i k f hf with hf | hS
  · exact h.sub i k f hf
  exact .inr hS

theorem Adds.mono (h : Adds m m' live l S) (hS : ∀ i k, S i k → S' i k) : Adds m m' live l S' :=
  ⟨h.toKeeps, h.other, fun i k f hf => (h.sub i k f hf).imp_right (hS i k)⟩

theorem Evolves.adds (h : Evolves m m' live (m.holds live)) (l : Nat) : Adds m m' live l S :=
  ⟨h.toKeeps, fun r f ht _ => h.pages r f ht, fun _ _ f hf => .inl ((h.pages _ f rfl).1 hf)⟩

theorem Evolves.adds_set {f0 : Nat}
    (h : Evolves m m' live (Pages.set (m.holds live) (.page l i k) f0)) (hS : S i k) :
    Adds m m' live l S := by
  refine ⟨h.toKeeps, fun r f ht hr => ?_, fun i' k' f hf => ?_⟩
  · rw [h.pages r f ht]
    refine ⟨?_, fun h => .inr ⟨?_, h⟩⟩
    · rintro (⟨rfl, _⟩ | h)
      · exact absurd rfl hr
      exact h.2
    rintro rfl
    exact hr rfl
  rcases (h.pages _ f rfl).1 hf with ⟨heq, _⟩ | ⟨_, h⟩
  · rw [Ref.page.injEq] at heq
    obtain ⟨-, rfl, rfl⟩ := heq
    exact .inr hS
  exact .inl h

theorem Keeps.free {m0 : Mm} {P : Pages} (k : Evolves m0 m live P) (h : FreeSpec m f m')
    (hf : m.loose live f) (hf0 : ¬ m0.loose live f) : Evolves m0 m' live P := by
  have hagree : TablesAgree m m' live := h.tablesAgree
  have hiff := hagree.holds_iff k.inv
  refine ⟨⟨h.inv k.inv hf.2, fun r g ht hr => (hiff r g).2 (k.tables r g ht hr), fun g hg => ?_⟩,
    fun r g ht => (hiff r g).trans (k.pages r g ht)⟩
  have hl := k.loose g hg
  refine ⟨(h.used g).2 ⟨hl.1, ?_⟩, fun r hr => hl.2 r ((hiff r g).1 hr)⟩
  rintro rfl
  exact hf0 hg

theorem AllocSpec.evolves {n pa : Nat} (a : AllocSpec m n pa m') (inv : Inv m live) :
    Evolves m m' live (m.holds live) :=
  (a.tablesAgree inv).evolves inv (a.inv inv) fun f hf => (a.used f).2 (.inl hf.1)

theorem unmapFree_spec (inv : Inv m live) {va : Nat} (hl : l ∈ live) (hva : va < 4294967296) :
    Evolves m (unmapFree m l va) live (Pages.clear (m.holds live) (pageRef l va)) := by
  unfold unmapFree
  by_cases hw : vmWalk m l va = 0
  · rw [if_pos hw]
    refine (Evolves.refl inv).congr fun r f _ => ⟨fun h => ⟨?_, h⟩, fun h => h.2⟩
    rintro rfl
    exact (vmWalk_ne_zero_iff inv hl hva).2 ⟨f, h⟩ hw
  rw [if_neg hw]
  obtain ⟨f, hf⟩ := (vmWalk_ne_zero_iff inv hl hva).1 hw
  obtain ⟨ev, hloose⟩ := vmUnmapPage_spec inv hf
  have hdiv : vmWalk m l va / 4096 = f := by rw [vmWalk_of_holds inv hf]; omega
  have hfree := pmmFreePage_spec (vmUnmapPage m l va).2 (vmWalk m l va) ev.inv.pmm
  rw [hdiv] at hfree
  exact Keeps.free ev hfree hloose fun h => h.2 _ hf

theorem mapFresh_cases (va : Nat) (inv : Inv m live) (hl : l ∈ live) :
    ((mapFresh m l va).1 = false ∧ Evolves m (mapFresh m l va).2 live (m.holds live)) ∨
    ((mapFresh m l va).1 = true ∧ userVaMin ≤ va ∧ va < userVaMax ∧
      ∃ f, Evolves m (mapFresh m l va).2 live (Pages.set (m.holds live) (pageRef l va) f)) := by
  unfold mapFresh
  rcases pmmAllocPage_cases m inv.pmm with ⟨h0, hm⟩ | a
  · rw [if_pos h0, hm]
    exact .inl ⟨rfl, .refl inv⟩
  have hpos := a.pos
  have hfits := a.fits
  have hloose : (pmmAllocPage m).2.loose live ((pmmAllocPage m).1 / 4096) := a.loose inv (by omega) (by omega)
  have hnew : ¬ m.used ((pmmAllocPage m).1 / 4096) := a.fresh _ (by omega) (by omega)
  have ev := a.evolves inv
  rw [if_neg (by omega)]
  rcases vmMapPage_cases va ev.inv hl a.aligned (by omega) hloose with
    ⟨hne, hm⟩ | ⟨h0, hlo, hhi, hmaps⟩
  · rw [if_neg hne, hm]
    have hfree := pmmFreePage_spec (pmmAllocPage m).2 (pmmAllocPage m).1 ev.inv.pmm
    exact .inl ⟨rfl, Keeps.free ev hfree hloose fun h => hnew h.1⟩
  rw [if_pos h0]
  exact .inr ⟨rfl, hlo, hhi, (pmmAllocPage m).1 / 4096, ev.maps hmaps hnew⟩

variable (hl : l ∈ live)
include hl

theorem unmapList_spec (vas : List Nat) : ∀ (m : Mm), Inv m live → (∀ va ∈ vas, va < 4294967296) →
      Evolves m (unmapList m l vas) live (fun r f => (∀ va ∈ vas, r ≠ pageRef l va) ∧ m.holds live r f) := by
  induction vas with
  | nil =>
    intro m inv _
    exact (Evolves.refl inv).congr fun r f _ => by simp
  | cons va vas ih => ?_
  intro m inv hvas
  have ev := unmapFree_spec inv hl (hvas va mem_cons_self)
  have ev' := ih _ ev.inv (forall_mem_cons.1 hvas).2
  refine (ev.toKeeps.evolves ev').congr fun r f ht => ?_
  rw [ev.pages r f ht]
  simp only [Pages.clear, mem_cons, forall_eq_or_imp]
  tauto

/-- What `mapPages` does to the pages: outside the lists nothing; after a failure nothing new is
    mapped and the pages of `done` are not; after a success every page of the list is a user page. -/
theorem mapPages_spec (replace : Bool) (todo : List Nat) :
    ∀ (m : Mm) (done : List Nat), Inv m live → (∀ va ∈ done, va < 4294967296) →
      (∀ va ∈ todo, va < 4294967296) →
      Keeps m (mapPages l replace m done todo).2 live ∧
      (∀ r f, r.isTable = false → (∀ va ∈ done ++ todo, r ≠ pageRef l va) →
        ((mapPages l replace m done todo).2.holds live r f ↔ m.holds live r f)) ∧
      ((mapPages l replace m done todo).1 = false → ∀ r f, r.isTable = false →
        (mapPages l replace m done todo).2.holds live r f →
          (∀ va ∈ done, r ≠ pageRef l va) ∧ m.holds live r f) ∧
      ((mapPages l replace m done todo).1 = true → ∀ va ∈ todo, userVaMin ≤ va ∧ va < userVaMax) := by
  induction todo with
  | nil =>
    intro m done inv _ _
    exact ⟨.refl inv, fun _ _ _ _ => Iff.rfl, fun h => absurd h (by simp [mapPages]),
      fun _ va hva => absurd hva (by simp)⟩
  | cons va todo ih => ?_
  intro m done inv hdone htodo
  have hva := htodo va mem_cons_self
  -- the state in which the fresh frame is mapped: with `replace`, `va` is free there
  have hpre : ∃ m0, (if replace then unmapFree m l va else m) = m0 ∧ Keeps m m0 live ∧
      (∀ r f, r.isTable = false → m0.holds live r f → m.holds live r f) ∧
      (∀ r f, r.isTable = false → r ≠ pageRef l va → (m0.holds live r f ↔ m.holds live r f)) := by
    refine ⟨_, rfl, ?_⟩
    split
    · have ev := unmapFree_spec inv hl hva
      refine ⟨ev.toKeeps, fun r f ht h => ((ev.pages r f ht).1 h).2, fun r f ht hr => ?_⟩
      rw [ev.pages r f ht]
      simp [Pages.clear, hr]
    exact ⟨.refl inv, fun _ _ _ h => h, fun _ _ _ _ => Iff.rfl⟩
  obtain ⟨m0, hm0, k0, hsub0, hiff0⟩ := hpre
  simp only [mapPages, hm0]
  rcases mapFresh_cases va k0.inv hl with ⟨hno, ev⟩ | ⟨hyes, hlo, hhi, g, ev⟩
  · rw [hno]
    simp only [Bool.false_eq_true, if_false]
    have evu := unmapList_spec hl done (mapFresh m0 l va).2 ev.inv hdone
    have hback : ∀ r f, r.isTable = false → ((unmapList (mapFresh m0 l va).2 l done).holds live r f ↔
          (∀ v ∈ done, r ≠ pageRef l v) ∧ m0.holds live r f) := fun r f ht => by
      rw [evu.pages r f ht, ev.pages r f ht]
    refine ⟨k0.trans (ev.toKeeps.trans evu.toKeeps), fun r f ht hr => ?_,
      fun _ r f ht h => ((hback r f ht).1 h).imp_right (hsub0 r f ht), nofun⟩
    rw [hback r f ht, hiff0 r f ht (hr va (by simp))]
    exact and_iff_right fun v hv => hr v (by simp [hv])
  rw [hyes, if_pos rfl]
  obtain ⟨k1, hiff1, hfail1, hok1⟩ := ih (mapFresh m0 l va).2 (done ++ [va]) ev.inv (fun v hv => by
      rcases mem_append.1 hv with hv | hv
      · exact hdone v hv
      simp only [mem_singleton] at hv
      subst hv
      exact hva)
    (forall_mem_cons.1 htodo).2
  have hset : ∀ r f, r.isTable = false → r ≠ pageRef l va →
      ((mapFresh m0 l va).2.holds live r f ↔ m.holds live r f) := fun r f ht hr => by
    rw [ev.pages r f ht, ← hiff0 r f ht hr]
    simp [Pages.set, hr]
  refine ⟨k0.trans (ev.toKeeps.trans k1), fun r f ht hr => ?_, fun hf r f ht h => ?_, fun hok v hv => ?_⟩
  · rw [hiff1 r f ht (by simpa using hr)]
    exact hset r f ht (hr va (by simp))
  · -- a later failure undid `va` with the rest of `done`
    obtain ⟨hnot, hold⟩ := hfail1 hf r f ht h
    exact ⟨fun v hv => hnot v (by simp [hv]), (hset r f ht (hnot va (by simp))).1 hold⟩
  rcases mem_cons.1 hv with rfl | hv
  · exact ⟨hlo, hhi⟩
  exact hok1 hok v hv

omit hl in
/-- The pages of `l` that a list of addresses names. -/
def inPages (l : Nat) (vas : List Nat) (i k : Nat) : Prop := ∃ va ∈ vas, pageRef l va = .page l i k

theorem unmapList_adds (vas : List Nat) (inv : Inv m live)
    (hvas : ∀ va ∈ vas, va < 4294967296) : Adds m (unmapList m l vas) live l S := by
  have ev := unmapList_spec hl vas m inv hvas
  refine ⟨ev.toKeeps, fun r f ht hr => ?_, fun i k f hf => .inl ((ev.pages _ f rfl).1 hf).2⟩
  rw [ev.pages r f ht]
  refine and_iff_right fun va _ => ?_
  rintro rfl
  exact hr rfl

section

variable (replace : Bool) (todo : List Nat) (inv : Inv m live) (htodo : ∀ va ∈ todo, va < 4294967296)
include inv htodo

theorem mapPages_adds : Adds m (mapPages l replace m [] todo).2 live l (inPages l todo) := by
  obtain ⟨hk, hiff, _, _⟩ := mapPages_spec hl replace todo m [] inv (by simp) htodo
  refine ⟨hk, fun r f ht hr => hiff r f ht fun va _ => ?_, fun i k f hf => ?_⟩
  · rintro rfl
    exact hr rfl
  by_cases hin : inPages l todo i k
  · exact .inr hin
  exact .inl ((hiff _ f rfl fun va hva h => hin ⟨va, by simpa using hva, h.symm⟩).1 hf)

theorem mapPages_fail_adds (hf : (mapPages l replace m [] todo).1 = false) :
    Adds m (mapPages l replace m [] todo).2 live l S := by
  obtain ⟨hk, hiff, hfail, _⟩ := mapPages_spec hl replace todo m [] inv (by simp) htodo
  refine ⟨hk, fun r f ht hr => hiff r f ht fun va _ => ?_, fun i k f h => .inl (hfail hf _ f rfl h).2⟩
  rintro rfl
  exact hr rfl

end

end Steps

/-! ## Creating an address space -/

section Create

variable {m m' : Mm} {live : Set Nat}

/-- In a table without coarse entries only the table's own frames are held. -/
theorem holds_insert_iff (live : Set Nat) (hnc : ∀ i < 4096, l1IsCoarse (m.l1Entry l i) = false)
    (r : Ref) (f : Nat) :
    m.holds (insert l live) r f ↔ (∃ k, k < 4 ∧ r = .l1 l k ∧ f = l / 4096 + k) ∨ m.holds live r f := by
  have hrest : ∀ l' i (P : Prop), (l' = l ∨ l' ∈ live) ∧ i < 4096 ∧ l1IsCoarse (m.l1Entry l' i) = true ∧ P ↔
        l' ∈ live ∧ i < 4096 ∧ l1IsCoarse (m.l1Entry l' i) = true ∧ P := by
    refine fun l' i P => ⟨?_, fun ⟨hl', h⟩ => ⟨.inr hl', h⟩⟩
    rintro ⟨rfl | hl', hi, hc, h⟩
    · simp [hnc i hi] at hc
    exact ⟨hl', hi, hc, h⟩
  cases r with
  | ker k => simp [Mm.holds]
  | l1 l' k =>
    simp only [Mm.holds, Set.mem_insert_iff, Ref.l1.injEq]
    constructor
    · rintro ⟨rfl | hl', hk, rfl⟩
      · exact .inl ⟨k, hk, ⟨rfl, rfl⟩, rfl⟩
      exact .inr ⟨hl', hk, rfl⟩
    rintro (⟨k', hk, ⟨rfl, rfl⟩, rfl⟩ | ⟨hl', hk, rfl⟩)
    · exact ⟨.inl rfl, hk, rfl⟩
    exact ⟨.inr hl', hk, rfl⟩
  | l2 l' i | page l' i k => exact (hrest l' i _).trans (by simp [Mm.holds])

/-- `vm_create`: it fails without effect, or there is one more live address space, without user
    pages. -/
theorem vmCreate_cases (inv : Inv m live) : ((vmCreate m).1 = 0 ∧ (vmCreate m).2 = m) ∨
    ((vmCreate m).1 ≠ 0 ∧ (vmCreate m).1 ∉ live ∧ Inv (vmCreate m).2 (insert (vmCreate m).1 live) ∧
      (∀ r f, r.isTable = false →
        ((vmCreate m).2.holds (insert (vmCreate m).1 live) r f ↔ m.holds live r f)) ∧
      (∀ f, m.loose live f → (vmCreate m).2.loose (insert (vmCreate m).1 live) f)) := by
  unfold vmCreate
  rcases pmmAllocAligned_cases m 4 16384 inv.pmm with ⟨h0, hm⟩ | ⟨a, hal⟩
  · rw [if_pos h0]
    exact .inl ⟨rfl, hm⟩
  have hpos := a.pos
  rw [if_neg (by omega)]
  generalize pmmAllocAligned m 4 16384 = p at a hal hpos
  obtain ⟨l, m1⟩ := p
  have inv1 : Inv m1 live := a.inv inv
  have hloose : ∀ k < 4, m1.loose live (l / 4096 + k) := fun k hk => a.loose inv (by omega) (by omega)
  have hnl : l ∉ live := fun hl => (hloose 0 (by omega)).2 (.l1 l 0) ⟨hl, by omega, rfl⟩
  -- the copy fills the four fresh frames only
  have hagree : TablesAgree m1 { m1 with mem := m1.mem.copy l m1.kerL1 16384 } live := by
    refine ⟨rfl, fun r f _ hr x hx => copy_of_not_mem ?_⟩
    rintro ⟨h1, h2⟩
    have hk : f = l / 4096 + (f - l / 4096) := by omega
    rw [hk] at hr
    exact (hloose (f - l / 4096) (by omega)).2 r hr
  have inv2 : Inv { m1 with mem := m1.mem.copy l m1.kerL1 16384 } live :=
    inv1.frame hagree inv1.pmm inv1.owns.alloc
  have hnc : ∀ i < 4096,
      l1IsCoarse (Mm.l1Entry { m1 with mem := m1.mem.copy l m1.kerL1 16384 } l i) = false := by
    intro i hi
    have he : Mm.l1Entry { m1 with mem := m1.mem.copy l m1.kerL1 16384 } l i
        = m1.l1Entry m1.kerL1 i := r32_copy_of_mem (by omega)
    rw [he]
    exact inv1.kerSections i hi
  have hiff := holds_insert_iff live hnc
  have hiff2 := hagree.holds_iff inv1
  refine .inr ⟨by omega, hnl, ⟨inv2.pmm, inv2.kerAligned, inv2.kerSections, ?_, ?_, ?_⟩, ?_, ?_⟩
  · intro l' hl'
    rcases Set.mem_insert_iff.1 hl' with rfl | hl'
    · exact hal
    exact inv2.l1Aligned l' hl'
  · intro l' hl' i hi hc
    rcases Set.mem_insert_iff.1 hl' with rfl | hl'
    · rw [hnc i hi] at hc
      simp at hc
    exact inv2.l2Aligned l' hl' i hi hc
  · refine inv2.owns.extend (fun r f => ∃ k, k < 4 ∧ r = .l1 l k ∧ f = l / 4096 + k)
      (fun r f hn => ?_) (fun r r' f hn hn' => ?_)
      (fun r f => (hiff r f).1) (fun f hf => hf)
    · obtain ⟨k, hk, _, rfl⟩ := hn
      exact ⟨(hloose k hk).1, fun r' hr' => (hloose k hk).2 r' ((hiff2 r' _).1 hr')⟩
    obtain ⟨k, _, rfl, hf⟩ := hn
    obtain ⟨k', _, rfl, hf'⟩ := hn'
    rw [show k = k' by omega]
  · intro r f ht
    rw [hiff r f, hiff2 r f, (a.tablesAgree inv).holds_iff inv r f]
    constructor
    · rintro (⟨k, _, rfl, _⟩ | h)
      · simp [Ref.isTable] at ht
      exact h
    exact .inr
  intro f hf
  refine ⟨(a.used f).2 (.inl hf.1), fun r hr => ?_⟩
  rcases (hiff r f).1 hr with ⟨k, hk, _, rfl⟩ | hr
  · exact a.fresh _ (by omega) (by omega) hf.1
  exact (a.loose_of_loose inv hf).2 r ((hiff2 r f).1 hr)

end Create

/-! ## Destroying an address space -/

section Destroy

variable {m m' : Mm} {live : Set Nat}

theorem holds_diff_iff (l : Nat) (r : Ref) (f : Nat) :
    m.holds (live \ {l}) r f ↔ r.space ≠ some l ∧ m.holds live r f := by
  cases r with
  | ker k => simp [Mm.holds, Ref.space]
  | l1 l' k | l2 l' i => simp only [Mm.holds, Ref.space, Set.mem_sdiff, Set.mem_singleton_iff]; simp; tauto
  | page l' i k => simp only [Mm.holds, Ref.space, Set.mem_sdiff, Set.mem_singleton_iff]; simp; tauto

theorem Inv.diff (inv : Inv m live) (l : Nat) : Inv m (live \ {l}) :=
  ⟨inv.pmm, inv.kerAligned, inv.kerSections, fun l' hl' => inv.l1Aligned l' hl'.1,
    fun l' hl' => inv.l2Aligned l' hl'.1,
    inv.owns.mono (fun r f h => ((holds_diff_iff l r f).1 h).2)
      (fun r f h => inv.owns.alloc r f ((holds_diff_iff l r f).1 h).2)⟩

/-- The state of a half-destroyed address space `l`: memory changed in `l`'s own L1 table only, and
    the frames of the other address spaces are still used. -/
structure Destroying (m : Mm) (live : Set Nat) (l : Nat) (m' : Mm) : Prop where
  pmm : PmmOk m'.pmm
  kerL1 : m'.kerL1 = m.kerL1
  mem : ∀ x, ¬ (l ≤ x ∧ x < l + 16384) → m'.mem x = m.mem x
  used : ∀ f, m.used f → (∀ r, r.space = some l → ¬ m.holds live r f) → m'.used f

variable {l : Nat}

theorem Destroying.tablesAgree (d : Destroying m live l m') (inv : Inv m live) (hl : l ∈ live) :
    TablesAgree m m' (live \ {l}) := by
  refine ⟨d.kerL1, fun r f _ hr x hx => d.mem x ?_⟩
  rintro ⟨h1, h2⟩
  have hal := inv.l1Aligned l hl
  obtain ⟨hsp, hr⟩ := (holds_diff_iff l r f).1 hr
  have := inv.owns.uniq r (.l1 l (f - l / 4096)) f hr ⟨hl, by omega, by omega⟩
  rw [this] at hsp
  exact hsp rfl

theorem Destroying.free (d : Destroying m live l m') (pa : Nat) {r : Ref}
    (hr : m.holds live r (pa / 4096)) (hsp : r.space = some l) :
    Destroying m live l (pmmFreePage m' pa) := by
  have hf := pmmFreePage_spec m' pa d.pmm
  refine ⟨hf.pmmOk, hf.kerL1.trans d.kerL1, fun x hx => by rw [hf.mem]; exact d.mem x hx, ?_⟩
  intro f hu hno
  refine (hf.used f).2 ⟨d.used f hu hno, ?_⟩
  rintro rfl
  exact hno r hsp hr

theorem pmmFreePage_mem (m : Mm) (pa : Nat) : (pmmFreePage m pa).mem = m.mem := by
  simp only [pmmFreePage]
  split
  · rfl
  split <;> rfl

theorem freeL2Pages_mem (t : Nat) : ∀ (n k : Nat) (m : Mm), (freeL2Pages m t n k).mem = m.mem := by
  intro n
  induction n with
  | zero => intro k m; rfl
  | succ n ih => ?_
  intro k m
  simp only [freeL2Pages, ih]
  split
  · exact pmmFreePage_mem m _
  rfl

theorem freeL2Pages_destroying (inv : Inv m live) (hl : l ∈ live) (hi : i < 4096)
    (hc : l1IsCoarse (m.l1Entry l i) = true) :
    ∀ (n k : Nat) (m' : Mm), k + n ≤ 256 → Destroying m live l m' →
      Destroying m live l (freeL2Pages m' (m.l2Base l i) n k) := by
  intro n
  induction n with
  | zero => intro k m' _ d; exact d
  | succ n ih => ?_
  intro k m' hk d
  -- the L2 table itself is untouched while its pages go
  have he : m'.l2Entry (m.l2Base l i) k = m.l2Entry (m.l2Base l i) k := by
    refine r32_congr fun j hj => d.mem _ ?_
    rintro ⟨h1, h2⟩
    have hal := inv.l1Aligned l hl
    have hal2 := (inv.l2Aligned l hl i hi hc).2
    have := inv.owns.uniq (.l2 l i) (.l1 l (m.l2Base l i / 4096 - l / 4096)) _
      ⟨hl, hi, hc, rfl⟩ ⟨hl, by omega, by omega⟩
    simp at this
  simp only [freeL2Pages, he]
  refine ih (k + 1) _ (by omega) ?_
  split
  · next hv =>
    refine d.free _ (r := .page l i k) ?_ rfl
    exact ⟨hl, hi, hc, by omega, hv, by simp only [l2SmallBase, pageDown]; omega⟩
  exact d

theorem freeL1Slots_destroying (inv : Inv m live) (hl : l ∈ live) :
    ∀ (n i : Nat) (m' : Mm), i + n ≤ 1024 → Destroying m live l m' →
      (∀ i', i ≤ i' → i' < 4096 → m'.l1Entry l i' = m.l1Entry l i') →
      Destroying m live l (freeL1Slots m' l n i) := by
  intro n
  induction n with
  | zero => intro i m' _ d _; exact d
  | succ n ih => ?_
  intro i m' hi d hent
  have he := hent i (by omega) (by omega)
  simp only [freeL1Slots, he]
  split
  · next hc =>
    have d1 := freeL2Pages_destroying inv hl (by omega) hc 256 0 m' (by omega) d
    have d2 := d1.free (m.l2Base l i) (r := .l2 l i) ⟨hl, by omega, hc, rfl⟩ rfl
    have hmem : (pmmFreePage (freeL2Pages m' (m.l2Base l i) 256 0) (m.l2Base l i)).mem
        = m'.mem := by rw [pmmFreePage_mem, freeL2Pages_mem]
    rw [show l1CoarseL2Base (m.l1Entry l i) = m.l2Base l i from rfl]
    generalize pmmFreePage (freeL2Pages m' (m.l2Base l i) 256 0) (m.l2Base l i) = m2 at d2 hmem ⊢
    refine ih (i + 1) _ (by omega) ⟨d2.pmm, d2.kerL1, ?_, d2.used⟩ ?_
    · intro x hx
      rw [← d2.mem x hx]
      exact w32_of_ne (by omega)
    intro i' hi' hi4
    rw [← hent i' (by omega) hi4]
    refine (r32_w32_of_ne (by omega)).trans ?_
    rw [hmem]
    rfl
  exact ih (i + 1) m' (by omega) d fun i' hi' => hent i' (by omega)

theorem freeFrames_destroying (hl : l ∈ live) :
    ∀ (n k : Nat) (m' : Mm), k + n ≤ 4 → Destroying m live l m' →
      Destroying m live l (freeFrames m' l n k) := by
  intro n
  induction n with
  | zero => intro k m' _ d; exact d
  | succ n ih => ?_
  intro k m' hk d
  have hdiv : (l + k * 4096) / 4096 = l / 4096 + k := by omega
  exact ih (k + 1) _ (by omega) (d.free _ (r := .l1 l k) ⟨hl, by omega, hdiv⟩ rfl)

/-- `vm_destroy`: the other live address spaces keep the invariant and all they hold, and only
    frames of `l` are given back. -/
theorem vmDestroy_spec (inv : Inv m live) (hl : l ∈ live) : Inv (vmDestroy m l) (live \ {l}) ∧
    (∀ r f, (vmDestroy m l).holds (live \ {l}) r f ↔ m.holds (live \ {l}) r f) ∧
    (∀ f, m.loose live f → (vmDestroy m l).loose (live \ {l}) f) := by
  have d0 : Destroying m live l m := ⟨inv.pmm, rfl, fun _ _ => rfl, fun f hu _ => hu⟩
  have d1 := freeL1Slots_destroying inv hl 1024 0 m (by omega) d0 fun _ _ _ => rfl
  have d := freeFrames_destroying hl 4 0 _ (by omega) d1
  have hagree : TablesAgree m (vmDestroy m l) (live \ {l}) := d.tablesAgree inv hl
  have hiff := hagree.holds_iff (inv.diff l)
  refine ⟨(inv.diff l).frame hagree d.pmm fun r f hr => ?_, hiff, fun f hf => ⟨?_, fun r hr => ?_⟩⟩
  · obtain ⟨hsp, hr⟩ := (holds_diff_iff l r f).1 hr
    refine d.used f (inv.owns.alloc r f hr) fun r' hsp' hr' => hsp ?_
    rw [inv.owns.uniq r r' f hr hr']
    exact hsp'
  · exact d.used f hf.1 fun r _ hr => hf.2 r hr
  exact hf.2 r ((holds_diff_iff l r f).1 ((hiff r f).1 hr)).2

end Destroy

/-! ## Copying an address space -/

section Copy

variable {m m' m2 : Mm} {live : Set Nat} {dst src : Nat}

theorem pageRef_slot (hk : k < 256) : pageRef l (i * 1048576 + k * 4096) = .page l i k := by
  simp only [pageRef, l1Index, l2Index, Ref.page.injEq, true_and]
  omega

theorem vmMapPage_bytes (inv : Inv m live) (hl : l ∈ live) (va pa : Nat) :
    (∀ f, m.used f → (vmMapPage m l va pa).2.used f) ∧
    ∀ x, m.used (x / 4096) → (∀ r, r.isTable = true → ¬ m.holds live r (x / 4096)) →
      (vmMapPage m l va pa).2.mem x = m.mem x := by
  unfold vmMapPage
  split
  · exact ⟨fun _ h => h, fun _ _ _ => rfl⟩
  have hi : l1Index va < 1024 := by simp only [l1Index, userVaMin, userVaMax] at *; omega
  have hal := inv.l1Aligned l hl
  have hk := l2Index_lt va
  unfold l2For
  by_cases hc : l1IsCoarse (m.l1Entry l (l1Index va)) = true
  · have hb := (inv.l2Aligned l hl _ (by omega) hc).2
    simp only [Mm.l2Base] at hb
    simp only [if_pos hc]
    split
    · exact ⟨fun _ h => h, fun _ _ _ => rfl⟩
    refine ⟨fun _ h => h, fun x _ ht => w32_of_ne ?_⟩
    by_contra hx
    exact ht (.l2 l (l1Index va)) rfl ⟨hl, by omega, hc, by simp only [Mm.l2Base]; omega⟩
  simp only [if_neg hc, Bool.not_true, Bool.false_eq_true, if_false]
  rcases pmmAllocAligned_cases m 1 1024 inv.pmm with ⟨h0, hm⟩ | ⟨a, _⟩
  · simp only [if_pos h0, hm]
    exact ⟨fun _ h => h, fun _ _ _ => rfl⟩
  have hpos := a.pos
  have hta := a.aligned
  simp only [if_neg (Nat.ne_of_gt hpos)]
  refine ⟨fun f hf => (a.used f).2 (.inl hf), fun x hu ht => ?_⟩
  have hx : x / 4096 ≠ (pmmAllocAligned m 1 1024).1 / 4096 := fun he =>
    a.fresh _ (by omega) (by omega) hu
  have hx1 : x / 4096 ≠ l / 4096 := fun he => ht (.l1 l 0) rfl ⟨hl, by omega, he⟩
  rw [w32_of_ne (by omega), w32_of_ne (by omega),
    zero_of_not_mem (by omega), a.mem, zero_of_not_mem (by omega)]

/-- One page of the inner loop: a fresh frame with the contents of `pa`, mapped in `dst`. -/
theorem copyPage_spec (inv : Inv m live) (hd : dst ∈ live) (pa : Nat) (hk : k < 256)
    (a : AllocSpec m 1 (pmmAllocPage m).1 (pmmAllocPage m).2) {r : Int × Mm}
    (hr : r = vmMapPage ⟨(pmmAllocPage m).2.mem.copy (pmmAllocPage m).1 pa 4096,
      (pmmAllocPage m).2.pmm, (pmmAllocPage m).2.kerL1⟩ dst (i * 1048576 + k * 4096)
      (pmmAllocPage m).1) :
    Evolves m r.2 live (if r.1 = 0 then
      Pages.set (m.holds live) (.page dst i k) ((pmmAllocPage m).1 / 4096) else m.holds live) ∧
    (∀ f, m.used f → r.2.used f) ∧
    (∀ ref x, ref.isTable = false → m.holds live ref (x / 4096) → r.2.mem x = m.mem x) ∧
    (pa % 4096 = 0 → m.used (pa / 4096) →
      ∀ o < 4096, r.2.mem ((pmmAllocPage m).1 / 4096 * 4096 + o) = m.mem (pa + o)) := by
  subst hr
  generalize pmmAllocPage m = p at a ⊢
  obtain ⟨np, m1⟩ := p
  simp only at a ⊢
  have hal := a.aligned
  have hfits := a.fits
  have inv1 : Inv m1 live := a.inv inv
  have hloose : m1.loose live (np / 4096) := a.loose inv (by omega) (by omega)
  have hagree : TablesAgree m1 { m1 with mem := m1.mem.copy np pa 4096 } live :=
    tablesAgree_of_write (fun r _ => hloose.2 r) (fun x hx => copy_of_not_mem (by omega))
  have inv2 : Inv { m1 with mem := m1.mem.copy np pa 4096 } live := inv1.frame hagree inv1.pmm inv1.owns.alloc
  have hsame : ∀ r f, Mm.holds { m1 with mem := m1.mem.copy np pa 4096 } live r f ↔
      m.holds live r f := fun r f => by
    rw [hagree.holds_iff inv1 r f, (a.tablesAgree inv).holds_iff inv r f]
  have hloose2 : Mm.loose { m1 with mem := m1.mem.copy np pa 4096 } live (np / 4096) :=
    ⟨hloose.1, fun r h => hloose.2 r ((hagree.holds_iff inv1 r _).1 h)⟩
  have hnew : ¬ m.used (np / 4096) := a.fresh _ (by omega) (by omega)
  have ev : Evolves m { m1 with mem := m1.mem.copy np pa 4096 } live (m.holds live) :=
    ⟨⟨inv2, fun r f _ h => (hsame r f).2 h,
      fun f hf => ⟨(a.used f).2 (.inl hf.1), fun r h => hf.2 r ((hsame r f).1 h)⟩⟩,
      fun r f _ => hsame r f⟩
  have hb := vmMapPage_bytes inv2 hd (i * 1048576 + k * 4096) np
  refine ⟨?_, fun f hf => hb.1 f ((a.used f).2 (.inl hf)), fun ref x href hx => ?_, fun hpa hu o ho => ?_⟩
  · rcases vmMapPage_cases (i * 1048576 + k * 4096) inv2 hd hal (by omega) hloose2 with
      ⟨hne, hm⟩ | ⟨h0, _, _, hmaps⟩
    · rw [if_neg hne, hm]
      exact ev
    rw [pageRef_slot hk] at hmaps
    rw [if_pos h0]
    exact ev.maps hmaps hnew
  · have hu := inv.owns.alloc _ _ hx
    have hxn : x / 4096 ≠ np / 4096 := fun he => hnew (he ▸ hu)
    rw [hb.2 x ((a.used _).2 (.inl hu)) fun r ht h => ?_]
    · simp only [copy_of_not_mem (show ¬ (np ≤ x ∧ x < np + 4096) by omega), a.mem,
        zero_of_not_mem (show ¬ (np ≤ x ∧ x < np + 1 * 4096) by omega)]
    rw [inv.owns.uniq _ _ _ ((hsame r _).1 h) hx, href] at ht
    simp at ht
  have hn : (np / 4096 * 4096 + o) / 4096 = np / 4096 := by omega
  have hpn : pa / 4096 ≠ np / 4096 := fun he => hnew (he ▸ hu)
  rw [hb.2 _ (by rw [hn]; exact hloose.1) fun r _ => by rw [hn]; exact hloose2.2 r]
  simp only [copy, a.mem]
  rw [if_pos (by omega), zero_of_not_mem (by omega)]
  congr 1
  omega

/-- The pages of `src` in `m`. -/
def pagesOf (m : Mm) (live : Set Nat) (src i k : Nat) : Prop :=
  ∃ g, m.holds live (.page src i k) g

/-- The state of a copy from `m`: every page of `dst` has the bytes of the page of `src`. -/
structure Copied (m m' : Mm) (live : Set Nat) (dst src : Nat) : Prop
    extends Adds m m' live dst (pagesOf m live src) where
  empty : ∀ i k f, ¬ m.holds live (.page dst i k) f
  used : ∀ f, m.used f → m'.used f
  bytes : ∀ r x, r.isTable = false → m.holds live r (x / 4096) → m'.mem x = m.mem x
  copies : ∀ i k f, m'.holds live (.page dst i k) f → ¬ m.used f ∧
    ∃ g, m.holds live (.page src i k) g ∧
      ∀ o < 4096, m'.mem (f * 4096 + o) = m.mem (g * 4096 + o)

/-- The pages that were mapped before stay, as none of them belongs to `dst`. -/
theorem Copied.page_iff (h : Copied m m' live dst src) (hl : l ≠ dst) :
    m'.holds live (.page l i k) f ↔ m.holds live (.page l i k) f :=
  h.other _ _ rfl (by simpa [Ref.space] using hl)

theorem Copied.step (h : Copied m m' live dst src)
    (ha : Adds m' m2 live dst (pagesOf m live src)) (hu : ∀ f, m'.used f → m2.used f)
    (hb : ∀ r x, r.isTable = false → m'.holds live r (x / 4096) → m2.mem x = m'.mem x)
    (hc : ∀ i k f, m2.holds live (.page dst i k) f → m'.holds live (.page dst i k) f ∨
      (¬ m'.used f ∧ ∃ g, m.holds live (.page src i k) g ∧
        ∀ o < 4096, m2.mem (f * 4096 + o) = m'.mem (g * 4096 + o))) :
    Copied m m2 live dst src := by
  refine ⟨h.toAdds.trans ha, h.empty, fun f hf => hu f (h.used f hf), fun r x hr hx => ?_, fun i k f hf => ?_⟩
  · cases r with
    | page l i k =>
      have hl : l ≠ dst := by rintro rfl; exact h.empty _ _ _ hx
      rw [hb _ x hr ((h.page_iff hl).2 hx), h.bytes _ x hr hx]
    | ker | l1 | l2 => simp [Ref.isTable] at hr
  rcases hc i k f hf with hold | ⟨hnew, g, hg, hbytes⟩
  · obtain ⟨hfresh, g, hg, hbytes⟩ := h.copies i k f hold
    refine ⟨hfresh, g, hg, fun o ho => ?_⟩
    have hf' : (f * 4096 + o) / 4096 = f := by omega
    rw [hb _ _ rfl (by rw [hf']; exact hold), hbytes o ho]
  refine ⟨fun hf => hnew (h.used f hf), g, hg, fun o ho => ?_⟩
  have hg' : (g * 4096 + o) / 4096 = g := by omega
  rw [hbytes o ho, h.bytes _ _ rfl (by rw [hg']; exact hg)]

/-- The inner loop; when it returns 0, the pages of slot `i` from entry `k` on are copied. -/
theorem copyL2Pages_copied (hd : dst ∈ live) (hs : src ∈ live) (hne : dst ≠ src) {t : Nat} (hi : i < 4096) :
    ∀ (n k : Nat) (m' : Mm), k + n ≤ 256 → Copied m m' live dst src →
      l1IsCoarse (m'.l1Entry src i) = true → m'.l2Base src i = t →
      Copied m (copyL2Pages m' dst t i n k).2 live dst src ∧
      ((copyL2Pages m' dst t i n k).1 = 0 → ∀ i' j, pagesOf m' live dst i' j ∨
          (i' = i ∧ k ≤ j ∧ j < k + n ∧ pagesOf m live src i j) →
        pagesOf (copyL2Pages m' dst t i n k).2 live dst i' j) := by
  intro n
  induction n with
  | zero =>
    intro k m' _ h _ _
    exact ⟨h, fun _ i' j hp => hp.elim id fun hp => by omega⟩
  | succ n ih => ?_
  intro k m' hk h hc hbase
  simp only [copyL2Pages]
  split
  · next hv =>
    have hsrc' : m'.holds live (.page src i k) (m'.l2Entry t k / 4096) :=
      ⟨hs, hi, hc, by omega, by rw [hbase]; exact hv, by rw [hbase]⟩
    have hsrc := (h.page_iff hne.symm).1 hsrc'
    rcases pmmAllocPage_cases m' h.inv.pmm with ⟨h0, hm⟩ | a
    · rw [if_pos h0, hm]
      exact ⟨h, by simp⟩
    have hpos := a.pos
    rw [if_neg (by omega)]
    -- as a variable, the pair is compared by its components and not evaluated
    generalize hq : vmMapPage _ _ _ _ = q
    obtain ⟨ev, hu, hb, hcp⟩ := copyPage_spec h.inv hd (l2SmallBase (m'.l2Entry t k)) (by omega) a hq.symm
    obtain ⟨ret, m1⟩ := q
    simp only at ev hu hb hcp ⊢
    have hal : l2SmallBase (m'.l2Entry t k) = m'.l2Entry t k / 4096 * 4096 := rfl
    rw [hal, Nat.mul_div_cancel _ (by omega)] at hcp
    replace hcp := hcp (by omega) (h.inv.owns.alloc _ _ hsrc')
    split
    · next h0 =>
      rw [if_pos h0] at ev
      have hstep : Copied m m1 live dst src := by
        refine h.step (ev.adds_set ⟨_, hsrc⟩) hu hb fun i' k' f hf => ?_
        rcases (ev.pages _ f rfl).1 hf with ⟨he, rfl⟩ | ⟨_, hold⟩
        · simp only [Ref.page.injEq, true_and] at he
          obtain ⟨rfl, rfl⟩ := he
          exact .inr ⟨a.fresh _ (by omega) (by omega), _, hsrc, hcp⟩
        exact .inl hold
      -- the slot of the parent keeps its table
      obtain ⟨_, _, hc', hb'⟩ := ev.tables (.l2 src i) _ rfl ⟨hs, hi, hc, rfl⟩
      have hal1 := (h.inv.l2Aligned src hs i hi hc).2
      have hal₂ := (ev.inv.l2Aligned src hs i hi hc').2
      obtain ⟨hfin, hmap⟩ := ih (k + 1) m1 (by omega) hstep hc' (by omega)
      refine ⟨hfin, fun hr i' j hp => hmap hr i' j ?_⟩
      by_cases he : i' = i ∧ j = k
      · exact .inl ⟨_, (ev.pages _ _ rfl).2 (.inl ⟨by rw [he.1, he.2], rfl⟩)⟩
      refine hp.imp ?_ fun ⟨h₁, h₂, h3, h4⟩ => ⟨h₁, by omega, by omega, h4⟩
      rintro ⟨f, hf⟩
      exact ⟨f, (ev.pages _ _ rfl).2 (.inr ⟨by simpa using he, hf⟩)⟩
    next h0 =>
    rw [if_neg h0] at ev
    exact ⟨h.step (ev.adds dst) hu hb fun _ _ f hf => .inl ((ev.pages _ f rfl).1 hf), by simp⟩
  rename_i hv
  obtain ⟨hfin, hmap⟩ := ih (k + 1) m' (by omega) h hc hbase
  refine ⟨hfin, fun hr i' j hp => hmap hr i' j (hp.imp_right ?_)⟩
  rintro ⟨rfl, hkj, hj, g, hg⟩
  refine ⟨rfl, ?_, by omega, g, hg⟩
  -- the parent has no page at the entry skipped
  by_contra hlt
  obtain rfl : j = k := by omega
  have hv' := ((h.page_iff hne.symm).2 hg).2.2.2.2.1
  rw [hbase] at hv'
  exact hv hv'

theorem copyL1Slots_copied (hd : dst ∈ live) (hs : src ∈ live) (hne : dst ≠ src) :
    ∀ (n i : Nat) (m' : Mm), i + n ≤ 1024 → Copied m m' live dst src →
      Copied m (copyL1Slots m' dst src n i).2 live dst src ∧
      ((copyL1Slots m' dst src n i).1 = 0 →
        ∀ i' j, pagesOf m' live dst i' j ∨ (i ≤ i' ∧ i' < i + n ∧ pagesOf m live src i' j) →
          pagesOf (copyL1Slots m' dst src n i).2 live dst i' j) := by
  intro n
  induction n with
  | zero =>
    intro i m' _ h
    exact ⟨h, fun _ i' j hp => hp.elim id fun hp => by omega⟩
  | succ n ih => ?_
  intro i m' hi h
  simp only [copyL1Slots]
  split
  · next hc =>
    obtain ⟨h₁, hmap1⟩ := copyL2Pages_copied (t := l1CoarseL2Base (m'.l1Entry src i)) hd hs hne
      (by omega) 256 0 m' (by omega) h hc rfl
    generalize copyL2Pages m' dst (l1CoarseL2Base (m'.l1Entry src i)) i 256 0 = q at *
    split
    · next h0 =>
      obtain ⟨hfin, hmap⟩ := ih (i + 1) q.2 (by omega) h₁
      refine ⟨hfin, fun hr i' j hp => hmap hr i' j ?_⟩
      rcases hp with hp | ⟨hii, hi', g, hg⟩
      · exact .inl (hmap1 h0 i' j (.inl hp))
      by_cases he : i' = i
      · subst he
        have hj := hg.2.2.2.1
        exact .inl (hmap1 h0 i' j (.inr ⟨rfl, by omega, by omega, g, hg⟩))
      exact .inr ⟨by omega, by omega, g, hg⟩
    next hf => exact ⟨h₁, fun hr => absurd hr hf⟩
  rename_i hc
  obtain ⟨hfin, hmap⟩ := ih (i + 1) m' (by omega) h
  refine ⟨hfin, fun hr i' j hp => hmap hr i' j (hp.imp_right ?_)⟩
  rintro ⟨hii, hi', g, hg⟩
  refine ⟨?_, by omega, g, hg⟩
  -- no page lies in a slot without a table
  by_contra hlt
  obtain rfl : i' = i := by omega
  exact hc ((h.page_iff hne.symm).2 hg).2.2.1

/-- `vm_copy` into an empty `dst`, whether it succeeds or runs out of memory half way: `dst` gets
    pages only where `src` has one; when it succeeds, all of them. -/
theorem vmCopy_copied (inv : Inv m live) (hd : dst ∈ live) (hs : src ∈ live) (hne : dst ≠ src)
    (hno : ∀ i k f, ¬ m.holds live (.page dst i k) f) :
    Copied m (vmCopy m dst src).2 live dst src ∧ ((vmCopy m dst src).1 = 0 →
      ∀ i j, pagesOf m live src i j → pagesOf (vmCopy m dst src).2 live dst i j) := by
  obtain ⟨h, hmap⟩ := copyL1Slots_copied hd hs hne 1024 0 m (by omega)
    ⟨.refl inv, hno, fun _ h => h, fun _ _ _ _ => rfl, fun i k f hf => absurd hf (hno i k f)⟩
  refine ⟨h, fun h0 i j ⟨g, hg⟩ => hmap h0 i j (.inr ⟨by omega, ?_, g, hg⟩)⟩
  have hi := (inv.l2Aligned src hs i hg.2.1 hg.2.2.1).1
  omega

end Copy

end Embedded.Kernel
