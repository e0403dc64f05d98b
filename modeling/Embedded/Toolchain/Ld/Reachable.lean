import Embedded.Toolchain.Ld.Gc
import Mathlib.Algebra.Order.BigOperators.Group.List
import Mathlib.Algebra.Order.Group.Nat

/-! # What garbage collection keeps (`ld/gc.c`)

`Kept` says what should be kept, from the section headers and the symbols alone: the roots, and what relocations,
section groups and link order lead to from there. `gc_run` marks just that. Marking and `Kept` are compared in both
directions: the loop ends in a closed set, and each step marks only what any closed set has.

What is swept is allocated and not marked. A section that is not allocated is neither followed nor swept, but placed
and relocated all the same, so its relocations may name a section that is gone. -/

namespace Embedded.Toolchain.Ld.Gc

open List Marking

variable {s : Sec} {rs : List Sec}

variable {i k : Nat} {n : Name} {mark : Finset Sec} {t : Sec}

section Reach

variable (p : Input)

/-! ## What should be kept -/

/-- A section of an object that takes part in the link. -/
def Present (s : Sec) : Prop := (objOf p s.1).active = true ∧ inRange p s

/-- Symbol `k` of object `i` is in section `s`. -/
def SymIn (i k : Nat) (s : Sec) : Prop := s = (i, (symOf p i k).shndx) ∧ s.2 ≠ 0 ∧ s.2 < 0xff00

/-- An object defines the global `n` in section `s`. -/
def DefinedIn (n : Name) (s : Sec) : Prop := ∃ k, p.gsymFind n = some ⟨true, some s.1, k⟩ ∧ SymIn p s.1 k s

/-- A relocation that patches section `s` is against symbol `k`. -/
def HasReloc (s : Sec) (k : Nat) : Prop :=
  ∃ r, inRange p (s.1, r) ∧ (secOf p (s.1, r)).type = .rel ∧ (secOf p (s.1, r)).info = s.2 ∧
    k ∈ (secOf p (s.1, r)).syms

/-- Symbol `k` of object `i` is defined in section `t`. -/
def SymbolIn (i k : Nat) (t : Sec) : Prop :=
  0 < k ∧ k < (objOf p i).syms.length ∧
    if (symOf p i k).bind = .loc then SymIn p i k t else DefinedIn p (symOf p i k).name t

/-- The name of a section that `__start_` or `__stop_` stands before: a C identifier. -/
def IsIdent (n : Name) : Prop :=
  n ≠ [] ∧ ¬ (48 ≤ n.headD 0 ∧ n.headD 0 ≤ 57) ∧
    ∀ c ∈ n, c = 95 ∨ (97 ≤ c ∧ c ≤ 122) ∨ (65 ≤ c ∧ c ≤ 90) ∨ (48 ≤ c ∧ c ≤ 57)

/-- Symbol `k` of object `i`, which no object defines, stands for the bounds of the sections called like `t`. -/
structure Bounds (i k : Nat) (t : Sec) : Prop where
  index : 0 < k ∧ k < (objOf p i).syms.length
  global : (symOf p i k).bind ≠ .loc
  undef : ∀ o k', p.gsymFind (symOf p i k).name ≠ some ⟨true, some o, k'⟩
  name : (symOf p i k).name = startText ++ (secOf p t).name ∨ (symOf p i k).name = stopText ++ (secOf p t).name
  ident : IsIdent (secOf p t).name
  sec : Present p t ∧ (objOf p t.1).linker = false ∧ (secOf p t).alloc = true

/-- Symbol `k` of object `i` is part of the exported interface. -/
structure Exported (i k : Nat) : Prop where
  index : 0 < k ∧ k < (objOf p i).syms.length
  bind : (symOf p i k).bind = .global ∨ (symOf p i k).bind = .weak
  named : (symOf p i k).name ≠ []
  visible : (symOf p i k).visDefault = true ∧ p.versionHidden (symOf p i k).name = false ∧
    p.dynExports (symOf p i k).name = true
  /-- It is the definition that the link has taken. -/
  wins : ∃ d, p.gsymFind (symOf p i k).name = some ⟨d, some i, k⟩

/-- The roots: the entry and the other symbols named, the linker's own sections, notes, what is retained or kept by
the script, and what is exported. -/
inductive Root : Sec → Prop
  | symbol {n : Name} {s : Sec} (hn : n ∈ p.entrySym.getD nameStart :: nameInit :: nameFini :: p.gcUndef)
      (hs : DefinedIn p n s) : Root s
  | own {s : Sec} (hs : Present p s) (h : (objOf p s.1).linker = true ∨ (secOf p s).type = .note ∨
      (secOf p s).retain = true ∨ (secOf p s).kept = true) : Root s
  | exported {s : Sec} {k : Nat} (he : p.exports = true) (ha : (objOf p s.1).active = true)
      (hl : (objOf p s.1).linker = false) (hk : Exported p s.1 k) (hs : SymIn p s.1 k s) : Root s

/-- The least set of sections with the roots, closed under relocations, groups and link order. -/
inductive Kept : Sec → Prop
  | root {s : Sec} (h : Root p s) (hr : inRange p s) : Kept s
  | reloc {s t : Sec} {k : Nat} (h : Kept s) (hk : HasReloc p s k) (ht : SymbolIn p s.1 k t ∨ Bounds p s.1 k t)
      (hr : inRange p t) : Kept t
  | group {g : Sec} {a b : Nat} (hg : Present p g) (htype : (secOf p g).type = .group)
      (ha : a ∈ (secOf p g).members) (hb : b ∈ (secOf p g).members) (h : Kept (g.1, a)) (hr : inRange p (g.1, b)) :
      Kept (g.1, b)
  | link {s : Sec} (hs : Present p s) (ho : (secOf p s).linkOrder = true) (h0 : (secOf p s).link ≠ 0)
      (hlt : (secOf p s).link < nsh p s.1) (h : Kept (s.1, (secOf p s).link)) : Kept s

/-- No section that is left has a relocation against a symbol of a section that is swept. -/
def NoDangling (mark : Finset Sec) : Prop :=
  ∀ s, Present p s → swept p mark s = false → ∀ k t, HasReloc p s k → SymbolIn p s.1 k t → swept p mark t = false

variable {p}

/-! ## The sections of the input -/

theorem mem_drop_range {n : Nat} : k ∈ (List.range n).drop 1 ↔ 0 < k ∧ k < n := by
  rw [mem_drop_iff_getElem]
  constructor
  · rintro ⟨j, hj, rfl⟩
    rw [length_range] at hj
    rw [getElem_range]
    omega
  · rintro ⟨h0, hk⟩
    exact ⟨k - 1, by rw [length_range]; omega, by rw [getElem_range]; omega⟩

theorem mem_secsOf : s ∈ secsOf p i ↔ s.1 = i ∧ inRange p s := by
  unfold secsOf inRange
  simp only [mem_map, mem_drop_range, Bool.and_eq_true, decide_eq_true_eq]
  constructor
  · rintro ⟨j, hj, rfl⟩
    exact ⟨rfl, hj⟩
  · rintro ⟨rfl, h⟩
    exact ⟨s.2, h, rfl⟩

theorem lt_of_inRange (h : inRange p s) : s.1 < p.objs.length := by
  by_contra hge
  have hnone : objOf p s.1 = ⟨false, false, [], []⟩ := by
    unfold objOf
    rw [getD_eq_getElem?_getD, getElem?_eq_none (Nat.not_lt.1 hge)]
    rfl
  simp [inRange, nsh, hnone] at h

theorem mem_activeSecs : s ∈ activeSecs p ↔ Present p s := by
  unfold activeSecs Present
  rw [mem_flatMap]
  constructor
  · rintro ⟨i, hi, hs⟩
    split at hs
    next ha =>
      obtain ⟨rfl, hr⟩ := mem_secsOf.1 hs
      exact ⟨ha, hr⟩
    · cases hs
  rintro ⟨ha, hr⟩
  refine ⟨s.1, mem_range.2 (lt_of_inRange hr), ?_⟩
  rw [if_pos ha]
  exact mem_secsOf.2 ⟨rfl, hr⟩

/-- All sections. -/
def allSecs (p : Input) : Finset Sec := ((List.range p.objs.length).flatMap (secsOf p)).toFinset

theorem mem_allSecs (h : inRange p s) : s ∈ allSecs p :=
  mem_toFinset.2 (mem_flatMap.2 ⟨s.1, mem_range.2 (lt_of_inRange h), mem_secsOf.2 ⟨rfl, h⟩⟩)

theorem card_allSecs_le : (allSecs p).card ≤ nsecs p := by
  calc (allSecs p).card ≤ ((range p.objs.length).flatMap (secsOf p)).length := toFinset_card_le _
    _ = ((range p.objs.length).map fun i => (secsOf p i).length).sum := length_flatMap
    _ ≤ nsecs p := by
      refine sum_le_sum fun i _ => ?_
      simp [secsOf]

/-! ## The pass over linked sections -/

/-- A set that has every section linked to one of its own. -/
def LinkClosed (p : Input) (M : Set Sec) : Prop :=
  ∀ s, Present p s → (secOf p s).linkOrder = true → (secOf p s).link ≠ 0 →
    (secOf p s).link < nsh p s.1 → (s.1, (secOf p s).link) ∈ M → s ∈ M

theorem linkMarked_iff : linkMarked p mark s = true ↔
    (secOf p s).linkOrder = true ∧ (secOf p s).link ≠ 0 ∧ (secOf p s).link < nsh p s.1 ∧
      (s.1, (secOf p s).link) ∈ mark := by simp [linkMarked, and_assoc]

/-- What the pass does: it marks sections whose linked-to section is marked, and says whether it did. -/
structure Passed (p : Input) (l : List Sec) (st : Marking Sec) (more : Bool)
    (r : Marking Sec × Bool) : Prop where
  openAfter : Marking.Open (inRange p) (follow p) st → Marking.Open (inRange p) (follow p) r.1
  todo : Marking.todo (allSecs p) r.1 = Marking.todo (allSecs p) st
  sub : st.mark ⊆ r.1.mark
  least : ∀ M : Set Sec, LinkClosed p M → (∀ s ∈ st.mark, s ∈ M) → ∀ s ∈ r.1.mark, s ∈ M
  settled : r.2 = false → more = false ∧ r.1 = st ∧ ∀ s ∈ l, linkMarked p st.mark s → s ∈ st.mark
  grew : r.2 = true → more = true ∨ ∃ s ∈ r.1.mark, inRange p s ∧ s ∉ st.mark

theorem linkPass_passed {l : List Sec} (hl : ∀ s ∈ l, s ∈ activeSecs p) (st : Marking Sec) (more : Bool) :
    Passed p l st more (linkPass p l st more) := by
  induction l generalizing st more with
  | nil => exact ⟨id, rfl, subset_rfl, fun _ _ h => h, fun h => ⟨h, rfl, by simp⟩, .inl⟩
  | cons s rest ih => ?_
  have hrest : ∀ t ∈ rest, t ∈ activeSecs p := (forall_mem_cons.1 hl).2
  have hs : Present p s := mem_activeSecs.1 (hl s mem_cons_self)
  have hrange : inRange p s = true := hs.2
  rw [linkPass]
  split
  next h =>
    have hp := ih hrest (st.add (inRange p) s) true
    have hadd : s ∈ (st.add (inRange p) s).mark := mem_mark_add.2 (.inr ⟨rfl, hrange⟩)
    refine ⟨fun ho => hp.openAfter (ho.addAll [s]), ?_, fun t ht => ?_, fun M hM hst => ?_,
      fun hr => ?_, fun _ => .inr ⟨s, hp.sub hadd, hrange, h.1⟩⟩
    · rw [hp.todo, todo_add fun t => mem_allSecs]
    · exact hp.sub (mem_mark_add.2 (.inl ht))
    · refine hp.least M hM fun t ht => ?_
      rcases mem_mark_add.1 ht with ht | ⟨rfl, -⟩
      · exact hst t ht
      obtain ⟨ho, hn, hlt, hm⟩ := linkMarked_iff.1 h.2
      exact hM t hs ho hn hlt (hst _ hm)
    exact absurd (hp.settled hr).1 (by simp)
  next h =>
  have hp := ih hrest st more
  refine ⟨hp.openAfter, hp.todo, hp.sub, hp.least, fun hr => ?_, hp.grew⟩
  obtain ⟨hmore, hst, hset⟩ := hp.settled hr
  refine ⟨hmore, hst, fun t ht hm => ?_⟩
  rcases mem_cons.1 ht with rfl | ht
  · by_contra hn
    exact h ⟨hn, hm⟩
  exact hset t ht hm

/-! ## The run -/

/-- What the loop leaves. -/
structure Finished (p : Input) (st st' : Marking Sec) : Prop where
  sub : st.mark ⊆ st'.mark
  followed : ∀ s ∈ st'.mark, ∀ t ∈ follow p s, inRange p t → t ∈ st'.mark
  links : LinkClosed p st'.mark
  least : ∀ M : Set Sec, LinkClosed p M → (∀ s ∈ M, ∀ t ∈ follow p s, inRange p t → t ∈ M) →
    (∀ s ∈ st.mark, s ∈ M) → ∀ s ∈ st'.mark, s ∈ M

/-- The loop ends, and leaves what it should: each round but the last marks a section. -/
theorem gcLoop_finished {fuel : Nat} {st : Marking Sec} (ho : Marking.Open (inRange p) (follow p) st)
    (htodo : todo (allSecs p) st ≤ nsecs p) (hfuel : (allSecs p \ st.mark).card < fuel) :
    ∃ st', gcLoop p fuel st = some st' ∧ Finished p st st' := by
  induction fuel generalizing st with
  | zero => exact absurd hfuel (Nat.not_lt_zero _)
  | succ fuel ih => ?_
  obtain ⟨st1, hdrain⟩ := exists_drain (follow p) (fun s => mem_allSecs) (Nat.lt_succ_of_le htodo)
  have hd := ho.drained hdrain
  have hopen1 : Marking.Open (inRange p) (follow p) st1 :=
    ⟨by simp [hd.empty], fun s hs => .inr (hd.followed s hs)⟩
  have hp := linkPass_passed (p := p) (l := activeSecs p) (fun s hs => hs) st1 false
  rw [gcLoop, hdrain]
  simp only
  generalize hr : linkPass p (activeSecs p) st1 false = r at hp
  cases hmore : r.2 with
  | false =>
    obtain ⟨-, hst, hset⟩ := hp.settled hmore
    refine ⟨r.1, by simp, ?_⟩
    rw [hst]
    refine ⟨hd.sub, hd.followed, fun s hs h1 h2 h3 h4 => ?_, fun M hM hf hst => hd.least M hst hf⟩
    exact hset s (mem_activeSecs.2 hs) (linkMarked_iff.2 ⟨h1, h2, h3, h4⟩)
  | true => ?_
  -- a section was marked: one fewer is left
  obtain ⟨s, hs, hrange, hnew⟩ := (hp.grew hmore).resolve_left (by simp)
  have hless : (allSecs p \ r.1.mark).card < (allSecs p \ st.mark).card := by
    apply Finset.card_lt_card
    refine Finset.ssubset_iff_subset_ne.2 ⟨Finset.sdiff_subset_sdiff subset_rfl (hd.sub.trans hp.sub), ?_⟩
    intro heq
    have hmem : s ∈ allSecs p \ st.mark := Finset.mem_sdiff.2 ⟨mem_allSecs hrange, fun h => hnew (hd.sub h)⟩
    rw [← heq] at hmem
    exact (Finset.mem_sdiff.1 hmem).2 hs
  have htodo' : todo (allSecs p) r.1 ≤ nsecs p := by
    rw [hp.todo, todo, hd.empty, length_nil, Nat.add_zero]
    exact (Finset.card_le_card Finset.sdiff_subset).trans card_allSecs_le
  obtain ⟨st', hrun, hfin⟩ := ih (hp.openAfter hopen1) htodo' (by omega)
  refine ⟨st', by simpa using hrun, (hd.sub.trans hp.sub).trans hfin.sub, hfin.followed, hfin.links,
    fun M hM hf hst => hfin.least M hM hf (hp.least M hM (hd.least M hst hf))⟩

/-! ## The roots -/

theorem map_eq_ok {ε α β : Type} {x : Except ε α} {f : α → β} {b : β} (h : x.map f = .ok b) :
    ∃ a, x = .ok a ∧ f a = b := by
  cases x with
  | error e => cases h
  | ok a => exact ⟨a, rfl, by cases h; rfl⟩

theorem mem_symSec : t ∈ symSec i (symOf p i k) ↔ SymIn p i k t := by
  unfold symSec SymIn
  split
  · rw [mem_singleton]
    constructor
    · rintro rfl
      exact ⟨rfl, ‹_›⟩
    · exact fun h => h.1
  next h =>
  refine iff_of_false not_mem_nil ?_
  rintro ⟨rfl, ht⟩
  exact h ht

theorem mem_defSec : t ∈ defSec p (p.gsymFind n) ↔ DefinedIn p n t := by
  unfold defSec DefinedIn
  split
  next o k h =>
    rw [mem_symSec, h]
    constructor
    · intro hs
      obtain rfl : t.1 = o := by rw [hs.1]
      exact ⟨k, rfl, hs⟩
    · rintro ⟨k', hk, hs⟩
      cases hk
      exact hs
  next h =>
  refine iff_of_false not_mem_nil ?_
  rintro ⟨k, hk, -⟩
  exact h _ _ hk

theorem startstopSection_iff {m : Name} :
    startstopSection n = some m ↔ (n = startText ++ m ∨ n = stopText ++ m) ∧ IsIdent m := by
  have hstrip : (if startText.isPrefixOf n then some (n.drop 8)
      else if stopText.isPrefixOf n then some (n.drop 7) else none) = some m ↔
      n = startText ++ m ∨ n = stopText ++ m := by
    split
    next h =>
      obtain ⟨r, rfl⟩ := isPrefixOf_iff_prefix.1 h
      simp [startText, stopText]
    next h =>
    have hno : ∀ r, n ≠ startText ++ r := fun r hr => h ( isPrefixOf_iff_prefix.2 ⟨r, hr.symm⟩)
    split
    next h' =>
      obtain ⟨r, rfl⟩ := isPrefixOf_iff_prefix.1 h'
      simp [startText, stopText]
    next h' =>
    have hno' : ∀ r, n ≠ stopText ++ r := fun r hr => h' ( isPrefixOf_iff_prefix.2 ⟨r, hr.symm⟩)
    simp [hno, hno']
  unfold startstopSection
  rw [Option.bind_eq_some_iff]
  constructor
  · rintro ⟨r, hr, h⟩
    split at h
    · cases h
    next hfirst =>
    split at h
    next hall =>
      cases h
      rw [not_or] at hfirst
      refine ⟨hstrip.1 hr, hfirst.1, hfirst.2, fun c hc => ?_⟩
      simpa [or_assoc] using all_eq_true.1 hall c hc
    · cases h
  · rintro ⟨hr, h0, h1, hall⟩
    refine ⟨m, hstrip.2 hr, ?_⟩
    rw [if_neg (not_or.2 ⟨h0, h1⟩), if_pos]
    refine all_eq_true.2 fun c hc => ?_
    simpa [or_assoc] using hall c hc

theorem mem_relocs : k ∈ relocs p s ↔ HasReloc p s k := by
  unfold relocs HasReloc
  simp only [mem_flatMap, mem_filter, mem_secsOf, Bool.and_eq_true, decide_eq_true_eq]
  constructor
  · rintro ⟨⟨o, r⟩, ⟨⟨rfl, hr⟩, htype, hinfo⟩, hk⟩
    exact ⟨r, hr, htype, hinfo, hk⟩
  · rintro ⟨r, hr, htype, hinfo, hk⟩
    exact ⟨(s.1, r), ⟨⟨rfl, hr⟩, htype, hinfo⟩, hk⟩

theorem definedGlobal_iff {g : Option Global} : definedGlobal g = true ↔ ∃ o k, g = some ⟨true, some o, k⟩ := by
  unfold definedGlobal
  split
  · exact iff_of_true rfl ⟨_, _, rfl⟩
  next h =>
  refine iff_of_false (by simp) ?_
  rintro ⟨o, k, rfl⟩
  exact h _ _ rfl

theorem mem_relTargets : t ∈ relTargets p i k ↔ SymbolIn p i k t ∨ Bounds p i k t := by
  unfold relTargets SymbolIn
  split
  next hk =>
    refine iff_of_false not_mem_nil ?_
    rintro (⟨h1, h2, -⟩ | h)
    · omega
    · have := h.index
      omega
  next hk =>
  have hk' : 0 < k ∧ k < (objOf p i).syms.length := by omega
  simp only
  split
  next hl =>
    rw [mem_symSec]
    exact ⟨fun h => .inl ⟨hk'.1, hk'.2, h⟩, fun h => (h.resolve_right fun hb => hb.global hl).2.2⟩
  next hl =>
  by_cases hg : definedGlobal (p.gsymFind (symOf p i k).name) = true
  · rw [if_pos hg, mem_defSec]
    refine ⟨fun h => .inl ⟨hk'.1, hk'.2, h⟩, fun h => (h.resolve_right fun hb => ?_).2.2⟩
    obtain ⟨o, k', hd⟩ := definedGlobal_iff.1 hg
    exact hb.undef o k' hd
  rw [if_neg hg]
  have hundef : ∀ o k', p.gsymFind (symOf p i k).name ≠ some ⟨true, some o, k'⟩ :=
    fun o k' h => hg (definedGlobal_iff.2 ⟨o, k', h⟩)
  -- only the bounds of sections are left
  have hbounds : (∃ m, startstopSection (symOf p i k).name = some m ∧ t ∈ namedSecs p m) ↔ Bounds p i k t := by
    unfold namedSecs
    simp only [startstopSection_iff, mem_filter, mem_activeSecs, Bool.and_eq_true, Bool.not_eq_true', decide_eq_true_eq]
    constructor
    · rintro ⟨m, ⟨hm, hid⟩, hp, ⟨hlink, halloc⟩, rfl⟩
      exact ⟨hk', hl, hundef, hm, hid, hp, hlink, halloc⟩
    · intro h
      exact ⟨_, ⟨h.name, h.ident⟩, h.sec.1, ⟨h.sec.2.1, h.sec.2.2⟩, rfl⟩
  rw [← hbounds]
  constructor
  · intro h
    split at h
    next m hm => exact .inr ⟨m, hm, h⟩
    · cases h
  · rintro (⟨-, -, o, hd, -⟩ | ⟨m, hm, h⟩)
    · exact absurd hd (hundef _ _)
    · rwa [hm]

theorem mem_follow : t ∈ follow p s ↔ ∃ k, HasReloc p s k ∧ (SymbolIn p s.1 k t ∨ Bounds p s.1 k t) := by
  unfold follow
  simp only [mem_flatMap, mem_relocs, mem_relTargets]

/-- The roots among the sections of an object; there are no groups. -/
theorem secRoots_ok {l : List Sec} (h : secRoots p i l = .ok rs) :
    (∀ s ∈ l, (secOf p s).type ≠ .group) ∧ ∀ s, s ∈ rs ↔ s ∈ l ∧ ((objOf p i).linker = true ∨
      (secOf p s).type = .note ∨ (secOf p s).retain = true ∨ (secOf p s).kept = true) := by
  induction l generalizing rs with
  | nil =>
    cases h
    simp
  | cons x rest ih => ?_
  rw [secRoots] at h
  split at h
  · cases h
  next hgroup =>
  split at h
  · cases h
  obtain ⟨more, hmore, rfl⟩ := map_eq_ok h
  obtain ⟨hno, hmem⟩ := ih hmore
  refine ⟨forall_mem_cons.2 ⟨hgroup, hno⟩, fun s => ?_⟩
  split
  next hroot =>
    rw [mem_cons, mem_cons, hmem]
    constructor
    · rintro (rfl | ⟨hs, hr⟩)
      · exact ⟨.inl rfl, hroot⟩
      · exact ⟨.inr hs, hr⟩
    · rintro ⟨rfl | hs, hr⟩
      · exact .inl rfl
      · exact .inr ⟨hs, hr⟩
  next hroot =>
  rw [hmem, mem_cons]
  refine ⟨fun h => ⟨.inr h.1, h.2⟩, fun ⟨hs, hr⟩ => ⟨hs.resolve_left ?_, hr⟩⟩
  rintro rfl
  exact hroot hr

theorem mem_exportRoots : s ∈ exportRoots p i ↔
    p.exports = true ∧ (objOf p i).linker = false ∧ ∃ k, Exported p i k ∧ SymIn p i k s := by
  unfold exportRoots
  split
  next h =>
    refine iff_of_false not_mem_nil ?_
    rintro ⟨he, hl, -⟩
    simp [he, hl] at h
  next h =>
  simp only [Bool.or_eq_true, Bool.not_eq_true', not_or, Bool.not_eq_false, Bool.not_eq_true] at h
  simp only [mem_flatMap, mem_drop_range, h.1, h.2, true_and]
  refine exists_congr fun k => ⟨fun ⟨hk, hs⟩ => ?_, fun ⟨hk, hs⟩ => ⟨hk.index, ?_⟩⟩
  · split at hs
    · cases hs
    next hbad =>
    split at hs
    · cases hs
    next hhid =>
    split at hs
    next g hg =>
      split at hs
      next hwin =>
        rw [mem_singleton] at hs
        simp only [not_or, not_and, ne_eq, Decidable.not_not, not_le] at hbad
        simp only [Bool.or_eq_true, Bool.not_eq_true', not_or, Bool.not_eq_true, Bool.not_eq_false] at hhid
        refine ⟨⟨hk, or_iff_not_imp_left.2 hbad.1, hbad.2.2.2, ⟨hhid.1.1, hhid.1.2, hhid.2⟩, g.defined, ?_⟩, hs,
          by rw [hs]; exact hbad.2.1, by rw [hs]; exact hbad.2.2.1⟩
        rw [hg, ← hwin.1, ← hwin.2]
      · cases hs
    · cases hs
  obtain ⟨rfl, h0, hlt⟩ := hs
  obtain ⟨d, hd⟩ := hk.wins
  have hbind := hk.bind
  rw [if_neg, if_neg]
  · simp [hd]
  · simp [hk.visible]
  · have h0' : (symOf p i k).shndx ≠ 0 := h0
    have hlt' : (symOf p i k).shndx < 0xff00 := hlt
    rintro (⟨h1, h2⟩ | h | h | h)
    · exact hbind.elim h1 h2
    · exact h0' h
    · omega
    · exact hk.named h

theorem objRoots_ok {is : List Nat} (h : objRoots p is = .ok rs) :
    (∀ i ∈ is, (objOf p i).active = true → ∀ s ∈ secsOf p i, (secOf p s).type ≠ .group) ∧
    ∀ s, s ∈ rs ↔ ∃ i ∈ is, (objOf p i).active = true ∧ (s ∈ exportRoots p i ∨ s ∈ secsOf p i ∧
      ((objOf p i).linker = true ∨ (secOf p s).type = .note ∨ (secOf p s).retain = true ∨ (secOf p s).kept = true)) := by
  induction is generalizing rs with
  | nil =>
    cases h
    simp
  | cons x rest ih => ?_
  rw [objRoots] at h
  split at h
  next hx =>
    split at h
    · cases h
    next secs hsecs =>
    obtain ⟨more, hmore, rfl⟩ := map_eq_ok h
    obtain ⟨hno, hmem⟩ := ih hmore
    obtain ⟨hno', hmem'⟩ := secRoots_ok hsecs
    refine ⟨forall_mem_cons.2 ⟨fun _ => hno', hno⟩, fun s => ?_⟩
    simp only [mem_append, hmem, hmem', exists_mem_cons_iff, hx, true_and]
    rw [or_comm (a := s ∈ secsOf p x ∧ _)]
  next hx =>
  obtain ⟨hno, hmem⟩ := ih h
  refine ⟨forall_mem_cons.2 ⟨fun h => absurd h hx, hno⟩, fun s => ?_⟩
  simp only [hmem, exists_mem_cons_iff, hx, false_and, false_or, Bool.false_eq_true]

theorem mem_symRoots : s ∈ symRoots p ↔
    ∃ n ∈ p.entrySym.getD nameStart :: nameInit :: nameFini :: p.gcUndef, DefinedIn p n s := by
  unfold symRoots
  simp only [mem_append, mem_flatMap, mem_defSec, exists_mem_cons_iff, or_assoc]

/-- When the roots are found, they are those of the input, and no section is a group. -/
theorem roots_ok (h : roots p = .ok rs) :
    (∀ s, Present p s → (secOf p s).type ≠ .group) ∧ ∀ s, s ∈ rs ↔ Root p s := by
  obtain ⟨secs, hsecs, rfl⟩ := map_eq_ok h
  obtain ⟨hno, hmem⟩ := objRoots_ok hsecs
  refine ⟨fun s hs => hno s.1 (mem_range.2 (lt_of_inRange hs.2)) hs.1 s (mem_secsOf.2 ⟨rfl, hs.2⟩), fun s => ?_⟩
  rw [mem_append, mem_symRoots, hmem]
  constructor
  · rintro (⟨n, hn, hs⟩ | ⟨i, -, ha, hs | ⟨hs, hr⟩⟩)
    · exact .symbol hn hs
    · obtain ⟨he, hl, k, hk, hs⟩ := mem_exportRoots.1 hs
      obtain rfl : s.1 = i := by rw [hs.1]
      exact .exported he ha hl hk hs
    · obtain ⟨rfl, hrange⟩ := mem_secsOf.1 hs
      exact .own ⟨ha, hrange⟩ hr
  · rintro (⟨hn, hs⟩ | ⟨hs, hr⟩ | ⟨he, ha, hl, hk, hs⟩)
    · exact .inl ⟨_, hn, hs⟩
    · exact .inr ⟨s.1, mem_range.2 (lt_of_inRange hs.2), hs.1, .inr ⟨mem_secsOf.2 ⟨rfl, hs.2⟩, hr⟩⟩
    · have hlt : s.1 < p.objs.length := by
        by_contra hge
        simp [objOf, getD_eq_getElem?_getD, getElem?_eq_none (Nat.not_lt.1 hge)] at ha
      exact .inr ⟨s.1, mem_range.2 hlt, ha, .inl (mem_exportRoots.2 ⟨he, hl, _, hk, hs⟩)⟩

/-! ## The result -/

theorem gcRun_finished {r : Option (Finset Sec)} (hrs : roots p = .ok rs)
    (h : gcRun p = .ok r) : ∃ mark, r = some mark ∧ ∀ s, s ∈ mark ↔ Kept p s := by
  set st0 := addAll (inRange p) ⟨∅, []⟩ rs with hst0
  have ho : Marking.Open (inRange p) (follow p) st0 := Marking.Open.addAll ⟨by simp, by simp⟩ rs
  have htodo : todo (allSecs p) st0 ≤ nsecs p := by
    rw [hst0, todo_addAll fun s => mem_allSecs]
    simpa [todo] using card_allSecs_le
  have hfuel : (allSecs p \ st0.mark).card < nsecs p + 1 :=
    Nat.lt_succ_of_le ((Finset.card_le_card Finset.sdiff_subset).trans card_allSecs_le)
  obtain ⟨st', hrun, hfin⟩ := gcLoop_finished ho htodo hfuel
  obtain ⟨hno, hroot⟩ := roots_ok hrs
  have hmark0 : ∀ s, s ∈ st0.mark ↔ Root p s ∧ inRange p s := by
    intro s
    rw [hst0, mem_mark_addAll, hroot]
    simp
  rw [gcRun, hrs] at h
  simp only [Except.map, ← hst0, hrun, Option.map_some, Except.ok.injEq] at h
  refine ⟨st'.mark, h.symm, fun s => ⟨fun hs => ?_, fun hs => ?_⟩⟩
  · refine hfin.least {s | Kept p s} (fun s hs ho h0 hlt h => .link hs ho h0 hlt h) (fun s hs t ht hr => ?_)
      (fun s hs => ?_) s hs
    · obtain ⟨k, hk, ht⟩ := mem_follow.1 ht
      exact .reloc hs hk ht hr
    · obtain ⟨hs, hr⟩ := (hmark0 s).1 hs
      exact .root hs hr
  induction hs with
  | root hs hr => exact hfin.sub ((hmark0 _).2 ⟨hs, hr⟩)
  | reloc _ hk ht hr ih => exact hfin.followed _ ih _ (mem_follow.2 ⟨_, hk, ht⟩) hr
  | group hg htype => exact absurd htype (hno _ hg)
  | link hs ho h0 hlt _ ih => exact hfin.links _ hs ho h0 hlt ih

theorem swept_iff (hmark : ∀ s, s ∈ mark ↔ Kept p s) : swept p mark s = true ↔
    Present p s ∧ (objOf p s.1).linker = false ∧ ¬ Kept p s ∧ (secOf p s).alloc = true := by
  simp only [swept, Bool.and_eq_true, contains_iff_mem, mem_activeSecs, Bool.not_eq_true', decide_eq_true_eq, hmark,
    and_assoc]

end Reach

/-- **Garbage collection keeps exactly what is reachable**: unless the input is refused, `gc_run` ends, and what it
marks is the least set of sections that has the roots and is closed under relocations, groups and link order. What
is left refers to nothing that is swept if and only if no section that is not allocated has a relocation against a
symbol of an allocated section that is not reachable. -/
theorem gcRun_kept_iff (p : Input) (r : Option (Finset Sec)) (h : gcRun p = .ok r) :
    ∃ mark, r = some mark ∧ (∀ s, s ∈ mark ↔ Kept p s) ∧ (NoDangling p mark ↔
      ∀ s k t, Present p s → (secOf p s).alloc = false → HasReloc p s k → SymbolIn p s.1 k t →
        Present p t → (objOf p t.1).linker = false → (secOf p t).alloc = true → Kept p t) := by
  obtain ⟨rs, hrs, -⟩ := map_eq_ok h
  obtain ⟨mark, hr, hmark⟩ := gcRun_finished hrs h
  refine ⟨mark, hr, hmark, fun hno s k t hs hna hk ht hp hl ha => ?_, fun hcond s hs hleft k t hk ht => ?_⟩
  · by_contra hkept
    have hleft : swept p mark s = false := by
      rw [← Bool.not_eq_true, swept_iff hmark, hna]
      simp
    have hdangling := hno s hs hleft k t hk ht
    rw [← Bool.not_eq_true, swept_iff hmark] at hdangling
    exact hdangling ⟨hp, hl, hkept, ha⟩
  rw [← Bool.not_eq_true, swept_iff hmark]
  rintro ⟨hp, hl, hkept, ha⟩
  cases hna : (secOf p s).alloc with
  | false => exact hkept (hcond s k t hs hna hk ht hp hl ha)
  | true =>
    -- an allocated section that is left is marked, and so is what it refers to
    refine hkept (.reloc ?_ hk (.inl ht) hp.2)
    by_contra hs'
    rw [← Bool.not_eq_true, swept_iff hmark] at hleft
    cases hown : (objOf p s.1).linker with
    | false => exact hleft ⟨hs, hown, hs', hna⟩
    | true => exact hs' (.root (.own hs (.inl hown)) hs.2)

/-- An object with a section for `_start`, one that its relocation needs, and one that nothing needs; its last
section, with a relocation of its own, is not allocated. -/
def smallLink (debug : List Nat) : Input where
  objs :=
    [{ active := true, linker := false
       secs := [⟨[], .other, false, false, false, 0, 0, [], [], false⟩,
         ⟨[46, 116], .other, true, false, false, 0, 0, [], [], false⟩,
         ⟨[46, 100], .other, true, false, false, 0, 0, [], [], false⟩,
         ⟨[46, 114], .rel, false, false, false, 0, 1, [2], [], false⟩,
         ⟨[46, 117], .other, true, false, false, 0, 0, [], [], false⟩,
         ⟨[46, 105], .other, false, false, false, 0, 0, [], [], false⟩,
         ⟨[46, 114], .rel, false, false, false, 0, 5, debug, [], false⟩]
       syms := [⟨[], .loc, 0, true⟩, ⟨nameStart, .global, 1, true⟩, ⟨[], .loc, 2, true⟩, ⟨[], .loc, 4, true⟩] }]
  gsymFind := fun n => if n = nameStart then some ⟨true, some 0, 1⟩ else none
  entrySym := none
  gcUndef := []
  exports := false
  versionHidden := fun _ => false
  dynExports := fun _ => false

theorem gcRun_kept_iff_small : Kept (smallLink [2]) (0, 2) ∧ ¬ Kept (smallLink [2]) (0, 4) := by
  obtain ⟨mark, hr, hmark, -⟩ := gcRun_kept_iff (smallLink [2]) (some {(0, 2), (0, 1)}) (by decide +kernel)
  cases hr
  rw [← hmark, ← hmark]
  decide

/-- The debug information names the section that nothing else needs: the section is swept, and the debug information
is left with its relocation. -/
theorem gcRun_dangling : gcRun (smallLink [3]) = .ok (some {(0, 2), (0, 1)}) ∧
    ¬ NoDangling (smallLink [3]) {(0, 2), (0, 1)} := by
  refine ⟨by decide +kernel, fun h => ?_⟩
  have hk : HasReloc (smallLink [3]) (0, 5) 3 := ⟨6, by decide, by decide, by decide, by decide⟩
  have ht : SymbolIn (smallLink [3]) 0 3 (0, 4) := ⟨by decide, by decide, by rw [if_pos (by decide)]; exact ⟨rfl, by decide⟩⟩
  exact absurd (h (0, 5) ⟨rfl, by decide⟩ (by decide +kernel) 3 (0, 4) hk ht) (by decide +kernel)

end Embedded.Toolchain.Ld.Gc
