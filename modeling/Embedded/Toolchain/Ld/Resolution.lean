import Embedded.Toolchain.Ld.Symbols
import Mathlib.Algebra.BigOperators.Group.List.Basic

/-! # What symbol resolution computes

Apart from the code's table, the symbols of the objects in link order (`occs`) say which definition
of a name is to be chosen: its strong one, or the first weak one. `TableOk` ties the table to them; a
symbol entered keeps it. The loop over the pending names then is a closure: nothing that is still
undefined could be had from an archive. -/

namespace Embedded.Toolchain.Ld

open List
open Except (ok)

variable {y : Sym} {ds : List Def} {c d : Def} {s : Link} {n : String} {ys : List Sym} {os : List Obj}
  {o : Obj} {inp : Inputs} {entries : List (String × Nat × Nat)}

variable {name : String} {t : Nat × Nat}

/-! ## Definitions and references in link order -/

/-- A symbol and where it stands. -/
structure Occ where
  obj : Nat
  symidx : Nat
  sym : Sym

/-- A definition of a name. -/
structure Def where
  obj : Nat
  symidx : Nat
  weak : Bool
  hidden : Bool

/-- The symbol defines the name, strongly or weakly. -/
def Sym.defines (y : Sym) (name : String) : Prop :=
  y.name = some name ∧ (y.bind = .global ∨ y.bind = .weak) ∧ y.place = .section

/-- The symbol is a strong reference to the name. -/
def Sym.refers (y : Sym) (name : String) : Prop :=
  y.name = some name ∧ y.bind = .global ∧ y.place = .undef

instance (y : Sym) (name : String) : Decidable (y.defines name) :=
  inferInstanceAs (Decidable (_ ∧ _ ∧ _))

instance (y : Sym) (name : String) : Decidable (y.refers name) :=
  inferInstanceAs (Decidable (_ ∧ _ ∧ _))

/-- The symbols of object `k` from index `j` on. -/
def symOccs (k : Nat) : Nat → List Sym → List Occ
  | _, [] => []
  | j, y :: ys => ⟨k, j, y⟩ :: symOccs k (j + 1) ys

/-- The symbols of all objects in link order, the first object being number `k`. -/
def occs : Nat → List Obj → List Occ
  | _, [] => []
  | k, o :: os => symOccs k 0 o.syms ++ occs (k + 1) os

theorem occs_append (k : Nat) (as bs : List Obj) :
    occs k (as ++ bs) = occs k as ++ occs (k + as.length) bs := by
  induction as generalizing k with
  | nil => rfl
  | cons a as ih =>
    simp only [cons_append, occs, ih, append_assoc, length_cons]
    congr 3
    omega

/-- The definition an occurrence is. -/
def Occ.toDef (c : Occ) : Def := ⟨c.obj, c.symidx, decide (c.sym.bind = .weak), c.sym.hidden⟩

/-- The definitions of a name, in link order. -/
def defs (name : String) (seen : List Occ) : List Def :=
  (seen.filter fun c => c.sym.defines name).map Occ.toDef

/-- The definition that counts: the strong one, or else the first weak one. -/
def choose (ds : List Def) : Option Def :=
  match ds.find? fun d => !d.weak with
  | some d => some d
  | none => ds.head?

theorem defs_concat (name : String) (seen : List Occ) (c : Occ) :
    defs name (seen ++ [c]) = defs name seen ++ if c.sym.defines name then [c.toDef] else [] := by
  unfold defs
  rw [filter_append, map_append]
  congr 1
  by_cases h : c.sym.defines name <;> simp [h]

theorem defs_concat_of_not (hd : ∀ name, ¬ y.defines name) (name : String)
    (seen : List Occ) (k j : Nat) : defs name (seen ++ [⟨k, j, y⟩]) = defs name seen := by
  rw [defs_concat, if_neg (hd name), append_nil]

theorem choose_eq_none (h : choose ds = none) : ds = [] := by
  unfold choose at h
  split at h
  · simp at h
  · exact head?_eq_none_iff.1 h

/-- A definition behind a strong one, or a weak one behind any other, is not chosen. -/
theorem choose_concat_keep (hc : choose ds = some c)
    (h : d.weak = true ∨ c.weak = false) : choose (ds ++ [d]) = some c := by
  unfold choose at hc ⊢
  rw [find?_append]
  cases hf : ds.find? fun d => !d.weak with
  | some s =>
    rw [hf] at hc
    simpa using hc
  | none => ?_
  rw [hf] at hc
  have hc : ds.head? = some c := hc
  have hmem : c ∈ ds := mem_of_mem_head? hc
  have hweak : c.weak = true := by
    have := find?_eq_none.1 hf c hmem
    simpa using this
  rw [hweak] at h
  simp only [Bool.true_eq_false, or_false] at h
  simp only [Option.none_or, find?_singleton, h, Bool.not_true, Bool.false_eq_true, if_false]
  rw [head?_append, hc]
  rfl

theorem find_strong_eq_none (hc : choose ds = some c)
    (hw : c.weak = true) : (ds.find? fun d => !d.weak) = none := by
  unfold choose at hc
  cases hf : ds.find? fun d => !d.weak with
  | some s =>
    rw [hf] at hc
    obtain rfl : s = c := by simpa using hc
    simpa [hw] using find?_some hf
  | none => rfl

/-- The first definition is chosen, and a strong one overrides a weak one. -/
theorem choose_concat_new
    (h : choose ds = none ∨ ∃ c, choose ds = some c ∧ c.weak = true ∧ d.weak = false) :
    choose (ds ++ [d]) = some d := by
  rcases h with hnone | ⟨c, hc, hcw, hdw⟩
  · rw [choose_eq_none hnone]
    unfold choose
    simp only [nil_append, find?_singleton, head?_cons]
    cases d.weak <;> rfl
  unfold choose
  rw [find?_append, find_strong_eq_none hc hcw]
  simp [hdw]

/-! ## The table -/

/-- The table is what the symbols seen so far and the `-u` names `undefs` call for. -/
structure TableOk (undefs : List String) (seen : List Occ) (s : Link) : Prop where
  /-- The entry of a name is its chosen definition. -/
  chosen : ∀ name, match choose (defs name seen) with
    | none => (s.gsyms name).defined = false
    | some d => (s.gsyms name).defined = true ∧ (s.gsyms name).weak = d.weak ∧
        (s.gsyms name).obj = d.obj ∧ (s.gsyms name).symidx = d.symidx ∧
        (s.gsyms name).hidden = d.hidden
  /-- No name has two strong definitions. -/
  oneStrong : ∀ name, ((defs name seen).filter fun d => !d.weak).length ≤ 1
  strongRef : ∀ name, (s.gsyms name).strongRef = true ↔
    name ∈ undefs ∨ ∃ c ∈ seen, c.sym.refers name
  /-- What is referenced and not defined is pending. -/
  pending : ∀ name, (s.gsyms name).strongRef = true → (s.gsyms name).defined = false →
    name ∈ s.pending
  pendingRef : ∀ name ∈ s.pending, (s.gsyms name).strongRef = true

section Step

variable {undefs : List String} {seen : List Occ} {s s' : Link} {k j : Nat} {y : Sym}

theorem TableOk.defined_iff (h : TableOk undefs seen s) (name : String) :
    (s.gsyms name).defined = true ↔ defs name seen ≠ [] := by
  have hc := h.chosen name
  cases hd : choose (defs name seen) with
  | none =>
    rw [hd] at hc
    simp [hc, choose_eq_none hd]
  | some d => ?_
  rw [hd] at hc
  simp only [hc.1, true_iff]
  intro hnil
  rw [hnil] at hd
  simp [choose] at hd

/-- A symbol that neither defines nor strongly refers changes nothing. -/
theorem TableOk.skip (h : TableOk undefs seen s) (hd : ∀ name, ¬ y.defines name)
    (hr : ∀ name, ¬ y.refers name ∨ (s.gsyms name).strongRef = true) :
    TableOk undefs (seen ++ [⟨k, j, y⟩]) s := by
  refine ⟨fun name => ?_, fun name => ?_, fun name => ?_, h.pending, h.pendingRef⟩
  · rw [defs_concat_of_not hd]
    exact h.chosen name
  · rw [defs_concat_of_not hd]
    exact h.oneStrong name
  have hold : y.refers name → name ∈ undefs ∨ ∃ c ∈ seen, c.sym.refers name :=
    fun hy => (h.strongRef name).1 ((hr name).resolve_left (not_not_intro hy))
  simp only [h.strongRef, mem_append, mem_singleton, or_and_right, exists_or, exists_eq_left, ← or_assoc]
  exact (or_iff_left_of_imp hold).symm

/-- What entering one symbol can do. -/
inductive AddSym (s : Link) (k j : Nat) (y : Sym) : Link → Prop
  /-- Nothing to enter. -/
  | skip (hd : ∀ name, ¬ y.defines name)
      (hr : ∀ name, ¬ y.refers name ∨ (s.gsyms name).strongRef = true) : AddSym s k j y s
  /-- The first strong reference. -/
  | refer (name : String) (hr : y.refers name) (hnew : (s.gsyms name).strongRef = false)
      (pending : List String)
      (hp : pending = if (s.gsyms name).defined then s.pending else s.pending ++ [name]) :
      AddSym s k j y
        { s.set name { s.gsyms name with strongRef := true } with pending := pending }
  /-- A definition that loses against the one there is. -/
  | keep (name : String) (hd : y.defines name) (hdef : (s.gsyms name).defined = true)
      (hkeep : y.bind = .weak ∨ (s.gsyms name).weak = false)
      (hone : y.bind = .weak ∨ (s.gsyms name).weak = true) : AddSym s k j y s
  /-- The first definition, or a strong one after a weak one. -/
  | define (name : String) (hd : y.defines name)
      (hnew : (s.gsyms name).defined = false ∨ (y.bind ≠ .weak ∧ (s.gsyms name).weak = true)) :
      AddSym s k j y (s.set name { s.gsyms name with
        defined := true, weak := decide (y.bind = .weak), obj := k, symidx := j, hidden := y.hidden })

theorem addSym_cases (h : addSym s k j y = .ok s') : AddSym s k j y s' := by
  unfold addSym at h
  cases hname : y.name with
  | none =>
    rw [hname] at h
    cases h
    exact .skip (fun n hd => by simp [Sym.defines, hname] at hd)
      fun n => .inl fun hr => by simp [Sym.refers, hname] at hr
  | some name => ?_
  rw [hname] at h
  simp only at h
  split at h
  · next hbind =>
    cases h
    exact .skip (fun n hd => by have := hd.2.1; tauto) fun n => .inl fun hr => hbind.1 hr.2.1
  have hbind : y.bind = .global ∨ y.bind = .weak := by tauto
  cases hplace : y.place with
  | common =>
    rw [hplace] at h
    simp at h
  | undef =>
    rw [hplace] at h
    have hnd : ∀ n, ¬ y.defines n := fun n hd => by simp [Sym.defines, hplace] at hd
    simp only at h
    split at h
    · next hnew =>
      cases h
      have hr : y.refers name := ⟨hname, hnew.1, hplace⟩
      have heq : (if (s.gsyms name).defined = true then s.set name { s.gsyms name with strongRef := true }
        else { s.set name { s.gsyms name with strongRef := true } with
          pending := (s.set name { s.gsyms name with strongRef := true }).pending ++ [name] }) =
          { s.set name { s.gsyms name with strongRef := true } with
            pending := if (s.gsyms name).defined then s.pending else s.pending ++ [name] } := by
        split <;> rfl
      rw [heq]
      exact .refer name hr hnew.2 _ rfl
    rename_i hold
    cases h
    refine .skip hnd fun n => ?_
    by_cases hn : y.refers n
    · right
      obtain rfl : name = n := by simpa [hname] using hn.1
      have hglobal := hn.2.1
      simpa [hglobal] using hold
    exact .inl hn
  | «section» => ?_
  rw [hplace] at h
  have hd : y.defines name := ⟨hname, hbind, hplace⟩
  simp only at h
  split at h
  · simp at h
  rename_i hdup
  split at h
  · next hkeep =>
    cases h
    simp only [decide_eq_true_eq, decide_eq_false_iff_not, not_and, Bool.not_eq_false] at hdup hkeep
    refine .keep name hd hkeep.1 hkeep.2 ?_
    by_cases hw : y.bind = .weak
    · exact .inl hw
    exact .inr (hdup hkeep.1 hw)
  rename_i hnew
  cases h
  refine .define name hd ?_
  simp only [decide_eq_true_eq, not_and, not_or, Bool.not_eq_false] at hnew
  cases hdef : (s.gsyms name).defined with
  | false => exact .inl rfl
  | true => exact .inr (hnew hdef)

theorem Link.set_same (s : Link) (name : String) (g : GSym) : (s.set name g).gsyms name = g :=
  Function.update_self ..

theorem Link.set_other {g : GSym} (h : n ≠ name) :
    (s.set name g).gsyms n = s.gsyms n := Function.update_of_ne h ..

/-- A reference changes the mark of one entry only. -/
theorem Link.set_strongRef (s : Link) (name n : String) :
    (s.set name { s.gsyms name with strongRef := true }).gsyms n =
      { s.gsyms n with strongRef := (s.gsyms n).strongRef || decide (n = name) } := by
  by_cases hn : n = name
  · subst hn
    rw [Link.set_same]
    simp
  rw [Link.set_other hn]
  simp [hn]

theorem Sym.defines_unique (h : y.defines name) (hn : y.defines n) : n = name := by
  have := h.1.symm.trans hn.1
  simpa using this.symm

theorem Sym.not_refers_of_defines (h : y.defines name) (n : String) : ¬ y.refers n := by
  intro hr
  have := h.2.2.symm.trans hr.2.2
  simp at this

section

variable (h : TableOk undefs seen s)
include h

theorem strongRef_concat (hr : ∀ n, ¬ y.refers n) (name : String) :
    (s.gsyms name).strongRef = true ↔ name ∈ undefs ∨ ∃ c ∈ seen ++ [⟨k, j, y⟩], c.sym.refers name := by
  rw [h.strongRef]
  simp [or_and_right, exists_or, hr]

/-- A weak definition, or the first strong one, leaves at most one strong. -/
theorem oneStrong_concat (hd : y.defines name)
    (hone : y.bind = .weak ∨ ((defs name seen).filter fun d => !d.weak) = []) (n : String) :
    ((defs n (seen ++ [⟨k, j, y⟩])).filter fun d => !d.weak).length ≤ 1 := by
  rw [defs_concat]
  by_cases hn : y.defines n
  · obtain rfl := Sym.defines_unique hd hn
    rw [if_pos hn, filter_append, length_append]
    rcases hone with hw | hnone
    · simpa [Occ.toDef, hw] using h.oneStrong n
    rw [hnone, length_nil, zero_add]
    exact length_filter_le ..
  rw [if_neg hn, append_nil]
  exact h.oneStrong n

/-- **Entering one symbol** keeps the table right. -/
theorem TableOk.addSym (hs : AddSym s k j y s') : TableOk undefs (seen ++ [⟨k, j, y⟩]) s' := by
  cases hs with
  | skip hd hr => exact h.skip hd hr
  | refer name hr hnew pending hp =>
    have hnd : ∀ n, ¬ y.defines n := fun n hd =>
      absurd (hd.2.2.symm.trans hr.2.2) (by simp)
    have hentry := s.set_strongRef name
    refine ⟨fun n => ?_, fun n => ?_, fun n => ?_, fun n => ?_, fun n hn => ?_⟩
    · rw [defs_concat_of_not hnd]
      simp only [hentry]
      exact h.chosen n
    · rw [defs_concat_of_not hnd]
      exact h.oneStrong n
    · have hself : y.refers n ↔ n = name := by
        constructor
        · intro hn
          simpa using hn.1.symm.trans hr.1
        rintro rfl
        exact hr
      simp only [hentry, Bool.or_eq_true, decide_eq_true_eq, h.strongRef, mem_append, mem_singleton,
        or_and_right, exists_or, exists_eq_left, hself, or_assoc]
    · simp only [hentry]
      intro href hundef
      rw [hp]
      rcases Bool.or_eq_true_iff.1 href with hold | heq
      · have := h.pending n hold hundef
        split
        · exact this
        exact mem_append_left _ this
      have heq : n = name := by simpa using heq
      subst heq
      rw [if_neg (by simp [hundef])]
      simp
    simp only [hentry]
    simp only [hp] at hn
    split at hn
    · simp [h.pendingRef n hn]
    rcases mem_append.1 hn with hn | hn
    · simp [h.pendingRef n hn]
    simp [mem_singleton.1 hn]
  | keep name hd hdef hkeep hone =>
    have hnr := Sym.not_refers_of_defines hd
    refine ⟨fun n => ?_, fun n => ?_, strongRef_concat h hnr, h.pending, h.pendingRef⟩
    · rw [defs_concat]
      by_cases hn : y.defines n
      · obtain rfl := Sym.defines_unique hd hn
        rw [if_pos hn]
        have hc := h.chosen n
        cases hch : choose (defs n seen) with
        | none =>
          rw [hch] at hc
          rw [hc] at hdef
          simp at hdef
        | some c => ?_
        rw [hch] at hc
        rw [choose_concat_keep hch]
        · exact hc
        rw [← hc.2.1]
        rcases hkeep with hw | hs
        · exact .inl (by simpa [Occ.toDef] using hw)
        exact .inr hs
      rw [if_neg hn, append_nil]
      exact h.chosen n
    -- a strong definition behind this one is ruled out by the check
    refine oneStrong_concat h hd (.inl ?_) n
    rcases hone with hw | hw
    · exact hw
    exact hkeep.resolve_right (by simp [hw])
  | define name hd hnew => ?_
  have hnr := Sym.not_refers_of_defines hd
  have hsame : ∀ n, ((s.set name { s.gsyms name with
      defined := true, weak := decide (y.bind = .weak), obj := k, symidx := j
      hidden := y.hidden }).gsyms n).strongRef = (s.gsyms n).strongRef := by
    intro n
    by_cases hn : n = name
    · subst hn
      rw [Link.set_same]
    rw [Link.set_other hn]
  -- the definition found so far, if any, is weak and the new one strong
  have hweak : choose (defs name seen) = none ∨
      ∃ c, choose (defs name seen) = some c ∧ c.weak = true ∧ y.bind ≠ .weak := by
    have hc := h.chosen name
    cases hch : choose (defs name seen) with
    | none => exact .inl rfl
    | some c => ?_
    rw [hch] at hc
    rcases hnew with hundef | ⟨hs, hw⟩
    · rw [hundef] at hc
      exact absurd hc.1 (by simp)
    exact .inr ⟨c, rfl, hc.2.1.symm.trans hw, hs⟩
  refine ⟨fun n => ?_, fun n => ?_, fun n => ?_, fun n => ?_, fun n hn => ?_⟩
  · rw [defs_concat]
    by_cases hn : y.defines n
    · obtain rfl := Sym.defines_unique hd hn
      rw [if_pos hn, choose_concat_new, Link.set_same]
      · exact ⟨rfl, rfl, rfl, rfl, rfl⟩
      rcases hweak with h0 | ⟨c, hc, hcw, hs⟩
      · exact .inl h0
      exact .inr ⟨c, hc, hcw, by simpa [Occ.toDef] using hs⟩
    have hne : n ≠ name := by
      rintro rfl
      exact hn hd
    rw [if_neg hn, append_nil, Link.set_other hne]
    exact h.chosen n
  · refine oneStrong_concat h hd (.inr ?_) n
    rcases hweak with h0 | ⟨c, hc, hcw, -⟩
    · rw [choose_eq_none h0]
      rfl
    exact filter_eq_nil_iff.2 (find?_eq_none.1 (find_strong_eq_none hc hcw))
  · rw [hsame]
    exact strongRef_concat h hnr n
  · rw [hsame]
    intro href hundef
    by_cases hn : n = name
    · subst hn
      rw [Link.set_same] at hundef
      simp at hundef
    rw [Link.set_other hn] at hundef
    exact h.pending n href hundef
  rw [hsame]
  exact h.pendingRef n hn

end

/-- What entering symbols leaves alone, and by how much the pending list can grow. -/
structure Grows (s s' : Link) (n : Nat) : Prop where
  objs : s'.objs = s.objs
  loaded : s'.loaded = s.loaded
  pulls : s'.pulls = s.pulls
  defined : ∀ name, (s.gsyms name).defined = true → (s'.gsyms name).defined = true
  pending : ∃ more, s'.pending = s.pending ++ more ∧ more.length ≤ n

theorem Grows.refl (s : Link) (n : Nat) : Grows s s n := ⟨rfl, rfl, rfl, fun _ h => h, [], by simp, by simp⟩

theorem Grows.trans {s1 s2 s3 : Link} {m n : Nat} (h : Grows s1 s2 m) (h' : Grows s2 s3 n) :
    Grows s1 s3 (m + n) := by
  obtain ⟨more, hp, hl⟩ := h.pending
  obtain ⟨more', hp', hl'⟩ := h'.pending
  refine ⟨h'.objs.trans h.objs, h'.loaded.trans h.loaded, h'.pulls.trans h.pulls,
    fun name hd => h'.defined name (h.defined name hd), more ++ more', ?_, ?_⟩
  · rw [hp', hp, append_assoc]
  rw [length_append]
  omega

theorem AddSym.grows (hs : AddSym s k j y s') : Grows s s' 1 := by
  cases hs with
  | skip | keep => exact .refl s 1
  | refer name hr hnew pending hp =>
    refine ⟨rfl, rfl, rfl, fun n hd => ?_, ?_⟩
    · simp only [Link.set_strongRef]
      exact hd
    rw [hp]
    split
    · exact ⟨[], by simp, by simp⟩
    exact ⟨[name], rfl, by simp⟩
  | define name hd hnew => ?_
  refine ⟨rfl, rfl, rfl, fun n hdef => ?_, [], by simp [Link.set], by simp⟩
  by_cases hn : n = name
  · subst hn
    rw [Link.set_same]
  rw [Link.set_other hn]
  exact hdef

/-- **Entering the symbols of an object** keeps the table right. -/
theorem TableOk.addSyms : ∀ {j : Nat} {seen : List Occ} {s : Link},
    TableOk undefs seen s → Ld.addSyms k j ys s = .ok s' →
    TableOk undefs (seen ++ symOccs k j ys) s' ∧ Grows s s' ys.length := by
  induction ys with
  | nil =>
    intro j seen s h hs
    obtain rfl := Except.ok.inj hs
    rw [symOccs, append_nil]
    exact ⟨h, .refl s _⟩
  | cons y ys ih => ?_
  intro j seen s h hs
  rw [Ld.addSyms] at hs
  split at hs
  · simp at hs
  rename_i s1 hone
  have hcase := addSym_cases hone
  obtain ⟨htable, hgrow⟩ := ih (h.addSym hcase) hs
  rw [append_assoc] at htable
  refine ⟨htable, ?_⟩
  have := hcase.grows.trans hgrow
  rw [length_cons, Nat.add_comm]
  exact this

/-- Entering the command-line objects. -/
theorem TableOk.addObjs : ∀ {k : Nat} {seen : List Occ} {s : Link},
    TableOk undefs seen s → Ld.addObjs k os s = .ok s' →
    TableOk undefs (seen ++ occs k os) s' ∧ s'.objs = s.objs ∧ s'.loaded = s.loaded ∧ s'.pulls = s.pulls := by
  induction os with
  | nil =>
    intro k seen s h hs
    cases hs
    rw [occs, append_nil]
    exact ⟨h, rfl, rfl, rfl⟩
  | cons o os ih => ?_
  intro k seen s h hs
  rw [Ld.addObjs] at hs
  split at hs
  · simp at hs
  rename_i s1 hone
  obtain ⟨htable, hgrow⟩ := h.addSyms hone
  obtain ⟨htable', hobjs, hloaded, hpulls⟩ := ih htable hs
  rw [append_assoc] at htable'
  exact ⟨htable', hobjs.trans hgrow.objs, hloaded.trans hgrow.loaded, hpulls.trans hgrow.pulls⟩

theorem TableOk.enterUndefs {names : List String} : ∀ {us : List String} {s : Link}, TableOk us [] s →
    TableOk (us ++ names) [] (Ld.enterUndefs names s) ∧
      (Ld.enterUndefs names s).objs = s.objs ∧ (Ld.enterUndefs names s).loaded = s.loaded ∧
      (Ld.enterUndefs names s).pulls = s.pulls := by
  induction names with
  | nil =>
    intro us s h
    rw [append_nil]
    exact ⟨h, rfl, rfl, rfl⟩
  | cons name names ih => ?_
  intro us s h
  have hentry := s.set_strongRef name
  have hone : TableOk (us ++ [name]) []
      { s.set name { s.gsyms name with strongRef := true } with pending := s.pending ++ [name] } := by
    refine ⟨fun n => ?_, h.oneStrong, fun n => ?_, fun n => ?_, fun n hn => ?_⟩
    · simp only [hentry]
      exact h.chosen n
    · simp only [hentry, Bool.or_eq_true, decide_eq_true_eq, h.strongRef]
      simp
    · simp only [hentry]
      intro href hundef
      rcases Bool.or_eq_true_iff.1 href with hold | heq
      · exact mem_append_left _ (h.pending n hold hundef)
      simp only [decide_eq_true_eq] at heq
      simp [heq]
    simp only [hentry]
    rcases mem_append.1 hn with hn | hn
    · simp [h.pendingRef n hn]
    simp [mem_singleton.1 hn]
  have hrest := ih hone
  rw [append_assoc] at hrest
  exact hrest

end Step

/-! ## The loop over the pending names -/

/-- The member defines the name. -/
def Obj.Defines (o : Obj) (name : String) : Prop := ∃ y ∈ o.syms, y.defines name

/-- For every name, the member the index entry in force points to defines it. -/
def Truthful (ars : List Archive) (entries : List (String × Nat × Nat)) : Prop :=
  ∀ name t o, arsyms entries name = some t → arMember ars t = .ok o → o.Defines name

/-- The name at a place in the pending list has been dealt with: it is defined, no archive offers it,
or the member in question is in. -/
def Handled (entries : List (String × Nat × Nat)) (s : Link) (name : String) : Prop :=
  (s.gsyms name).defined = true ∨ arsyms entries name = none ∨
    ∃ t, arsyms entries name = some t ∧ t ∈ s.loaded

/-- The state of the loop before round `i`. -/
structure LoopInv (inp : Inputs) (entries : List (String × Nat × Nat)) (i : Nat) (s : Link) :
    Prop where
  table : TableOk inp.undefs (occs 0 s.objs) s
  handled : ∀ j < i, ∀ name, s.pending[j]? = some name → Handled entries s name
  loaded : s.loaded = s.pulls.map Pull.member
  /-- A member was pulled for a name that was strongly referenced and undefined. -/
  pulledFor : ∀ p ∈ s.pulls, p.entry.strongRef = true ∧ p.entry.defined = false ∧
    arsyms entries p.name = some p.member
  /-- The objects are those of the command line and the members pulled, in order. -/
  objs : ∃ os, s.objs = inp.objs ++ os ∧
    s.pulls.reverse.map (fun p => arMember inp.archives p.member) = os.map Except.ok

section Loop

variable {inp : Inputs} {entries : List (String × Nat × Nat)} {i : Nat} {s s' : Link}

theorem LoopInv.next (h : LoopInv inp entries i s) (hi : s.pending[i]? = some name)
    (hname : Handled entries s name) : LoopInv inp entries (i + 1) s := by
  refine { h with handled := fun j hj n hn => ?_ }
  rcases Nat.lt_succ_iff_lt_or_eq.1 hj with hlt | rfl
  · exact h.handled j hlt n hn
  rw [hi] at hn
  cases hn
  exact hname

theorem arPull_some (h : arPull entries s name = some t) : arsyms entries name = some t ∧ t ∉ s.loaded := by
  unfold arPull at h
  split at h
  · simp at h
  rename_i u hu
  split at h
  · simp at h
  rename_i hl
  cases h
  exact ⟨hu, hl⟩

theorem arPull_none (h : arPull entries s name = none) : Handled entries s name := by
  unfold arPull at h
  split at h
  · next hn => exact .inr (.inl hn)
  rename_i t ht
  split at h
  · next hl => exact .inr (.inr ⟨t, ht, hl⟩)
  · simp at h

/-- **A round that pulls a member** for a name that is still undefined. -/
theorem LoopInv.pull (h : LoopInv inp entries i s)
    (hi : s.pending[i]? = some name) (hundef : (s.gsyms name).defined = false)
    (hpull : arPull entries s name = some t) (hmember : arMember inp.archives t = .ok o)
    (hadd : addSymbols (s.pull name t o) s.objs.length o = .ok s') :
    LoopInv inp entries (i + 1) s' ∧ Grows (s.pull name t o) s' o.syms.length := by
  obtain ⟨htarget, hout⟩ := arPull_some hpull
  have htable : TableOk inp.undefs (occs 0 s.objs) (s.pull name t o) := { h.table with }
  obtain ⟨hnew, hgrow⟩ := htable.addSyms hadd
  have hloaded : s'.loaded = t :: s.loaded := hgrow.loaded
  have hpulls : s'.pulls = ⟨name, t, s.gsyms name⟩ :: s.pulls := hgrow.pulls
  have hobjs : s'.objs = s.objs ++ [o] := hgrow.objs
  obtain ⟨more, hpending, -⟩ := hgrow.pending
  have hpending : s'.pending = s.pending ++ more := hpending
  have hlen : i < s.pending.length := (List.getElem?_eq_some_iff.1 hi).1
  refine ⟨⟨?_, fun j hj n hn => ?_, ?_, ?_, ?_⟩, hgrow⟩
  · rw [hobjs, occs_append, zero_add, occs, occs, append_nil]
    exact hnew
  · rw [hpending, getElem?_append_left (by omega)] at hn
    rcases Nat.lt_succ_iff_lt_or_eq.1 hj with hlt | rfl
    · rcases h.handled j hlt n hn with hd | hnone | ⟨u, hu, hul⟩
      · exact .inl (hgrow.defined n hd)
      · exact .inr (.inl hnone)
      exact .inr (.inr ⟨u, hu, by rw [hloaded]; exact mem_cons_of_mem _ hul⟩)
    rw [hi] at hn
    cases hn
    exact .inr (.inr ⟨t, htarget, by rw [hloaded]; exact mem_cons_self ..⟩)
  · rw [hloaded, hpulls, map_cons, h.loaded]
  · rw [hpulls]
    exact forall_mem_cons.2 ⟨⟨h.table.pendingRef name (mem_of_getElem? hi), hundef, htarget⟩, h.pulledFor⟩
  obtain ⟨os, hos, hmap⟩ := h.objs
  refine ⟨os ++ [o], by rw [hobjs, hos, append_assoc], ?_⟩
  rw [hpulls, reverse_cons, map_append, hmap, map_append]
  simp [hmember]

theorem outWeight_cons_le (ars : List Archive) (t : Nat × Nat) (loaded : List (Nat × Nat)) :
    outWeight ars (t :: loaded) entries ≤ outWeight ars loaded entries := by
  induction entries with
  | nil => exact Nat.le.refl
  | cons e es ih => ?_
  simp only [outWeight, mem_cons]
  by_cases hl : e.2 ∈ loaded
  · simpa [hl] using ih
  rw [if_neg hl]
  split <;> omega

/-- Taking a member in lowers what the members still out can add by its symbols. -/
theorem outWeight_cons (ars : List Archive) {loaded : List (Nat × Nat)}
    (ht : t ∉ loaded) (hin : ∃ e ∈ entries, e.2 = t) :
    outWeight ars (t :: loaded) entries + weight ars t ≤ outWeight ars loaded entries := by
  induction entries with
  | nil =>
    obtain ⟨e, he, -⟩ := hin
    cases he
  | cons e es ih => ?_
  simp only [outWeight, mem_cons]
  by_cases he : e.2 = t
  · have hle := @outWeight_cons_le es ars t loaded
    rw [he, if_pos (.inl rfl), if_neg ht]
    omega
  have hin' : ∃ e ∈ es, e.2 = t := by
    obtain ⟨d, hd, hdt⟩ := hin
    rcases mem_cons.1 hd with rfl | hd
    · exact absurd hdt he
    exact ⟨d, hd, hdt⟩
  have hle := ih hin'
  by_cases hl : e.2 ∈ loaded
  · simpa [hl] using hle
  rw [if_neg (by tauto), if_neg hl]
  omega

theorem arsyms_mem (h : arsyms entries name = some t) : ∃ e ∈ entries, e.1 = name ∧ e.2 = t := by
  obtain ⟨e, he, ht⟩ := Option.map_eq_some_iff.1 h
  have hname := find?_some he
  exact ⟨e, mem_of_find?_eq_some he, by simpa using hname, ht⟩

/-- **The loop** gets through the whole pending list. -/
theorem LoopInv.run (fuel : Nat) : ∀ {i : Nat} {s : Link}, LoopInv inp entries i s →
    roundsLeft inp.archives entries i s ≤ fuel →
    pullLoop inp.archives entries fuel i s = .ok s' →
    LoopInv inp entries s'.pending.length s' := by
  induction fuel with
  | zero =>
    intro i s h hfuel hrun
    obtain rfl := Except.ok.inj hrun
    have hdone : s.pending.length ≤ i := by
      unfold roundsLeft at hfuel
      omega
    exact { h with handled := fun j hj => h.handled j (by omega) }
  | succ fuel ih => ?_
  intro i s h hfuel hrun
  rw [pullLoop] at hrun
  cases hi : s.pending[i]? with
  | none =>
    rw [hi] at hrun
    cases hrun
    have hdone := getElem?_eq_none_iff.1 hi
    exact { h with handled := fun j hj => h.handled j (by omega) }
  | some name => ?_
  rw [hi] at hrun
  have hlen : i < s.pending.length := (List.getElem?_eq_some_iff.1 hi).1
  have hless : roundsLeft inp.archives entries (i + 1) s ≤ fuel := by
    unfold roundsLeft at hfuel ⊢
    omega
  simp only at hrun
  split at hrun
  · next hdef => exact ih (h.next hi (.inl hdef)) hless hrun
  rename_i hundef
  cases hpull : arPull entries s name with
  | none =>
    rw [hpull] at hrun
    exact ih (h.next hi (arPull_none hpull)) hless hrun
  | some t => ?_
  rw [hpull] at hrun
  simp only at hrun
  cases hmember : arMember inp.archives t with
  | error e =>
    rw [hmember] at hrun
    simp at hrun
  | ok o => ?_
  rw [hmember] at hrun
  simp only at hrun
  split at hrun
  · simp at hrun
  rename_i s1 hadd
  obtain ⟨hinv, hgrow⟩ := h.pull hi (by simpa using hundef) hpull hmember hadd
  refine ih hinv ?_ hrun
  -- the names the member adds are paid for by the member
  obtain ⟨htarget, hout⟩ := arPull_some hpull
  obtain ⟨e, he, -, het⟩ := arsyms_mem htarget
  have hsum := outWeight_cons inp.archives hout ⟨e, he, het⟩
  have hweight : weight inp.archives t = o.syms.length := by rw [weight, hmember]
  obtain ⟨more, hpending, hmore⟩ := hgrow.pending
  have hloaded : s1.loaded = t :: s.loaded := hgrow.loaded
  have hplen : s1.pending.length = s.pending.length + more.length := by
    rw [hpending, length_append]
    rfl
  unfold roundsLeft at hfuel ⊢
  rw [hloaded, hplen]
  omega

end Loop

/-! ## Resolution -/

/-- What is to hold when resolution has finished. -/
structure Resolved (inp : Inputs) (entries : List (String × Nat × Nat)) (s : Link) : Prop where
  /-- Nothing strongly referenced is undefined while an index offers a member that is not in and
  defines it. -/
  closed : ∀ name, (s.gsyms name).strongRef = true → (s.gsyms name).defined = false →
    ∀ e ∈ entries, e.1 = name → e.2 ∉ s.loaded → ∀ o, arMember inp.archives e.2 = .ok o →
      ¬ o.Defines name
  /-- The members that are in were pulled for names strongly referenced and undefined then. -/
  loaded : s.loaded = s.pulls.map Pull.member
  pulledFor : ∀ p ∈ s.pulls, p.entry.strongRef = true ∧ p.entry.defined = false ∧
    arsyms entries p.name = some p.member
  objs : ∃ os, s.objs = inp.objs ++ os ∧
    s.pulls.reverse.map (fun p => arMember inp.archives p.member) = os.map Except.ok
  /-- The definition in the table is the strong one, or the first weak one. -/
  chosen : ∀ name, match choose (defs name (occs 0 s.objs)) with
    | none => (s.gsyms name).defined = false
    | some d => (s.gsyms name).defined = true ∧ (s.gsyms name).weak = d.weak ∧
        (s.gsyms name).obj = d.obj ∧ (s.gsyms name).symidx = d.symidx ∧
        (s.gsyms name).hidden = d.hidden
  oneStrong : ∀ name, ((defs name (occs 0 s.objs)).filter fun d => !d.weak).length ≤ 1

theorem mem_symOccs {k j : Nat} (hy : y ∈ ys) : ∃ c ∈ symOccs k j ys, c.sym = y := by
  induction ys generalizing j with
  | nil => cases hy
  | cons z zs ih => ?_
  rcases mem_cons.1 hy with rfl | hy
  · exact ⟨⟨k, j, y⟩, mem_cons_self .., rfl⟩
  obtain ⟨c, hc, hcy⟩ := ih hy
  exact ⟨c, mem_cons_of_mem _ hc, hcy⟩

theorem defs_ne_nil (ho : o ∈ os) (hd : o.Defines name) : ∀ k, defs name (occs k os) ≠ [] := by
  obtain ⟨y, hy, hyd⟩ := hd
  induction os with
  | nil => cases ho
  | cons a as ih => ?_
  intro k
  unfold defs
  rw [occs, filter_append, map_append]
  rcases mem_cons.1 ho with rfl | ho
  · obtain ⟨c, hc, hcy⟩ := mem_symOccs hy
    have hin : c ∈ (symOccs k 0 o.syms).filter fun c => c.sym.defines name :=
      mem_filter.2 ⟨hc, by rw [hcy]; simpa using hyd⟩
    intro hnil
    have hfirst := (append_eq_nil_iff.1 hnil).1
    rw [map_eq_nil_iff] at hfirst
    rw [hfirst] at hin
    cases hin
  exact fun hnil => ih ho (k + 1) (append_eq_nil_iff.1 hnil).2

theorem LoopInv.mem_objs {i : Nat} (h : LoopInv inp entries i s) (ht : t ∈ s.loaded) :
    ∃ o ∈ s.objs, arMember inp.archives t = .ok o := by
  obtain ⟨os, hos, hmap⟩ := h.objs
  rw [h.loaded] at ht
  obtain ⟨p, hp, rfl⟩ := mem_map.1 ht
  have hin : arMember inp.archives p.member ∈ os.map (ok : Obj → Except String Obj) := by
    rw [← hmap]
    exact mem_map_of_mem (mem_reverse.2 hp)
  obtain ⟨o, ho, heq⟩ := mem_map.1 hin
  exact ⟨o, by rw [hos]; exact mem_append_right _ ho, heq.symm⟩

/-- The loop starts from the table of the command line. -/
theorem resolveSymbols_inv
    (h : resolveSymbols inp entries = .ok s) : LoopInv inp entries s.pending.length s := by
  have hempty : TableOk [] [] ⟨inp.objs, fun _ => {}, [], [], []⟩ :=
    ⟨fun _ => rfl, fun _ => by simp [defs], by simp, by simp, by simp⟩
  obtain ⟨hundefs, hobjs, hloaded, hpulls⟩ := TableOk.enterUndefs hempty
  simp only [resolveSymbols] at h
  split at h
  · simp at h
  rename_i s1 hadd
  obtain ⟨htable, hobjs', hloaded', hpulls'⟩ := hundefs.addObjs hadd
  have hinit : LoopInv inp entries 0 s1 := by
    refine ⟨?_, fun j hj => by omega, ?_, ?_, ⟨[], ?_, ?_⟩⟩
    · rw [hobjs', hobjs]
      exact htable
    · rw [hloaded', hpulls', hloaded, hpulls]
      rfl
    · rw [hpulls', hpulls]
      exact forall_mem_nil _
    · rw [hobjs', hobjs, append_nil]
    rw [hpulls', hpulls]
    rfl
  exact hinit.run _ Nat.le.refl h

/-- **Resolution is a closure**, when the index entries in force point to members that define their
names. -/
theorem loadAndResolve_closure (inp : Inputs) (entries : List (String × Nat × Nat)) (s : Link)
    (h : loadAndResolve inp = .ok (entries, s)) (htrue : Truthful inp.archives entries) :
    Resolved inp entries s := by
  have hres : resolveSymbols inp entries = .ok s := by
    unfold loadAndResolve at h
    split at h
    · simp at h
    split at h
    · simp at h
    rename_i s' hs
    obtain ⟨rfl, rfl⟩ := Prod.mk.inj (Except.ok.inj h)
    exact hs
  have inv := resolveSymbols_inv hres
  refine ⟨?_, inv.loaded, inv.pulledFor, inv.objs, inv.table.chosen, inv.table.oneStrong⟩
  intro name href hundef e he hname hout o hmember hdef
  obtain ⟨j, hj⟩ := mem_iff_getElem?.1 (inv.table.pending name href hundef)
  have hlen := (List.getElem?_eq_some_iff.1 hj).1
  rcases inv.handled j hlen name hj with hd | hnone | ⟨t, ht, hin⟩
  · rw [hundef] at hd
    simp at hd
  · -- no index has the name, and yet there is this entry
    have hnot := find?_eq_none.1 (Option.map_eq_none_iff.1 hnone) e he
    exact hnot (by simpa using hname)
  -- the member in force is in, and it defines the name
  obtain ⟨o', hobj, ho'⟩ := inv.mem_objs hin
  have hd := inv.table.defined_iff name |>.2 (defs_ne_nil hobj (htrue name t o' ht ho') 0)
  rw [hundef] at hd
  simp at hd

/-- An object that calls `f`. -/
def callerObj : Obj := ⟨"main.o", [⟨some "f", .global, .undef, false⟩]⟩

/-- An archive whose index offers `f` in the member at offset 8, which defines `name`. -/
def libOf (path name : String) : Archive where
  path := path
  size := 100
  index := some [0, 0, 0, 1, 0, 0, 0, 8, 102, 0]
  bare := false
  member := fun _ => .ok ⟨path, [⟨some name, .global, .section, false⟩]⟩

/-- The caller and a library with `f`: the member is pulled, and `f` is defined. -/
theorem loadAndResolve_closure_caller :
    ∃ entries s, loadAndResolve ⟨[], [callerObj], [libOf "lib.a" "f"]⟩ = .ok (entries, s) ∧
      s.loaded = [(0, 8)] ∧ (s.gsyms "f").defined = true ∧
      Resolved ⟨[], [callerObj], [libOf "lib.a" "f"]⟩ entries s := by
  have hrun : (match loadAndResolve ⟨[], [callerObj], [libOf "lib.a" "f"]⟩ with
      | .ok (entries, s) => decide (entries = [("f", 0, 8)] ∧ s.loaded = [(0, 8)] ∧
          (s.gsyms "f").defined = true)
      | .error _ => false) = true := by decide +kernel
  cases h : loadAndResolve ⟨[], [callerObj], [libOf "lib.a" "f"]⟩ with
  | error e =>
    rw [h] at hrun
    simp at hrun
  | ok r => ?_
  rw [h] at hrun
  obtain ⟨hentries, hloaded, hdef⟩ := of_decide_eq_true hrun
  refine ⟨r.1, r.2, rfl, hloaded, hdef, loadAndResolve_closure _ _ _ h ?_⟩
  intro name t o ht ho
  obtain ⟨e, he, rfl, rfl⟩ := arsyms_mem ht
  rw [hentries] at he
  obtain rfl := mem_singleton.1 he
  obtain rfl := Except.ok.inj (ho : ok _ = ok o)
  exact ⟨_, mem_cons_self .., rfl, .inl rfl, rfl⟩

/-- The index of the first library is out of date: it offers `f` in a member that does not define it.
The second library has `f`, its member is not pulled, and `f` stays undefined. -/
theorem loadAndResolve_stale_index : ∃ entries s,
      loadAndResolve ⟨[], [callerObj], [libOf "old.a" "g", libOf "new.a" "f"]⟩ = .ok (entries, s) ∧
      ¬ Resolved ⟨[], [callerObj], [libOf "old.a" "g", libOf "new.a" "f"]⟩ entries s := by
  have hrun : (match loadAndResolve ⟨[], [callerObj], [libOf "old.a" "g", libOf "new.a" "f"]⟩ with
      | .ok (entries, s) => decide (("f", 1, 8) ∈ entries ∧ (1, 8) ∉ s.loaded ∧
          (s.gsyms "f").strongRef = true ∧ (s.gsyms "f").defined = false)
      | .error _ => false) = true := by decide +kernel
  cases h : loadAndResolve ⟨[], [callerObj], [libOf "old.a" "g", libOf "new.a" "f"]⟩ with
  | error e =>
    rw [h] at hrun
    simp at hrun
  | ok r => ?_
  rw [h] at hrun
  obtain ⟨hentry, hout, href, hundef⟩ := of_decide_eq_true hrun
  refine ⟨r.1, r.2, rfl, fun hres => ?_⟩
  exact hres.closed "f" href hundef _ hentry rfl hout _ rfl ⟨_, mem_cons_self .., rfl, .inl rfl, rfl⟩

end Embedded.Toolchain.Ld
