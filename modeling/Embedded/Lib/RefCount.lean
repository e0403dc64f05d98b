import Mathlib.Data.Set.Card

/-! # Reference counts

A table of slots (`σ`) that may point to objects (`ω`), and a count for every live object. `Exact`
says that a count is the number of slots that point to the object, plus the references a running
operation holds outside the table. The lemmas are the moves of code that counts references: create
an object, take and drop a reference, store one in a slot and take it out again. -/

namespace Embedded

open Function Multiset

variable {σ ω : Type}

/-- How many slots point to `o`. -/
noncomputable def refs (t : σ → Option ω) (o : ω) : Nat := {s | t s = some o}.ncard

section Refs

variable {t : σ → Option ω} {s : σ} {o : ω}

variable (hfin : {s | t s ≠ none}.Finite)
include hfin

theorem finite_slots (o : ω) : {s | t s = some o}.Finite :=
  hfin.subset fun s (hs : t s = some o) => by simp [hs]

omit hfin in
theorem refs_eq_zero (h : ∀ s, t s ≠ some o) : refs t o = 0 := by
  have hset : {s | t s = some o} = ∅ := by
    ext s
    simp [h s]
  rw [refs, hset, Set.ncard_empty]

theorem refs_pos : 0 < refs t o ↔ ∃ s, t s = some o := Set.ncard_pos (finite_slots hfin o)

variable [DecidableEq σ]

theorem finite_update (s : σ) (v : Option ω) : {a | update t s v a ≠ none}.Finite := by
  refine (hfin.insert s).subset fun a ha => ?_
  by_cases has : a = s
  · exact .inl has
  simp only [Set.mem_ofPred_eq, update_of_ne has] at ha
  exact .inr ha

variable [DecidableEq ω]

theorem refs_install (hs : t s = none) (o o' : ω) :
    refs (update t s (some o)) o' = refs t o' + if o' = o then 1 else 0 := by
  by_cases ho : o' = o
  · subst ho
    have hset : {a | update t s (some o') a = some o'} = insert s {a | t a = some o'} := by
      ext a
      by_cases ha : a = s
      · simp [ha]
      simp [ha]
    rw [refs, hset, Set.ncard_insert_of_notMem (by simp [hs]) (finite_slots hfin o'), if_pos rfl, refs]
  have hset : {a | update t s (some o) a = some o'} = {a | t a = some o'} := by
    ext a
    by_cases ha : a = s
    · subst ha
      simp [hs, Ne.symm ho]
    simp [update_of_ne ha]
  rw [refs, hset, if_neg ho, refs, add_zero]

theorem refs_remove (hs : t s = some o) (o' : ω) :
    refs t o' = refs (update t s none) o' + if o' = o then 1 else 0 := by
  have h := refs_install (finite_update hfin s none) (update_self s none t) o o'
  rwa [update_idem, ← hs, update_eq_self] at h

end Refs

/-- The count of every live object is the number of slots that point to it, plus the references in
    `held`; slots and `held` refer to live objects only, and an object without references is not
    live. -/
structure Exact [DecidableEq ω] (t : σ → Option ω) (count : ω → Option Int) (held : Multiset ω) : Prop where
  fin : {s | t s ≠ none}.Finite
  live : ∀ s o, t s = some o → count o ≠ none
  heldLive : ∀ o ∈ held, count o ≠ none
  exact : ∀ o n, count o = some n → n = refs t o + held.count o
  pos : ∀ o n, count o = some n → 0 < n

namespace Exact

variable [DecidableEq ω] {t : σ → Option ω} {count : ω → Option Int} {held : Multiset ω} {s : σ} {o : ω} {n : Int}

variable (h : Exact t count held)
include h

/-- One more held reference to an object, with the count that it should have. -/
theorem hold (hn : n = refs t o + held.count o + 1) : Exact t (update count o (some n)) (o ::ₘ held) := by
  have hne : ∀ o', count o' ≠ none → update count o (some n) o' ≠ none := by
    intro o' ho'
    by_cases heq : o' = o
    · simp [heq]
    rwa [update_of_ne heq]
  refine ⟨h.fin, fun s o' hs => hne o' (h.live s o' hs), fun o' ho' => ?_, fun o' m hm => ?_,
    fun o' m hm => ?_⟩
  · rcases mem_cons.1 ho' with rfl | ho'
    · simp
    exact hne o' (h.heldLive o' ho')
  · by_cases heq : o' = o
    · subst heq
      rw [update_self, Option.some.injEq] at hm
      rw [count_cons_self]
      omega
    rw [update_of_ne heq] at hm
    rw [count_cons_of_ne heq]
    exact h.exact o' m hm
  by_cases heq : o' = o
  · subst heq
    rw [update_self, Option.some.injEq] at hm
    omega
  rw [update_of_ne heq] at hm
  exact h.pos o' m hm

theorem create (ho : count o = none) : Exact t (update count o (some 1)) (o ::ₘ held) := by
  have hrefs : refs t o = 0 := refs_eq_zero fun s hs => h.live s o hs ho
  refine h.hold ?_
  rw [hrefs, count_eq_zero_of_notMem fun hm => h.heldLive o hm ho]
  rfl

theorem take (ho : count o = some n) : Exact t (update count o (some (n + 1))) (o ::ₘ held) :=
  h.hold (by rw [h.exact o n ho])

omit h in
theorem install [DecidableEq σ] (h : Exact t count (o ::ₘ held)) (hs : t s = none) :
    Exact (update t s (some o)) count held := by
  refine ⟨finite_update h.fin s _, fun s' o' hs' => ?_, fun o' ho' => ?_, fun o' m hm => ?_, h.pos⟩
  · by_cases heq : s' = s
    · subst heq
      rw [update_self] at hs'
      cases hs'
      exact h.heldLive o (mem_cons_self o held)
    rw [update_of_ne heq] at hs'
    exact h.live s' o' hs'
  · exact h.heldLive o' (mem_cons_of_mem ho')
  have hx := h.exact o' m hm
  rw [count_cons] at hx
  rw [refs_install h.fin hs]
  by_cases heq : o' = o
  · rw [if_pos heq] at hx ⊢
    omega
  rw [if_neg heq] at hx ⊢
  omega

theorem remove [DecidableEq σ] (hs : t s = some o) : Exact (update t s none) count (o ::ₘ held) := by
  refine ⟨finite_update h.fin s _, fun s' o' hs' => ?_, fun o' ho' => ?_, fun o' m hm => ?_, h.pos⟩
  · by_cases heq : s' = s
    · rw [heq, update_self] at hs'
      cases hs'
    rw [update_of_ne heq] at hs'
    exact h.live s' o' hs'
  · rcases mem_cons.1 ho' with rfl | ho'
    · exact h.live s o' hs
    exact h.heldLive o' ho'
  have hx := h.exact o' m hm
  rw [refs_remove h.fin hs] at hx
  rw [count_cons]
  by_cases heq : o' = o
  · rw [if_pos heq] at hx ⊢
    omega
  rw [if_neg heq] at hx ⊢
  omega

omit h

theorem drop (h : Exact t count (o ::ₘ held)) (ho : count o = some n) :
    Exact t (update count o (if n - 1 ≤ 0 then none else some (n - 1))) held := by
  have hx := h.exact o n ho
  rw [count_cons_self] at hx
  have hkeep : ∀ o' c, update count o (if n - 1 ≤ 0 then none else some (n - 1)) o' = some c →
      (o' = o ∧ c = n - 1 ∧ 0 < c) ∨ (o' ≠ o ∧ count o' = some c) := by
    intro o' c hc
    by_cases heq : o' = o
    · subst heq
      rw [update_self] at hc
      split at hc
      · cases hc
      rw [Option.some.injEq] at hc
      exact .inl ⟨rfl, hc.symm, by omega⟩
    rw [update_of_ne heq] at hc
    exact .inr ⟨heq, hc⟩
  -- while something else refers to the object, it stays
  have hlive : ∀ o', (o' = o → 0 < refs t o ∨ o ∈ held) → count o' ≠ none →
      update count o (if n - 1 ≤ 0 then none else some (n - 1)) o' ≠ none := by
    intro o' hr ho'
    by_cases heq : o' = o
    · subst heq
      have hr := hr rfl
      rw [← count_pos] at hr
      rw [update_self, if_neg (by omega)]
      simp
    rwa [update_of_ne heq]
  refine ⟨h.fin, fun s o' hs => ?_, fun o' ho' => ?_, fun o' c hc => ?_, fun o' c hc => ?_⟩
  · refine hlive o' (fun heq => .inl ?_) (h.live s o' hs)
    exact (refs_pos h.fin).2 ⟨s, heq ▸ hs⟩
  · exact hlive o' (fun heq => .inr (heq ▸ ho')) (h.heldLive o' (mem_cons_of_mem ho'))
  · rcases hkeep o' c hc with ⟨rfl, rfl, _⟩ | ⟨hne, hc⟩
    · omega
    have := h.exact o' c hc
    rwa [count_cons_of_ne hne] at this
  rcases hkeep o' c hc with ⟨_, _, hp⟩ | ⟨_, hc⟩
  · exact hp
  · exact h.pos o' c hc

theorem live_iff (h : Exact t count 0) : count o ≠ none ↔ ∃ s, t s = some o := by
  constructor
  · intro ho
    obtain ⟨n, hn⟩ := Option.ne_none_iff_exists'.1 ho
    have hx := h.exact o n hn
    have hp := h.pos o n hn
    rw [count_zero] at hx
    exact (refs_pos h.fin).1 (by omega)
  rintro ⟨s, hs⟩
  exact h.live s o hs

end Exact

end Embedded
