import Mathlib.Tactic.Common

/-! # Hash tables with chains of indices

Entries are numbered from 1 on. `bucket b` is the entry at the head of a bucket, `chain y` the entry that
follows `y`; 0 ends a chain. An entry is put in front of its bucket. Filling a table with consecutive
entries makes the chain of every bucket the list of its entries, the newest first: the chains end, and
nothing is missing. -/

namespace Embedded

open List

structure Chains where
  bucket : Nat → Nat
  chain : Nat → Nat

namespace Chains

def empty : Chains := ⟨fun _ => 0, fun _ => 0⟩

/-- The entry `y` in front of the bucket `b`. -/
def prepend (t : Chains) (b y : Nat) : Chains :=
  ⟨Function.update t.bucket b y, Function.update t.chain y (t.bucket b)⟩

/-- Entries from `y` on, with their buckets. -/
def fill : Chains → Nat → List Nat → Chains
  | t, _, [] => t
  | t, y, b :: bs => fill (t.prepend b y) (y + 1) bs

/-- The entries of a bucket, the newest first. -/
def members : Nat → List Nat → Nat → List Nat
  | _, [], _ => []
  | y, b' :: bs, b => members (y + 1) bs b ++ if b' = b then [y] else []

/-- The chain from `i` on is the list. -/
def IsPath (t : Chains) : Nat → List Nat → Prop
  | i, [] => i = 0
  | i, j :: js => i = j ∧ j ≠ 0 ∧ IsPath t (t.chain j) js

theorem IsPath.prepend {t : Chains} {b y i : Nat} {js : List Nat} (h : t.IsPath i js)
    (hlt : ∀ j ∈ js, j < y) : (t.prepend b y).IsPath i js := by
  induction js generalizing i with
  | nil => exact h
  | cons j js ih => ?_
  obtain ⟨h1, h2, h3⟩ := h
  refine ⟨h1, h2, ?_⟩
  have hj : j ≠ y := Nat.ne_of_lt (hlt j mem_cons_self)
  show (t.prepend b y).IsPath (Function.update t.chain y (t.bucket b) j) js
  rw [Function.update_of_ne hj]
  exact ih h3 (forall_mem_cons.1 hlt).2

/-- What is filled in comes in front of what was there. -/
theorem fill_isPath {t : Chains} {y b : Nat} {bs js : List Nat} (hy : 0 < y)
    (h : t.IsPath (t.bucket b) js) (hlt : ∀ j ∈ js, j < y) :
    (t.fill y bs).IsPath ((t.fill y bs).bucket b) (members y bs b ++ js) := by
  induction bs generalizing t y js with
  | nil => exact h
  | cons b' bs ih => ?_
  rw [fill, members, append_assoc]
  have hlt' : ∀ j ∈ (if b' = b then [y] else []) ++ js, j < y + 1 := by
    intro j hj
    rcases mem_append.1 hj with hj | hj
    · by_cases hb : b' = b
      · rw [if_pos hb, mem_singleton] at hj
        omega
      rw [if_neg hb] at hj
      cases hj
    have := hlt j hj
    omega
  refine ih (Nat.succ_pos y) ?_ hlt'
  by_cases hb : b' = b
  · subst hb
    have hhead : (t.prepend b' y).bucket b' = y := Function.update_self ..
    have hnext : (t.prepend b' y).chain y = t.bucket b' := Function.update_self ..
    rw [hhead, if_pos rfl]
    refine ⟨rfl, by omega, ?_⟩
    rw [hnext]
    exact h.prepend hlt
  have hhead : (t.prepend b' y).bucket b = t.bucket b := Function.update_of_ne (Ne.symm hb) ..
  rw [hhead, if_neg hb]
  exact h.prepend hlt

/-- **The chains of a filled table** are its buckets. -/
theorem fill_empty_isPath {first : Nat} (hfirst : 0 < first) (bs : List Nat) (b : Nat) :
    (empty.fill first bs).IsPath ((empty.fill first bs).bucket b) (members first bs b) := by
  have h := @fill_isPath empty first b bs [] hfirst rfl fun j hj => absurd hj not_mem_nil
  rw [append_nil] at h
  exact h

theorem mem_members {first b y : Nat} {bs : List Nat} :
    y ∈ members first bs b ↔ first ≤ y ∧ bs[y - first]? = some b := by
  induction bs generalizing first with
  | nil => simp [members]
  | cons b' bs ih => ?_
  rw [members, mem_append, ih]
  have hlast : y ∈ (if b' = b then [first] else []) ↔ b' = b ∧ y = first := by
    split
    next hb => simp [hb]
    next hb => simp [hb]
  rw [hlast]
  rcases Nat.lt_trichotomy y first with h | h | h
  · constructor
    · rintro (h' | h') <;> omega
    omega
  · subst h
    constructor
    · rintro (h' | h')
      · omega
      exact ⟨Nat.le.refl, by simp [h'.1]⟩
    exact fun h' => .inr (by simpa using h'.2)
  have hsub : y - first = (y - (first + 1)) + 1 := by omega
  rw [hsub, getElem?_cons_succ]
  constructor
  · rintro (h' | h')
    · exact ⟨by omega, h'.2⟩
    omega
  exact fun h' => .inl ⟨by omega, h'.2⟩

theorem length_members_le (first : Nat) (bs : List Nat) (b : Nat) :
    (members first bs b).length ≤ bs.length := by
  induction bs generalizing first with
  | nil => simp [members]
  | cons b' bs ih =>
    have := ih (first + 1)
    rw [members, length_append, length_cons]
    split <;> simp <;> omega

end Chains

end Embedded
