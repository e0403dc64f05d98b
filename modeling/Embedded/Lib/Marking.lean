import Mathlib.Data.Finset.Card
import Mathlib.Order.Bounds.Defs

/-! # Marking with a worklist

The nodes that are marked, and a stack of those whose successors have not been looked at. Only nodes that
are `ok` are marked, each one once. Draining the stack marks what the successors reach; it takes as many
rounds as there are nodes. -/

namespace Embedded

open List

variable {α : Type} [DecidableEq α]

structure Marking (α : Type) where
  mark : Finset α
  wl : List α

namespace Marking

/-- Mark a node, unless it can't be or is. -/
def add (ok : α → Bool) (s : Marking α) (x : α) : Marking α :=
  if !ok x || x ∈ s.mark then s else ⟨insert x s.mark, x :: s.wl⟩

/-- Mark the nodes of a list. -/
def addAll (ok : α → Bool) (s : Marking α) (xs : List α) : Marking α := xs.foldl (add ok) s

/-- Take nodes off the stack and mark their successors, until it is empty; nothing when the fuel is used
up. -/
def drain (ok : α → Bool) (succ : α → List α) : Nat → Marking α → Option (Marking α)
  | 0, _ => none
  | fuel + 1, s =>
    match s.wl with
    | [] => some s
    | x :: rest => drain ok succ fuel (addAll ok { s with wl := rest } (succ x))

variable {ok : α → Bool} {succ : α → List α} {s s' : Marking α}

theorem add_cases (ok : α → Bool) (s : Marking α) (x : α) : (add ok s x = s ∧ (ok x → x ∈ s.mark)) ∨
      (add ok s x = ⟨insert x s.mark, x :: s.wl⟩ ∧ ok x ∧ x ∉ s.mark) := by
  unfold add
  by_cases hx : x ∈ s.mark <;> cases ok x <;> simp [hx]

theorem mem_mark_add {x y : α} : y ∈ (add ok s x).mark ↔ y ∈ s.mark ∨ y = x ∧ ok x := by
  rcases add_cases ok s x with ⟨h, hx⟩ | ⟨h, hok, -⟩ <;> rw [h]
  · refine (or_iff_left_of_imp ?_).symm
    rintro ⟨rfl, ho⟩
    exact hx ho
  simp [hok, or_comm]

theorem mem_wl_add {x y : α} : y ∈ (add ok s x).wl ↔ y ∈ s.wl ∨ y = x ∧ ok x ∧ x ∉ s.mark := by
  rcases add_cases ok s x with ⟨h, hx⟩ | ⟨h, hok, hx⟩ <;> rw [h]
  · exact (or_iff_left fun hy => hy.2.2 (hx hy.2.1)).symm
  · simp [hok, hx, or_comm]

theorem mem_mark_addAll {xs : List α} {y : α} : y ∈ (addAll ok s xs).mark ↔ y ∈ s.mark ∨ y ∈ xs ∧ ok y := by
  induction xs generalizing s with
  | nil => simp [addAll]
  | cons x xs ih => ?_
  rw [addAll, foldl_cons, ← addAll, ih, mem_mark_add, mem_cons]
  constructor
  · rintro ((h | ⟨rfl, h⟩) | ⟨h, hy⟩)
    · exact .inl h
    · exact .inr ⟨.inl rfl, h⟩
    exact .inr ⟨.inr h, hy⟩
  rintro (h | ⟨rfl | h, hy⟩)
  · exact .inl (.inl h)
  · exact .inl (.inr ⟨rfl, hy⟩)
  exact .inr ⟨h, hy⟩

theorem mem_wl_addAll {xs : List α} {y : α} :
    y ∈ (addAll ok s xs).wl ↔ y ∈ s.wl ∨ y ∈ xs ∧ ok y ∧ y ∉ s.mark := by
  induction xs generalizing s with
  | nil => simp [addAll]
  | cons x xs ih => ?_
  rw [addAll, foldl_cons, ← addAll, ih, mem_wl_add, mem_mark_add, mem_cons]
  constructor
  · rintro ((h | ⟨rfl, h, hm⟩) | ⟨h, hy, hm⟩)
    · exact .inl h
    · exact .inr ⟨.inl rfl, h, hm⟩
    exact .inr ⟨.inr h, hy, fun hs => hm (.inl hs)⟩
  rintro (h | ⟨h, hy, hm⟩)
  · exact .inl (.inl h)
  by_cases hx : y = x
  · subst hx
    exact .inl (.inr ⟨rfl, hy, hm⟩)
  refine .inr ⟨h.resolve_left hx, hy, ?_⟩
  rintro (hs | ⟨rfl, -⟩)
  · exact hm hs
  · exact hx rfl

/-! ## Rounds -/

/-- What is left to do: the nodes not marked, and those on the stack. -/
def todo (V : Finset α) (s : Marking α) : Nat := (V \ s.mark).card + s.wl.length

theorem todo_add {V : Finset α} (hV : ∀ x, ok x → x ∈ V) (x : α) : todo V (add ok s x) = todo V s := by
  rcases add_cases ok s x with ⟨h, -⟩ | ⟨h, hok, hx⟩ <;> rw [h]
  have hx : x ∈ V \ s.mark := Finset.mem_sdiff.2 ⟨hV x hok, hx⟩
  have hcard := Finset.card_erase_of_mem hx
  have hpos := Finset.card_pos.2 ⟨x, hx⟩
  unfold todo
  rw [Finset.sdiff_insert, hcard, length_cons]
  omega

theorem todo_addAll {V : Finset α} (hV : ∀ x, ok x → x ∈ V) (xs : List α) :
    todo V (addAll ok s xs) = todo V s := by
  induction xs generalizing s with
  | nil => rfl
  | cons x xs ih => rw [addAll, foldl_cons, ← addAll, ih, todo_add hV]

theorem exists_drain (succ : α → List α) {V : Finset α} (hV : ∀ x, ok x → x ∈ V) {fuel : Nat} (h : todo V s < fuel) :
    ∃ s', drain ok succ fuel s = some s' := by
  induction fuel generalizing s with
  | zero => exact absurd h (Nat.not_lt_zero _)
  | succ fuel ih => ?_
  rw [drain]
  split
  · exact ⟨s, rfl⟩
  next x rest hwl =>
  apply ih
  rw [todo_addAll hV]
  unfold todo at h ⊢
  rw [hwl, length_cons] at h
  exact Nat.lt_of_succ_lt_succ h

/-! ## What is marked -/

/-- The successors of a marked node are marked, or the node is still on the stack. -/
structure Open (ok : α → Bool) (succ : α → List α) (s : Marking α) : Prop where
  marked : ∀ x ∈ s.wl, x ∈ s.mark
  followed : ∀ x ∈ s.mark, x ∈ s.wl ∨ ∀ y ∈ succ x, ok y → y ∈ s.mark

/-- Marking the successors that are missing. -/
theorem open_addAll {xs : List α} (hm : ∀ x ∈ s.wl, x ∈ s.mark)
    (hf : ∀ x ∈ s.mark, x ∈ s.wl ∨ ∀ y ∈ succ x, ok y → y ∈ s.mark ∨ y ∈ xs) :
    Open ok succ (addAll ok s xs) := by
  constructor
  · intro y hy
    rcases mem_wl_addAll.1 hy with hy | ⟨hy, hok, -⟩
    · exact mem_mark_addAll.2 (.inl (hm y hy))
    exact mem_mark_addAll.2 (.inr ⟨hy, hok⟩)
  intro y hy
  by_cases hold : y ∈ s.mark
  · rcases hf y hold with hw | hs
    · exact .inl (mem_wl_addAll.2 (.inl hw))
    exact .inr fun z hz hok => mem_mark_addAll.2 ((hs z hz hok).imp_right fun h => ⟨h, hok⟩)
  obtain ⟨hx, hok⟩ := (mem_mark_addAll.1 hy).resolve_left hold
  exact .inl (mem_wl_addAll.2 (.inr ⟨hx, hok, hold⟩))

theorem Open.addAll {s : Marking α} (h : Open ok succ s) (xs : List α) : Open ok succ (addAll ok s xs) :=
  open_addAll h.marked fun x hx => (h.followed x hx).imp_right fun hs y hy hok => .inl (hs y hy hok)

/-- Taking a node off the stack and marking its successors. -/
theorem Open.pop {x : α} {rest : List α} (h : Open ok succ s) (hwl : s.wl = x :: rest) :
    Open ok succ (Marking.addAll ok { s with wl := rest } (succ x)) := by
  refine open_addAll (fun y hy => h.marked y (by rw [hwl]; exact mem_cons_of_mem _ hy)) fun y hy => ?_
  by_cases hx : y = x
  · subst hx
    exact .inr fun z hz _ => .inr hz
  rcases h.followed y hy with hw | hs
  · rw [hwl, mem_cons] at hw
    exact .inl (hw.resolve_left hx)
  exact .inr fun z hz hok => .inl (hs z hz hok)

/-- What a drain leaves: an empty stack, what was marked before, all followed, and nothing that a closed
set has not got. -/
structure Drained (ok : α → Bool) (succ : α → List α) (s s' : Marking α) : Prop where
  empty : s'.wl = []
  sub : s.mark ⊆ s'.mark
  followed : ∀ x ∈ s'.mark, ∀ y ∈ succ x, ok y → y ∈ s'.mark
  least : ∀ M : Set α, (∀ x ∈ s.mark, x ∈ M) → (∀ x ∈ M, ∀ y ∈ succ x, ok y → y ∈ M) →
    ∀ x ∈ s'.mark, x ∈ M

theorem Open.drained {fuel : Nat} (h : Open ok succ s) (hd : drain ok succ fuel s = some s') :
    Drained ok succ s s' := by
  induction fuel generalizing s with
  | zero => cases hd
  | succ fuel ih => ?_
  rw [drain] at hd
  split at hd
  next hwl =>
    cases hd
    refine ⟨hwl, subset_rfl, fun x hx => ?_, fun M hM _ => hM⟩
    rcases h.followed x hx with hw | hs
    · rw [hwl] at hw
      cases hw
    exact hs
  next x rest hwl =>
  have hx : x ∈ s.mark := h.marked x (by rw [hwl]; exact mem_cons_self ..)
  have hdr := ih (h.pop hwl) hd
  refine ⟨hdr.empty, fun y hy => hdr.sub (mem_mark_addAll.2 (.inl hy)), hdr.followed,
    fun M hM hclosed => ?_⟩
  refine hdr.least M (fun y hy => ?_) hclosed
  rcases mem_mark_addAll.1 hy with hy | ⟨hy, hok⟩
  · exact hM y hy
  · exact hclosed x (hM x hx) y hy hok

end Marking

end Embedded
