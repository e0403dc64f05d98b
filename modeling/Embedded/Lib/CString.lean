import Mathlib.Tactic.Common

/-! # C strings

A string is the bytes before its terminating zero. In memory it is followed by the zero and by whatever
comes next. -/

namespace Embedded

open List

/-- A C string. -/
structure CStr where
  bytes : List UInt8
  no_nul : 0 ∉ bytes
deriving DecidableEq

theorem CStr.bytes_inj {s t : CStr} : s.bytes = t.bytes ↔ s = t := by
  cases s
  cases t
  rw [CStr.mk.injEq]

/-- The comparison of the string at a pointer with `name`, byte by byte up to the first difference or the
end; no result if the memory ends before that. -/
def strEq : List UInt8 → List UInt8 → Option Bool
  | [], _ => none
  | a :: _, [] => some (a == 0)
  | a :: as, b :: bs => if a ≠ 0 ∧ a = b then strEq as bs else some (a == b)

theorem strEq_append {s name : List UInt8} (hs : 0 ∉ s) (hn : 0 ∉ name) (rest : List UInt8) :
    strEq (s ++ 0 :: rest) name = some (decide (s = name)) := by
  induction s generalizing name with
  | nil =>
    cases name with
    | nil => rfl
    | cons b bs =>
      rw [mem_cons, not_or] at hn
      rw [nil_append, strEq, if_neg (fun h => h.1 rfl)]
      simp [hn.1]
  | cons a as ih => ?_
  rw [mem_cons, not_or] at hs
  cases name with
  | nil => simp [strEq, Ne.symm hs.1]
  | cons b bs => ?_
  rw [mem_cons, not_or] at hn
  rw [cons_append, strEq]
  by_cases hab : a = b
  · rw [if_pos ⟨Ne.symm hs.1, hab⟩, ih hs.2 hn.2]
    simp [hab]
  rw [if_neg fun h => hab h.2]
  simp [hab]

/-- A string table to which a string is appended; the string is at the old end. -/
def strAdd (tab : List UInt8) (name : CStr) : List UInt8 × Nat := (tab ++ (name.bytes ++ [0]), tab.length)

/-- The table after several strings, and where they are. -/
def strAddAll : List UInt8 → List CStr → List UInt8 × List Nat
  | tab, [] => (tab, [])
  | tab, name :: names =>
    let r := strAdd tab name
    let r' := strAddAll r.1 names
    (r'.1, r.2 :: r'.2)

/-- The string is in the table at this place. -/
def StrAt (tab : List UInt8) (name : CStr) (off : Nat) : Prop :=
  ∃ rest, tab.drop off = name.bytes ++ 0 :: rest

theorem StrAt.append {tab : List UInt8} {name : CStr} {off : Nat} (h : StrAt tab name off)
    (more : List UInt8) : StrAt (tab ++ more) name off := by
  obtain ⟨rest, hrest⟩ := h
  refine ⟨rest ++ more, ?_⟩
  have hoff : off ≤ tab.length := by
    by_contra hgt
    rw [drop_eq_nil_of_le (by omega)] at hrest
    simp at hrest
  rw [drop_append_of_le_length hoff, hrest]
  simp

theorem strAdd_at (tab : List UInt8) (name : CStr) : StrAt (strAdd tab name).1 name (strAdd tab name).2 :=
  ⟨[], by simp [strAdd]⟩

/-- The strings that were added are where they are said to be, also when others follow. -/
theorem strAddAll_spec (tab : List UInt8) (names : List CStr) :
    (∃ more, (strAddAll tab names).1 = tab ++ more) ∧
      List.Forall₂ (StrAt (strAddAll tab names).1) names (strAddAll tab names).2 := by
  induction names generalizing tab with
  | nil => exact ⟨⟨[], by simp [strAddAll]⟩, List.Forall₂.nil⟩
  | cons name names ih => ?_
  obtain ⟨⟨more, hmore⟩, hall⟩ := ih (strAdd tab name).1
  refine ⟨⟨(name.bytes ++ [0]) ++ more, ?_⟩, List.Forall₂.cons ?_ hall⟩
  · show (strAddAll (strAdd tab name).1 names).1 = _
    rw [hmore, strAdd, append_assoc]
  show StrAt (strAddAll (strAdd tab name).1 names).1 name _
  rw [hmore]
  exact (strAdd_at tab name).append more

end Embedded
