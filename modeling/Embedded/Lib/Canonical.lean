import Embedded.Lib.Bits

/-! # Canonical prefix codes

A canonical code is given by the lengths of its code words, one for each symbol; length 0 is a symbol
without a code word. The words of one length are consecutive numbers in the order of the symbols, and
they begin where the words of the shorter lengths, extended, end. -/

namespace Embedded.Canonical

variable {s m l : Nat}

variable (ls : List Nat)

/-- The length of the code word of `s`. -/
def len (s : Nat) : Nat := ls.getD s 0

/-- How many code words have length `l`. -/
def count (l : Nat) : Nat := if l = 0 then 0 else ls.count l

/-- The first code word of length `l`. -/
def first : Nat → Nat
  | 0 => 0
  | l + 1 => 2 * (first l + count ls l)

/-- How many code words are shorter than `l`. -/
def index : Nat → Nat
  | 0 => 0
  | l + 1 => index l + count ls l

/-- How many symbols before `s` have code words of its length. -/
def rank (s : Nat) : Nat := (ls.take s).count (len ls s)

/-- The code word of `s`, as a number. -/
def code (s : Nat) : Nat := first ls (len ls s) + rank ls s

/-- The code word of `s`, as it is sent. -/
def word (s : Nat) : List Bool := msb (len ls s) (code ls s)

/-- There are enough words of every length: the lengths are not over-subscribed. -/
def Fits : Prop := ∀ l, first ls l + count ls l ≤ 2 ^ l

/-- The symbol has a code word. -/
def HasWord (s : Nat) : Prop := s < ls.length ∧ len ls s ≠ 0

variable {ls}

theorem count_len (h : HasWord ls s) : count ls (len ls s) = ls.count (len ls s) := by
  unfold count
  rw [if_neg h.2]

theorem rank_lt (h : HasWord ls s) : rank ls s < count ls (len ls s) := by
  have hlt := h.1
  have hs : ls[s] = len ls s := List.getElem_eq_getD 0
  have hsplit : ls.take s ++ ls[s] :: ls.drop (s + 1) = ls := by
    rw [List.getElem_cons_drop, List.take_append_drop]
  have hcount := congrArg (List.count (len ls s)) hsplit
  rw [List.count_append, hs, List.count_cons_self] at hcount
  rw [count_len h, rank]
  omega

/-- The shorter words, extended, come before the longer ones. -/
theorem first_later (l d : Nat) : 2 ^ (d + 1) * (first ls l + count ls l) ≤ first ls (l + 1 + d) := by
  induction d with
  | zero => exact le_of_eq rfl
  | succ d ih => ?_
  calc 2 ^ (d + 1 + 1) * (first ls l + count ls l)
      = 2 * (2 ^ (d + 1) * (first ls l + count ls l)) := by rw [Nat.pow_succ']; ring
    _ ≤ 2 * (first ls (l + 1 + d) + count ls (l + 1 + d)) := by omega
    _ = first ls (l + 1 + (d + 1)) := rfl

theorem le_code_div {s l : Nat} (hl : l < len ls s) :
    first ls l + count ls l ≤ code ls s / 2 ^ (len ls s - l) := by
  rw [Nat.le_div_iff_mul_le (Nat.two_pow_pos _), Nat.mul_comm]
  obtain ⟨d, hd⟩ : ∃ d, len ls s = l + 1 + d := ⟨len ls s - l - 1, by omega⟩
  have hlater := @first_later ls l d
  rw [code, hd, show l + 1 + d - l = d + 1 by omega]
  omega

theorem code_lt (hfit : Fits ls) (h : HasWord ls s) : code ls s < 2 ^ len ls s := by
  have hrank := rank_lt h
  have hle := hfit (len ls s)
  unfold code
  omega

/-- It is enough to count up to the greatest length. -/
theorem fits_of_le (hmax : ∀ l ∈ ls, l ≤ m)
    (h : ∀ l ≤ m, first ls l + count ls l ≤ 2 ^ l) : Fits ls := by
  intro l
  induction l with
  | zero => exact h 0 (Nat.zero_le m)
  | succ l ih => ?_
  rcases lt_or_ge m (l + 1) with hlt | hge
  · have hnone : count ls (l + 1) = 0 := by
      rw [count, if_neg (Nat.succ_ne_zero l)]
      exact List.count_eq_zero.2 fun hmem => absurd (hmax _ hmem) (by omega)
    rw [hnone, first, Nat.pow_succ']
    omega
  exact h (l + 1) hge

theorem index_mono (h : l ≤ m) : index ls l ≤ index ls m := by
  induction m with
  | zero =>
    obtain rfl : l = 0 := by omega
    exact le_rfl
  | succ m ih => ?_
  rcases lt_or_ge m l with hlt | hge
  · obtain rfl : l = m + 1 := by omega
    exact le_rfl
  exact (ih hge).trans (Nat.le_add_right _ _)

theorem index_inj {r q : Nat} (hr : r < count ls l) (hq : q < count ls m)
    (h : index ls l + r = index ls m + q) : l = m := by
  have hlt : ∀ {a b x y : Nat}, x < count ls a → a < b → index ls a + x < index ls b + y := by
    intro a b x y hx hab
    have hstep : index ls a + count ls a ≤ index ls b := index_mono hab
    omega
  rcases Nat.lt_trichotomy l m with hlm | hlm | hlm
  · exact absurd h (Nat.ne_of_lt (hlt hr hlm))
  · exact hlm
  exact absurd h.symm (Nat.ne_of_lt (hlt hq hlm))

end Embedded.Canonical
