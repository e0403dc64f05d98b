import Mathlib.Tactic.Ring

/-! # Numbers as bit strings

`lsb n v` is the low `n` bits of `v`, the lowest first; `msb n v` has the highest first. A byte
string is the bit string of its bytes, each lowest bit first. -/

namespace Embedded

open List

/-- The low `n` bits of `v`, lowest first. -/
def lsb : Nat → Nat → List Bool
  | 0, _ => []
  | n + 1, v => decide (v % 2 = 1) :: lsb n (v / 2)

/-- The low `n` bits of `v`, highest first. -/
def msb : Nat → Nat → List Bool
  | 0, _ => []
  | n + 1, v => decide (v / 2 ^ n % 2 = 1) :: msb n v

/-- The number with the bits `bs`, lowest first. -/
def ofLsb : List Bool → Nat
  | [] => 0
  | b :: bs => b.toNat + 2 * ofLsb bs

/-- The bits of a byte string. -/
def bitsOf (bytes : List UInt8) : List Bool := bytes.flatMap fun c => lsb 8 c.toNat

@[simp] theorem lsb_length (n v : Nat) : (lsb n v).length = n := by
  induction n generalizing v with
  | zero => rfl
  | succ n ih => rw [lsb, length_cons, ih]

@[simp] theorem msb_length (n v : Nat) : (msb n v).length = n := by
  induction n with
  | zero => rfl
  | succ n ih => rw [msb, length_cons, ih]

theorem bitsOf_cons (c : UInt8) (bytes : List UInt8) :
    bitsOf (c :: bytes) = lsb 8 c.toNat ++ bitsOf bytes := rfl

theorem bitsOf_append (as bs : List UInt8) : bitsOf (as ++ bs) = bitsOf as ++ bitsOf bs := flatMap_append

@[simp] theorem bitsOf_length (bytes : List UInt8) : (bitsOf bytes).length = 8 * bytes.length := by
  induction bytes with
  | nil => rfl
  | cons c bytes ih =>
    rw [bitsOf_cons, length_append, lsb_length, ih, length_cons]
    ring

theorem decide_mod_two_toNat (v : Nat) : (decide (v % 2 = 1)).toNat = v % 2 := by
  rcases Nat.mod_two_eq_zero_or_one v with h | h <;> rw [h] <;> rfl

theorem ofLsb_lsb (n v : Nat) : ofLsb (lsb n v) = v % 2 ^ n := by
  induction n generalizing v with
  | zero => rw [Nat.pow_zero, Nat.mod_one]; rfl
  | succ n ih =>
    rw [lsb, ofLsb, ih, decide_mod_two_toNat, Nat.pow_succ', Nat.mod_mul]

theorem ofLsb_lt (bs : List Bool) : ofLsb bs < 2 ^ bs.length := by
  induction bs with
  | nil => exact Nat.one_pos
  | cons b bs ih =>
    rw [ofLsb, length_cons, Nat.pow_succ']
    have hb := Bool.toNat_le b
    omega

theorem lsb_ofLsb (bs : List Bool) : lsb bs.length (ofLsb bs) = bs := by
  induction bs with
  | nil => rfl
  | cons b bs ih => ?_
  rw [length_cons, lsb, ofLsb]
  have hdiv : (b.toNat + 2 * ofLsb bs) / 2 = ofLsb bs := by
    have hb := Bool.toNat_le b
    omega
  rw [hdiv, ih, Nat.add_mul_mod_self_left]
  cases b <;> rfl

/-- Bits of a sum whose parts do not meet. -/
theorem lsb_add_shift {m a : Nat} (ha : a < 2 ^ m) (n b : Nat) :
    lsb (m + n) (a + 2 ^ m * b) = lsb m a ++ lsb n b := by
  induction m generalizing a with
  | zero =>
    obtain rfl : a = 0 := by omega
    rw [zero_add, Nat.pow_zero, one_mul, zero_add]
    rfl
  | succ m ih => ?_
  have hdiv : (a + 2 ^ (m + 1) * b) / 2 = a / 2 + 2 ^ m * b := by
    rw [Nat.pow_succ', mul_assoc, Nat.add_mul_div_left _ _ (by decide : 0 < 2)]
  have hmod : (a + 2 ^ (m + 1) * b) % 2 = a % 2 := by
    rw [Nat.pow_succ', mul_assoc, Nat.add_mul_mod_self_left]
  rw [show m + 1 + n = (m + n) + 1 by omega, lsb, hdiv, hmod, ih (by rw [Nat.pow_succ'] at ha; omega)]
  rfl

theorem lsb_mod (n v : Nat) : lsb n (v % 2 ^ n) = lsb n v := by
  induction n generalizing v with
  | zero => rfl
  | succ n ih => ?_
  have hmod : v % 2 ^ (n + 1) % 2 = v % 2 := by rw [Nat.pow_succ', Nat.mod_mul_right_mod]
  have hdiv : v % 2 ^ (n + 1) / 2 = v / 2 % 2 ^ n := by rw [Nat.pow_succ', Nat.mod_mul_right_div_self]
  rw [lsb, lsb, hmod, hdiv, ih]

theorem lsb_split {n m v : Nat} (h : n ≤ m) : lsb m v = lsb n v ++ lsb (m - n) (v / 2 ^ n) := by
  have hsum := lsb_add_shift (Nat.mod_lt v (Nat.two_pow_pos n)) (m - n) (v / 2 ^ n)
  rw [Nat.mod_add_div, Nat.add_sub_cancel' h, lsb_mod] at hsum
  exact hsum

theorem lsb_inj {n v w : Nat} (h : lsb n v = lsb n w) : v % 2 ^ n = w % 2 ^ n := by
  rw [← ofLsb_lsb, ← ofLsb_lsb, h]

theorem bitsOf_inj {as bs : List UInt8} (h : bitsOf as = bitsOf bs) : as = bs := by
  induction as generalizing bs with
  | nil =>
    have hlen := congrArg length h
    rw [bitsOf_length, bitsOf_length] at hlen
    exact (eq_nil_of_length_eq_zero (by rw [length_nil] at hlen; omega)).symm
  | cons a as ih => ?_
  cases bs with
  | nil =>
    have hlen := congrArg length h
    rw [bitsOf_length, bitsOf_length, length_cons, length_nil] at hlen
    omega
  | cons b bs => ?_
  obtain ⟨hbyte, hrest⟩ := append_inj h (by rw [lsb_length, lsb_length])
  have hval := lsb_inj hbyte
  rw [Nat.mod_eq_of_lt a.toNat_lt, Nat.mod_eq_of_lt b.toNat_lt] at hval
  rw [UInt8.toNat_inj.1 hval, ih hrest]

/-- Whole bytes of bits are the bits of a byte string. -/
theorem exists_bitsOf {bs : List Bool} {n : Nat} (h : bs.length = 8 * n) : ∃ bytes, bs = bitsOf bytes := by
  induction n generalizing bs with
  | zero => exact ⟨[], eq_nil_of_length_eq_zero h⟩
  | succ n ih => ?_
  obtain ⟨bytes, hbytes⟩ := @ih (bs.drop 8) (by rw [length_drop]; omega)
  have hlen : (bs.take 8).length = 8 := by
    rw [length_take]
    omega
  have hlt := ofLsb_lt (bs.take 8)
  rw [hlen] at hlt
  refine ⟨UInt8.ofNat (ofLsb (bs.take 8)) :: bytes, ?_⟩
  have hbyte := lsb_ofLsb (bs.take 8)
  rw [hlen] at hbyte
  rw [bitsOf_cons, UInt8.toNat_ofNat_of_lt' hlt, hbyte, ← hbytes, take_append_drop]

end Embedded
