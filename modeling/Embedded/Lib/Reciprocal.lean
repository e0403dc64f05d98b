import Mathlib.Tactic.Ring
import Mathlib.Tactic.Linarith
import Mathlib.Tactic.Positivity

/-! # Division by multiplication with a reciprocal

Instead of dividing `n` by `d` one multiplies by `M` and divides by a power of two `P`, where
`M * d = P + e`. The product is right as long as the error `n * e` stays below the distance of `n`
to the next multiple of `d`, measured in units of `P`; among all `n < t` that is decided by the
largest one that is `-1` modulo `d`. -/

namespace Embedded

variable {d M P e n t : Nat}

theorem div_mul_mul_le (n d P : Nat) : n / d * P * d ≤ n * P := by
  calc n / d * P * d = n / d * d * P := by ring
    _ ≤ n * P := Nat.mul_le_mul_right P (Nat.div_mul_le_self n d)

/-- With two units of room left, one of them holds the part past the number `c`. -/
theorem err_lt_past {c : Nat} (hn : n = c + 1 + n % d) (hc : 1 + n % d ≤ c) (hroom : n % d + 2 ≤ d)
    (hcrit : c * e < P) : n * e < (d - n % d) * P := by
  have h1 : (1 + n % d) * e ≤ c * e := Nat.mul_le_mul_right e hc
  have h2 : n * e = c * e + (1 + n % d) * e := by
    rw [← add_mul]
    congr 1
    omega
  have h3 : 2 * P ≤ (d - n % d) * P := Nat.mul_le_mul_right P (by omega)
  omega

variable (hM : M * d = P + e)
include hM

variable (hd : 0 < d)
include hd

/-- Both sides of the comparison, times `d`. -/
theorem reciprocal_expand : n * M * d = n * P + n * e ∧ (n / d + 1) * P * d = n * P + (d - n % d) * P := by
  have hmod : n % d < d := Nat.mod_lt _ hd
  have hn : d * (n / d) + n % d = n := Nat.div_add_mod n d
  constructor
  · rw [mul_assoc, hM, mul_add]
  have hsum : (n / d + 1) * d = n + (d - n % d) := by
    rw [add_mul, one_mul, mul_comm (n / d) d]
    omega
  calc (n / d + 1) * P * d = (n / d + 1) * d * P := by ring
    _ = n * P + (d - n % d) * P := by rw [hsum, add_mul]

theorem mul_lt_of_err (h : n * e < (d - n % d) * P) : n * M < (n / d + 1) * P := by
  obtain ⟨h1, h2⟩ := reciprocal_expand (n := n) hM hd
  refine Nat.lt_of_mul_lt_mul_right (a := d) ?_
  omega

theorem mul_le_of_err (h : n * e ≤ (d - n % d) * P) : n * M ≤ (n / d + 1) * P := by
  obtain ⟨h1, h2⟩ := reciprocal_expand (n := n) hM hd
  refine Nat.le_of_mul_le_mul_right (c := d) ?_ hd
  omega

/-- The reciprocal is never too small. -/
theorem le_mul_of_err : n / d * P ≤ n * M := by
  refine Nat.le_of_mul_le_mul_right (c := d) ?_ hd
  have h1 := (reciprocal_expand (n := n) hM hd).1
  have h2 := div_mul_mul_le n d P
  omega

/-- With some error the reciprocal is strictly too large. -/
theorem lt_mul_of_err (he : 0 < e) (hn : 0 < n) : n / d * P < n * M := by
  refine Nat.lt_of_mul_lt_mul_right (a := d) ?_
  have h1 := (reciprocal_expand (n := n) hM hd).1
  have h2 := div_mul_mul_le n d P
  have h3 : 0 < n * e := Nat.mul_pos hn he
  omega

/-- **Division by a reciprocal.** -/
theorem mul_div_eq_of_err (h : n * e < (d - n % d) * P) : n * M / P = n / d := by
  refine Nat.div_eq_of_lt_le (le_mul_of_err hM hd) ?_
  exact mul_lt_of_err hM hd h

omit hM

/-- The numbers at which the error counts most: the largest one below `t` that is `-1` modulo `d`. -/
theorem critical_spec (ht : d ≤ t) :
    d - 1 ≤ t - 1 - t % d ∧ t - 1 - t % d + 1 = d * (t / d) ∧ t - 1 - t % d < t ∧ t ≤ t - 1 - t % d + d := by
  have hmod : t % d < d := Nat.mod_lt _ hd
  have hn : d * (t / d) + t % d = t := Nat.div_add_mod t d
  have hq : d ≤ d * (t / d) := Nat.le_mul_of_pos_right d (Nat.div_pos ht hd)
  omega

/-- The remainder of a number past the critical one. -/
theorem mod_of_critical_lt (ht : d ≤ t) (hlt : t - 1 - t % d < n)
    (hle : n < t - 1 - t % d + 1 + d) : n = t - 1 - t % d + 1 + n % d := by
  obtain ⟨-, hq, -, -⟩ := critical_spec hd ht
  have : n % d = n - d * (t / d) := by
    rw [Nat.mod_eq_sub_mul_div]
    have hdiv : n / d = t / d := by
      refine Nat.div_eq_of_lt_le ?_ ?_
      · rw [mul_comm]
        omega
      rw [mul_comm, mul_add]
      omega
    rw [hdiv]
  omega

/-- An error small enough at the critical number is small enough everywhere below `t`. -/
theorem err_lt (ht : d ≤ t) (hcrit : (t - 1 - t % d) * e < P) (hn : n < t) : n * e < (d - n % d) * P := by
  obtain ⟨hge, -, -, hup⟩ := critical_spec hd ht
  have hmod : n % d < d := Nat.mod_lt _ hd
  rcases lt_or_ge (t - 1 - t % d) n with hlt | hle
  · have hr := mod_of_critical_lt hd ht hlt (by omega)
    exact err_lt_past hr (by omega) (by omega) hcrit
  have h1 : n * e ≤ (t - 1 - t % d) * e := Nat.mul_le_mul_right e hle
  have h2 : 1 * P ≤ (d - n % d) * P := Nat.mul_le_mul_right P (by omega)
  omega

/-- At `t` itself the error may reach the bound: when `t` is `-1` modulo `d` and `P` is a multiple
    of `t`, the error is no more than that multiple. -/
theorem err_le_top {k : Nat} (ht : d ≤ t) (hcrit : (t - 1 - t % d) * e < P)
    (hP : P = t * k) (hk : 0 < k) (he : e ≤ d) (hdvd : d ∣ P + e) : t * e ≤ (d - t % d) * P := by
  have hmod : t % d < d := Nat.mod_lt _ hd
  rcases lt_or_ge (t % d + 1) d with hlt | hge
  · have hlt' := err_lt hd ht hcrit (critical_spec hd ht).2.2.1
    obtain ⟨hgec, -, hc, -⟩ := critical_spec hd ht
    exact (err_lt_past (by omega) (by omega) (by omega) hcrit).le
  -- here `t` is `-1`, so `P` is `-k` and the error is the residue of `k`
  have hone : d - t % d = 1 := by omega
  have hle : e ≤ k := by
    by_contra hlt
    have h1 : d ∣ t + 1 := by
      refine (Nat.dvd_iff_mod_eq_zero ..).2 ?_
      rw [Nat.add_mod]
      rcases lt_or_ge 1 d with hd1 | hd1
      · rw [Nat.mod_eq_of_lt hd1, show t % d + 1 = d by omega, Nat.mod_self]
      obtain rfl : d = 1 := by omega
      simp [Nat.mod_one]
    have h2 : P + e = (t + 1) * k + (e - k) := by
      rw [hP, add_mul, one_mul]
      omega
    have h3 : d ∣ e - k := by
      rw [h2] at hdvd
      exact (Nat.dvd_add_right (Dvd.dvd.mul_right h1 k)).1 hdvd
    have h4 := Nat.le_of_dvd (by omega) h3
    omega
  rw [hone, one_mul, hP]
  exact Nat.mul_le_mul_left t hle

end Embedded
