import Embedded.Lib.Word
import Mathlib.Tactic.Ring

/-! # Words read as signed numbers

Two's complement on the 32-bit words of `Lib/Word`: `toS` reads a word as a signed number, `ofS`
wraps a number into a word. -/

namespace Embedded

variable {x y : Nat}

/-- The `int` with the bits of the word `x`. -/
def toS (x : Nat) : Int := if x < 2147483648 then x else (x : Int) - 4294967296

/-- The word that holds `z`, wrapped. -/
def ofS (z : Int) : Nat := (z % 4294967296).toNat

theorem ofS_lt (z : Int) : ofS z < 4294967296 := by
  unfold ofS
  omega

theorem toS_range (h : x < 4294967296) : -2147483648 ≤ toS x ∧ toS x < 2147483648 := by
  unfold toS
  split <;> omega

theorem toS_ofS {z : Int} (h1 : -2147483648 ≤ z) (h2 : z < 2147483648) : toS (ofS z) = z := by
  unfold toS ofS
  split <;> omega

theorem ofS_toS (h : x < 4294967296) : ofS (toS x) = x := by
  unfold toS ofS
  split <;> omega

theorem toS_inj (hx : x < 4294967296) (hy : y < 4294967296) (h : toS x = toS y) : x = y := by
  rw [← ofS_toS hx, ← ofS_toS hy, h]

theorem add32_eq_ofS (x y : Nat) : add32 x y = ofS (toS x + toS y) := by
  unfold add32 ofS toS
  split <;> split <;> omega

theorem sub32_eq_ofS (hy : y < 4294967296) : sub32 x y = ofS (toS x - toS y) := by
  unfold sub32 ofS toS
  split <;> split <;> omega

theorem toS_nonneg_iff (h : x < 4294967296) : 0 ≤ toS x ↔ x < 2147483648 := by
  unfold toS
  split <;> omega

theorem toS_emod (x : Nat) : toS x % 4294967296 = (x : Int) % 4294967296 := by
  unfold toS
  split <;> omega

end Embedded
