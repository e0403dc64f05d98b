import Mathlib.Tactic.Common

/-! # 32-bit machine words as natural numbers

Every `uint32_t` of the C sources is a `Nat` below `2 ^ 32`. Additions and subtractions that the
sources let wrap are written with `add32` and `sub32`; rounding to the 4 KB page is `pageDown` and
`pageUp`, where `pageUp` wraps exactly as `((x) + PAGE_MASK) & ~PAGE_MASK` does. -/

namespace Embedded

/-- `a + b` on `uint32_t`. -/
def add32 (a b : Nat) : Nat := (a + b) % 4294967296

/-- `a - b` on `uint32_t` (both operands below `2 ^ 32`). -/
def sub32 (a b : Nat) : Nat := (a + (4294967296 - b)) % 4294967296

/-- `x & ~PAGE_MASK`. -/
def pageDown (x : Nat) : Nat := x / 4096 * 4096

/-- `PAGE_UP(x)`, the wrap of the 32-bit addition included. -/
def pageUp (x : Nat) : Nat := pageDown (add32 x 4095)

theorem add32_of_lt {a b : Nat} (h : a + b < 4294967296) : add32 a b = a + b := Nat.mod_eq_of_lt h

theorem sub32_of_le {a b : Nat} (h : b ≤ a) (ha : a < 4294967296) : sub32 a b = a - b := by
  unfold sub32
  omega

theorem pageDown_le (x : Nat) : pageDown x ≤ x := by
  unfold pageDown; omega

theorem pageDown_mod (x : Nat) : pageDown x % 4096 = 0 := by
  unfold pageDown; omega

theorem pageUp_mod (x : Nat) : pageUp x % 4096 = 0 := pageDown_mod _

theorem pageUp_lt (x : Nat) : pageUp x < 4294967296 := by
  unfold pageUp pageDown add32; omega

/-- Away from the top of the address space `PAGE_UP` rounds up. -/
theorem le_pageUp {x : Nat} (h : x ≤ 0xFFFFF000) : x ≤ pageUp x := by
  unfold pageUp pageDown add32; omega

theorem pageUp_of_mod {x : Nat} (h : x % 4096 = 0) (hx : x < 4294967296) : pageUp x = x := by
  unfold pageUp pageDown add32; omega

theorem pageUp_le_of_le {x y : Nat} (h : x ≤ y) (hy : y % 4096 = 0) : pageUp x ≤ y := by
  unfold pageUp pageDown add32; omega

end Embedded
