import Mathlib.Data.Nat.ModEq

/-! # Rings: a queue in an array that wraps around -/

namespace Embedded

open Function (update update_of_ne)

variable {α : Type} {buf : Nat → α} {size tail n : Nat}

/-- The `n` elements from `tail` on, around the end of the array. -/
def ringList (buf : Nat → α) (size tail n : Nat) : List α :=
  (List.range n).map fun i => buf ((tail + i) % size)

theorem ring_ne {i : Nat} (hi : i < n) (hn : n < size) : (tail + i) % size ≠ (tail + n) % size := by
  intro h
  have hmod : i % size = n % size := Nat.ModEq.add_left_cancel' tail h
  rw [Nat.mod_eq_of_lt (hi.trans hn), Nat.mod_eq_of_lt hn] at hmod
  omega

/-- The cell behind the last element holds none of them. -/
theorem ringList_update (hn : n < size) (x : α) :
    ringList (update buf ((tail + n) % size) x) size tail n = ringList buf size tail n := by
  refine List.map_congr_left fun i hi => ?_
  rw [update_of_ne (ring_ne (List.mem_range.1 hi) hn)]

theorem ringList_push :
    ringList buf size tail (n + 1) = ringList buf size tail n ++ [buf ((tail + n) % size)] := by
  rw [ringList, List.range_succ, List.map_append, List.map_singleton, ringList]

theorem ringList_pop :
    ringList buf size tail (n + 1) = buf (tail % size) :: ringList buf size ((tail + 1) % size) n := by
  rw [ringList, List.range_succ_eq_map, List.map_cons, List.map_map, ringList]
  congr 1
  refine List.map_congr_left fun i _ => ?_
  rw [Function.comp_apply, Nat.mod_add_mod, Nat.add_right_comm, Nat.add_assoc]

end Embedded
