import Mathlib.Tactic.Common

/-! # Computations on fuel

A recursion that is not structural takes fuel and stops in one of three ways: with a result, with an error
of its own, or because the fuel is used up. `Ran` says that the fuel was enough; `Agrees` orders
computations by that: what the smaller one finds out, the larger one finds out too. Both go through
sequencing, so that monotonicity in the fuel and termination are proved along the text of a program. -/

namespace Embedded

variable {ε α β : Type}

/-- How a computation ends without a result. -/
inductive Stop (ε : Type)
  | fuel
  | die (e : ε)

/-- A computation that needs no fuel. -/
def Stop.lift : Except ε α → Except (Stop ε) α
  | .ok a => .ok a
  | .error e => .error (.die e)

theorem Stop.lift_ok_bind (a : α) (f : α → Except (Stop ε) β) : Stop.lift (.ok a) >>= f = f a := rfl

theorem Stop.lift_error_bind (e : ε) (f : α → Except (Stop ε) β) :
    Stop.lift (.error e) >>= f = .error (.die e) := rfl

theorem Stop.eq_ok_of_lift {x : Except ε α} {a : α} (h : Stop.lift x = .ok a) : x = .ok a := by
  cases x with
  | error e => cases h
  | ok b =>
    cases h
    rfl

/-- The fuel was enough. -/
def Ran (x : Except (Stop ε) α) : Prop := x ≠ .error .fuel

theorem Ran.ok (a : α) : Ran (.ok a : Except (Stop ε) α) := nofun

theorem Ran.die (e : ε) : Ran (.error (.die e) : Except (Stop ε) α) := nofun

theorem Ran.lift (x : Except ε α) : Ran (Stop.lift x) := by
  cases x with
  | ok a => exact .ok a
  | error e => exact .die e

variable {x : Except (Stop ε) α}

theorem Ran.bind {f : α → Except (Stop ε) β} (hx : Ran x)
    (hf : ∀ a, x = .ok a → Ran (f a)) : Ran (x >>= f) := by
  cases x with
  | ok a => exact hf a rfl
  | error e =>
    cases e with
    | fuel => exact absurd rfl hx
    | die e => exact .die e

theorem Ran.map (f : α → β) (hx : Ran x) : Ran (f <$> x) := by
  cases x with
  | ok a => exact .ok (f a)
  | error e =>
    cases e with
    | fuel => exact absurd rfl hx
    | die e => exact .die e

theorem Ran.exists_lift (hx : Ran x) : ∃ r : Except ε α, x = Stop.lift r := by
  cases x with
  | ok a => exact ⟨.ok a, rfl⟩
  | error e =>
    cases e with
    | fuel => exact absurd rfl hx
    | die e => exact ⟨.error e, rfl⟩

/-- `y` ends as `x` does, unless `x` runs out of fuel. -/
def Agrees (x y : Except (Stop ε) α) : Prop := Ran x → y = x

namespace Agrees

theorem refl (x : Except (Stop ε) α) : Agrees x x := fun _ => rfl

theorem out (y : Except (Stop ε) α) : Agrees (.error .fuel) y := fun h => absurd rfl h

variable {x y : Except (Stop ε) α}

theorem bind {f g : α → Except (Stop ε) β} (h : Agrees x y)
    (hfg : ∀ a, Agrees (f a) (g a)) : Agrees (x >>= f) (y >>= g) := by
  cases x with
  | ok a =>
    rw [h (.ok a)]
    exact hfg a
  | error e => ?_
  cases e with
  | fuel => exact out _
  | die e =>
    rw [h (.die e)]
    exact fun _ => rfl

theorem map (f : α → β) (h : Agrees x y) : Agrees (f <$> x) (f <$> y) := by
  cases x with
  | ok a =>
    rw [h (.ok a)]
    exact refl _
  | error e => ?_
  cases e with
  | fuel => exact out _
  | die e =>
    rw [h (.die e)]
    exact refl _

theorem ran (h : Agrees x y) (hx : Ran x) : Ran y := by
  rw [h hx]
  exact hx

end Agrees

/-- Computations on fuel that agree from one unit to the next agree for any more fuel. -/
theorem Agrees.of_succ (f : Nat → Except (Stop ε) α) (h : ∀ n, Agrees (f n) (f (n + 1))) {n m : Nat}
    (hnm : n ≤ m) : Agrees (f n) (f m) := by
  induction hnm with
  | refl => exact .refl _
  | step _ ih =>
    intro hx
    rw [h _ (ih.ran hx), ih hx]

end Embedded
