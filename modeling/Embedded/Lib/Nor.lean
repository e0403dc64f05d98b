import Mathlib.Tactic.Common
import Mathlib.Data.List.GetD

/-! # NOR memory

Memory whose writes can only clear bits: programming ANDs bytes into what is there, erasing sets a range to
all ones. -/

namespace Embedded.Lib

open List

/-- A memory of bytes. -/
abbrev Nor := Nat → UInt8

namespace Nor

/-- Memory after `buf` is written at `offset`. -/
def program (m : Nor) (offset : Nat) (buf : List UInt8) : Nor := fun a =>
  if offset ≤ a ∧ a < offset + buf.length then m a &&& buf.getD (a - offset) 0xFF else m a

/-- Memory after the addresses from `lo` up to `hi` are erased. -/
def erase (m : Nor) (lo hi : Nat) : Nor := fun a => if lo ≤ a ∧ a < hi then 0xFF else m a

/-- The `len` bytes at `offset`. -/
def read (m : Nor) (offset len : Nat) : List UInt8 := (List.range len).map fun i => m (offset + i)

variable {m : Nor} {a hi lo offset : Nat}

theorem program_of_lt (buf : List UInt8) (h : a < offset) : m.program offset buf a = m a := if_neg (by omega)

theorem program_of_le {buf : List UInt8} (h : offset + buf.length ≤ a) :
    m.program offset buf a = m a := if_neg (by omega)

theorem program_within {i : Nat} {buf : List UInt8} (h : i < buf.length) :
    m.program offset buf (offset + i) = m (offset + i) &&& buf.getD i 0xFF := by
  rw [program, if_pos ⟨by omega, by omega⟩, Nat.add_sub_cancel_left]

@[simp] theorem program_nil (m : Nor) (offset : Nat) : m.program offset [] = m := by
  funext a
  exact if_neg (by simp)

theorem program_append (m : Nor) (offset : Nat) (xs ys : List UInt8) :
    m.program offset (xs ++ ys) = (m.program offset xs).program (offset + xs.length) ys := by
  funext a
  rcases Nat.lt_or_ge a offset with hlo | hlo
  · rw [program_of_lt _ hlo, program_of_lt _ (by omega), program_of_lt _ hlo]
  obtain ⟨i, rfl⟩ := Nat.exists_eq_add_of_le hlo
  rcases Nat.lt_or_ge i xs.length with hx | hx
  · rw [program_within (by simp; omega), program_of_lt _ (by omega), program_within hx, getD_append _ _ _ _ hx]
  rcases Nat.lt_or_ge i (xs ++ ys).length with hy | hy
  · rw [program_within hy, getD_append_right _ _ _ _ hx]
    obtain ⟨j, rfl⟩ := Nat.exists_eq_add_of_le hx
    rw [length_append] at hy
    rw [← Nat.add_assoc, program_within (by omega), program_of_le (by omega), Nat.add_sub_cancel_left]
  rw [length_append] at hy
  rw [program_of_le (by simp; omega), program_of_le (by omega), program_of_le (by omega)]

@[simp] theorem erase_self (m : Nor) (lo : Nat) : m.erase lo lo = m := by
  funext a
  exact if_neg (by omega)

theorem erase_erase (m : Nor) {mid : Nat} (h1 : lo ≤ mid) (h2 : mid ≤ hi) :
    (m.erase lo mid).erase mid hi = m.erase lo hi := by
  funext a
  unfold erase
  by_cases hm : mid ≤ a
  · by_cases hh : a < hi
    · rw [if_pos ⟨hm, hh⟩, if_pos ⟨by omega, hh⟩]
    rw [if_neg (by omega), if_neg (by omega), if_neg (by omega)]
  rw [if_neg (by omega)]
  by_cases hl : lo ≤ a
  · rw [if_pos ⟨hl, by omega⟩, if_pos ⟨hl, by omega⟩]
  · rw [if_neg (by omega), if_neg (by omega)]

@[simp] theorem read_length (m : Nor) (offset len : Nat) : (m.read offset len).length = len := by simp [read]

theorem read_succ (m : Nor) (offset len : Nat) : m.read offset (len + 1) = m offset :: m.read (offset + 1) len := by
  rw [read, range_succ_eq_map]
  simp [read, Function.comp_def, Nat.add_comm, Nat.add_left_comm]

theorem erase_of_ge (h : hi ≤ a) : m.erase lo hi a = m a := if_neg (by omega)

theorem erase_of_lt (h : a < lo) : m.erase lo hi a = m a := if_neg (by omega)

theorem erase_within (h1 : lo ≤ a) (h2 : a < hi) : m.erase lo hi a = 0xFF := if_pos ⟨h1, h2⟩

end Nor

/-- A device with states `σ` that keeps NOR memory of `size` bytes: what its functions do to the memory when it is
ready for them and the range is inside. Only whole sectors are erased. -/
structure NorDevice (σ : Type) (sector : Nat) where
  size : Nat
  mem : σ → Nor
  Ready : σ → Prop
  read : σ → Nat → Nat → σ × List UInt8
  write : σ → Nat → List UInt8 → Option σ
  erase : σ → Nat → Nat → Option σ
  read_spec : ∀ {s offset len}, Ready s → offset + len ≤ size →
    (read s offset len).2 = (mem s).read offset len ∧ Ready (read s offset len).1 ∧
      mem (read s offset len).1 = mem s
  write_spec : ∀ {s offset buf}, Ready s → offset + buf.length ≤ size →
    ∃ s', write s offset buf = some s' ∧ Ready s' ∧ mem s' = (mem s).program offset buf
  erase_spec : ∀ {s k}, Ready s → (k + 1) * sector ≤ size →
    ∃ s', erase s (k * sector) sector = some s' ∧ Ready s' ∧ mem s' = (mem s).erase (k * sector) ((k + 1) * sector)

/-- Memory alone is a device. -/
def Nor.device (size sector : Nat) : NorDevice Nor sector where
  size := size
  mem m := m
  Ready _ := True
  read m offset len := (m, m.read offset len)
  write m offset buf := some (m.program offset buf)
  erase m offset len := some (m.erase offset (offset + len))
  read_spec _ _ := ⟨rfl, trivial, rfl⟩
  write_spec _ _ := ⟨_, rfl, trivial, rfl⟩
  erase_spec _ _ := ⟨_, rfl, trivial, by rw [Nat.add_mul, Nat.one_mul]⟩

end Embedded.Lib
