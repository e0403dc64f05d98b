import Embedded.Lib.Signed

/-! # LEB128

Numbers in groups of seven bits, the lowest first; every byte but the last has its top bit set. The
writers take 64-bit numbers, the readers collect a 32-bit word. A reader applied to what the writer
made of a number returns the number, wrapped into the word, and what follows. -/

namespace Embedded

open List

variable {val shift : Nat} {v : Int}

/-! ## Writers -/

/-- The groups of `v`, at most `fuel` of them. -/
def ulebLoop : Nat → Nat → List UInt8
  | 0, _ => []
  | fuel + 1, v =>
    if v / 128 = 0 then [UInt8.ofNat (v % 128)]
    else UInt8.ofNat (v % 128 + 128) :: ulebLoop fuel (v / 128)

/-- An unsigned 64-bit number. -/
def uleb (v : Nat) : List UInt8 := ulebLoop 10 v

/-- The groups of a signed number: the last one has the sign as its top bit. -/
def slebLoop : Nat → Int → List UInt8
  | 0, _ => []
  | fuel + 1, v =>
    let b := (v % 128).toNat
    if v / 128 = 0 ∧ b < 64 ∨ v / 128 = -1 ∧ 64 ≤ b then [UInt8.ofNat b]
    else UInt8.ofNat (b + 128) :: slebLoop fuel (v / 128)

/-- A signed 64-bit number. -/
def sleb (v : Int) : List UInt8 := slebLoop 10 v

/-! ## Readers -/

/-- A group is put in its place; bits beyond the word are lost. -/
def putGroup (val shift b : Nat) : Nat := val ||| ((b % 128) <<< shift) % 4294967296

/-- The last byte of a number, the shift behind it, the word and the bytes that follow. -/
def readGroups : List UInt8 → Nat → Nat → Option (Nat × Nat × Nat × List UInt8)
  | [], _, _ => none
  | b :: rest, shift, val =>
    if b.toNat < 128 then some (b.toNat, shift + 7, putGroup val shift b.toNat, rest)
    else readGroups rest (shift + 7) (putGroup val shift b.toNat)

/-- An unsigned number into a word. -/
def readUleb (bytes : List UInt8) : Option (Nat × List UInt8) :=
  (readGroups bytes 0 0).map fun r => (r.2.2.1, r.2.2.2)

/-- A last group with its top bit set extends the sign, if there is room for it in the word. -/
def signedWord (r : Nat × Nat × Nat × List UInt8) : Nat × List UInt8 :=
  (if r.2.1 < 32 ∧ 64 ≤ r.1 % 128 then r.2.2.1 ||| (4294967296 - 2 ^ r.2.1) else r.2.2.1, r.2.2.2)

/-- A signed number into a word. -/
def readSleb (bytes : List UInt8) : Option (Nat × List UInt8) :=
  (readGroups bytes 0 0).map signedWord

/-! ## What the readers make of what the writers wrote -/

theorem UInt8.toNat_ofNat_lt {n : Nat} (h : n < 256) : (UInt8.ofNat n).toNat = n := by
  rw [UInt8.toNat_ofNat']
  omega

theorem putGroup_eq (h : val < 2 ^ shift) (b : Nat) :
    putGroup (val % 4294967296) shift b = (val + b % 128 * 2 ^ shift) % 4294967296 := by
  have hor : val ||| (b % 128) <<< shift = val + b % 128 * 2 ^ shift := by
    rw [Nat.shiftLeft_eq, Nat.mul_comm, Nat.or_comm, ← Nat.two_pow_add_eq_or_of_lt h, Nat.add_comm]
  rw [← hor]
  exact (@Nat.or_mod_two_pow val ((b % 128) <<< shift) 32).symm

theorem add_group_lt {x : Nat} (h : val < 2 ^ shift) (hx : x < 128) :
    val + x * 2 ^ shift < 2 ^ (shift + 7) := by
  have hpow : 2 ^ (shift + 7) = 128 * 2 ^ shift := by ring
  have hle : (x + 1) * 2 ^ shift ≤ 128 * 2 ^ shift := Nat.mul_le_mul_right _ hx
  rw [Nat.succ_mul] at hle
  omega

theorem readGroups_uleb (rest : List UInt8) {fuel v val shift : Nat} (hv : v < 2 ^ (7 * (fuel + 1)))
    (hval : val < 2 ^ shift) :
    (readGroups (ulebLoop (fuel + 1) v ++ rest) shift (val % 4294967296)).map
      (fun r => (r.2.2.1, r.2.2.2)) = some ((val + v * 2 ^ shift) % 4294967296, rest) := by
  induction fuel generalizing v val shift with
  | zero =>
    have hsmall : v / 128 = 0 := by omega
    have hmod : v % 128 = v := by omega
    rw [ulebLoop, if_pos hsmall, singleton_append, readGroups,
      UInt8.toNat_ofNat_lt (by omega), if_pos (by omega), putGroup_eq hval]
    simp [hmod]
  | succ fuel ih => ?_
  by_cases hsmall : v / 128 = 0
  · have hmod : v % 128 = v := by omega
    rw [ulebLoop, if_pos hsmall, singleton_append, readGroups,
      UInt8.toNat_ofNat_lt (by omega), if_pos (by omega), putGroup_eq hval]
    simp [hmod]
  rw [ulebLoop, if_neg hsmall, cons_append, readGroups,
    UInt8.toNat_ofNat_lt (by omega), if_neg (by omega), putGroup_eq hval]
  have hdiv : v / 128 < 2 ^ (7 * (fuel + 1)) := by
    have hpow : 2 ^ (7 * (fuel + 1 + 1)) = 128 * 2 ^ (7 * (fuel + 1)) := by ring
    omega
  have hgroup : (v % 128 + 128) % 128 = v % 128 := by omega
  rw [hgroup, ih hdiv (add_group_lt hval (Nat.mod_lt _ (by decide)))]
  have hsum : val + v % 128 * 2 ^ shift + v / 128 * 2 ^ (shift + 7) = val + v * 2 ^ shift := by
    have hv' : v = v % 128 + 128 * (v / 128) := by omega
    calc val + v % 128 * 2 ^ shift + v / 128 * 2 ^ (shift + 7)
        = val + (v % 128 + 128 * (v / 128)) * 2 ^ shift := by ring
      _ = val + v * 2 ^ shift := by rw [← hv']
  rw [hsum]

/-- **Unsigned numbers** come back modulo the word. -/
theorem readUleb_uleb {v : Nat} (hv : v < 2 ^ 64) (rest : List UInt8) :
    readUleb (uleb v ++ rest) = some (v % 4294967296, rest) := by
  have h := @readGroups_uleb rest 9 v 0 0 (by omega) (by simp)
  rw [Nat.zero_add, Nat.pow_zero, Nat.mul_one] at h
  exact h

/-- The end of a signed number: the sign is extended, and beyond the word there is nothing to
extend. -/
theorem signed_end (hval : val < 2 ^ shift) (h1 : -64 ≤ v) (h2 : v < 64) :
    (if shift + 7 < 32 ∧ 64 ≤ (v % 128).toNat then
        (val + (v % 128).toNat * 2 ^ shift) % 4294967296 ||| (4294967296 - 2 ^ (shift + 7))
      else (val + (v % 128).toNat * 2 ^ shift) % 4294967296) = ofS (val + v * 2 ^ shift) := by
  have hpow : (2 : Int) ^ (shift + 7) = 128 * 2 ^ shift := by ring
  rcases Int.lt_or_le v 0 with hneg | hpos
  · obtain ⟨g, hg, hvg⟩ : ∃ g : Nat, (v % 128).toNat = g ∧ v = (g : Int) - 128 :=
      ⟨(v % 128).toNat, rfl, by omega⟩
    have hg64 : 64 ≤ g := by omega
    have hg128 : g < 128 := by omega
    rw [hg]
    have hsum := add_group_lt hval hg128
    have hexact : (val : Int) + v * 2 ^ shift = (val + g * 2 ^ shift : Nat) - 2 ^ (shift + 7) := by
      rw [hvg, hpow]
      push_cast
      ring
    rw [hexact]
    by_cases hshift : shift + 7 < 32
    · rw [if_pos ⟨hshift, hg64⟩]
      have hlt : 2 ^ (shift + 7) < 2 ^ 32 := Nat.pow_lt_pow_right (by decide) hshift
      have hmul : 4294967296 - 2 ^ (shift + 7) = 2 ^ (shift + 7) * (2 ^ (32 - (shift + 7)) - 1) := by
        rw [Nat.mul_sub, ← Nat.pow_add, show shift + 7 + (32 - (shift + 7)) = 32 by omega]
        omega
      rw [Nat.mod_eq_of_lt (by omega), hmul, Nat.or_comm, ← Nat.two_pow_add_eq_or_of_lt hsum, ← hmul]
      unfold ofS
      have hcast : ((2 ^ (shift + 7) : Nat) : Int) = 2 ^ (shift + 7) := by push_cast; rfl
      rw [← hcast]
      omega
    rw [if_neg fun h => hshift h.1]
    obtain ⟨k, hk⟩ : ∃ k, shift + 7 = 32 + k := ⟨shift + 7 - 32, by omega⟩
    have hword : (2 : Int) ^ (shift + 7) = 4294967296 * 2 ^ k := by
      rw [hk, pow_add]
      norm_num
    rw [hword]
    unfold ofS
    omega
  obtain ⟨g, rfl⟩ : ∃ g : Nat, v = g := ⟨v.toNat, by omega⟩
  have hg : ((g : Int) % 128).toNat = g := by omega
  rw [hg, if_neg (by omega)]
  unfold ofS
  have hcast : (val : Int) + g * 2 ^ shift = ((val + g * 2 ^ shift : Nat) : Int) := by push_cast; rfl
  rw [hcast]
  omega

theorem readGroups_sleb_last (rest : List UInt8) (fuel : Nat)
    (h1 : -64 ≤ v) (h2 : v < 64) (hval : val < 2 ^ shift) :
    (readGroups (slebLoop (fuel + 1) v ++ rest) shift (val % 4294967296)).map signedWord =
      some (ofS (val + v * 2 ^ shift), rest) := by
  have hmod : (v % 128).toNat % 128 = (v % 128).toNat := by omega
  rw [slebLoop, if_pos (by omega), singleton_append, readGroups,
    UInt8.toNat_ofNat_lt (by omega), if_pos (by omega), putGroup_eq hval, Option.map_some, signedWord,
    hmod, signed_end hval h1 h2]

theorem readGroups_sleb (rest : List UInt8) {fuel val shift : Nat} {v : Int}
    (h1 : -2 ^ (7 * fuel + 6) ≤ v) (h2 : v < 2 ^ (7 * fuel + 6)) (hval : val < 2 ^ shift) :
    (readGroups (slebLoop (fuel + 1) v ++ rest) shift (val % 4294967296)).map signedWord =
      some (ofS (val + v * 2 ^ shift), rest) := by
  induction fuel generalizing v val shift with
  | zero => exact readGroups_sleb_last rest 0 (by omega) (by omega) hval
  | succ fuel ih => ?_
  by_cases hsmall : -64 ≤ v ∧ v < 64
  · exact readGroups_sleb_last rest (fuel + 1) hsmall.1 hsmall.2 hval
  rw [slebLoop, if_neg (by omega), cons_append, readGroups,
    UInt8.toNat_ofNat_lt (by omega), if_neg (by omega), putGroup_eq hval]
  have hgroup : ((v % 128).toNat + 128) % 128 = (v % 128).toNat := by omega
  have hpow : (2 : Int) ^ (7 * (fuel + 1) + 6) = 128 * 2 ^ (7 * fuel + 6) := by ring
  have hlt := add_group_lt hval (show (v % 128).toNat < 128 by omega)
  rw [hgroup, ih (by omega) (by omega) hlt]
  have hsum : ((val + (v % 128).toNat * 2 ^ shift : Nat) : Int) + v / 128 * 2 ^ (shift + 7) =
      val + v * 2 ^ shift := by
    have hv' : v = v % 128 + 128 * (v / 128) := by omega
    have hnat : (((v % 128).toNat : Nat) : Int) = v % 128 := by omega
    push_cast
    rw [hnat]
    calc (val : Int) + v % 128 * 2 ^ shift + v / 128 * 2 ^ (shift + 7)
        = val + (v % 128 + 128 * (v / 128)) * 2 ^ shift := by ring
      _ = val + v * 2 ^ shift := by rw [← hv']
  rw [hsum]

/-- **Signed numbers** come back wrapped into the word. -/
theorem readSleb_sleb (h1 : -2 ^ 63 ≤ v) (h2 : v < 2 ^ 63) (rest : List UInt8) :
    readSleb (sleb v ++ rest) = some (ofS v, rest) := by
  have h := @readGroups_sleb rest 9 0 0 v (by omega) (by omega) (by simp)
  simp only [Nat.cast_zero, zero_add, pow_zero, mul_one] at h
  exact h

end Embedded
