import Embedded.Lib.Reciprocal
import Embedded.Lib.Signed

/-! # The search for magic numbers (`magic_u` and `magic_s` of `cc/gen.c`)

Both loops double a pair of divisions until the reciprocal of the divisor is precise enough: at
exponent `p` the first pair is `2 ^ p` divided by the critical dividend, the second is `2 ^ p` (or
`2 ^ p - 1`) divided by the divisor. The variables are `unsigned`, so every step wraps; what the
loops find is stated without wrapping. -/

namespace Embedded.Toolchain

variable {q r n x q1 r1 q2 r2 : Nat} {v : MagSVars}

/-! ## Unsigned divisors -/

/-- `struct magu`. -/
structure MagU where
  M : Nat
  a : Bool
  s : Nat
deriving DecidableEq, Repr

/-- The variables of the loop of `magic_u`. -/
structure MagUVars where
  p : Nat
  q1 : Nat
  r1 : Nat
  q2 : Nat
  r2 : Nat
  a : Bool

/-- The body of the loop of `magic_u`. -/
def magicUStep (nc d : Nat) (v : MagUVars) : MagUVars :=
  let up1 : Bool := v.r1 ≥ sub32 nc v.r1
  let up2 : Bool := add32 v.r2 1 ≥ sub32 d v.r2
  { p := v.p + 1
    q1 := if up1 then add32 (2 * v.q1) 1 else 2 * v.q1 % 4294967296
    r1 := if up1 then sub32 (2 * v.r1 % 4294967296) nc else 2 * v.r1 % 4294967296
    q2 := if up2 then add32 (2 * v.q2) 1 else 2 * v.q2 % 4294967296
    r2 := if up2 then sub32 (add32 (2 * v.r2) 1) d else add32 (2 * v.r2) 1
    a := v.a || (if up2 then decide (v.q2 ≥ 0x7fffffff) else decide (v.q2 ≥ 0x80000000)) }

/-- The condition of the loop of `magic_u`. -/
def magicUAgain (d : Nat) (v : MagUVars) : Bool :=
  let delta := sub32 (sub32 d 1) v.r2
  v.p < 64 && (v.q1 < delta || (v.q1 == delta && v.r1 == 0))

/-- The `do … while` of `magic_u`; `p < 64` bounds it. -/
def magicULoop (nc d : Nat) : Nat → MagUVars → MagUVars
  | 0, v => v
  | fuel + 1, v =>
    let v := magicUStep nc d v
    if magicUAgain d v then magicULoop nc d fuel v else v

/-- `magic_u`, for a divisor that is no power of two and below `2 ^ 31`. -/
def magicU (d : Nat) : MagU :=
  let nc := sub32 0xffffffff (sub32 0 d % d)
  let q1 := 0x80000000 / nc
  let q2 := 0x7fffffff / d
  let v := magicULoop nc d 33 ⟨31, q1, 0x80000000 - q1 * nc, q2, 0x7fffffff - q2 * d, false⟩
  ⟨add32 v.q2 1, v.a, v.p - 32⟩

/-- The state between two rounds: nothing has wrapped yet. -/
structure MagUInv (nc d : Nat) (v : MagUVars) : Prop where
  lo : 31 ≤ v.p
  hi : v.p ≤ 62
  first : v.q1 * nc + v.r1 = 2 ^ v.p
  r1 : v.r1 < nc
  q1 : v.q1 < 2147483648
  second : v.q2 * d + v.r2 + 1 = 2 ^ v.p
  r2 : v.r2 < d
  q2 : v.q2 < 4294967295
  a : v.a = false

/-- The state after a round: the second quotient, of which `q2` keeps the low word and `a` whether
    its successor needs a 33rd bit. -/
structure MagURound (nc d : Nat) (v : MagUVars) (q : Nat) : Prop where
  lo : 32 ≤ v.p
  hi : v.p ≤ 63
  first : v.q1 * nc + v.r1 = 2 ^ v.p
  r1 : v.r1 < nc
  second : q * d + v.r2 + 1 = 2 ^ v.p
  r2 : v.r2 < d
  quot : q < 8589934591
  q2 : v.q2 = q % 4294967296
  a : v.a = decide (4294967295 ≤ q)

/-- The quotient and remainder of `x` tell whether it is at most `e` times the divisor. -/
theorem div_le_iff {e : Nat} (h : q * n + r = x) (hr : r < n) : q < e ∨ q = e ∧ r = 0 ↔ x ≤ e * n := by
  rw [← h]
  constructor
  · rintro (hlt | ⟨rfl, rfl⟩)
    · have : (q + 1) * n ≤ e * n := Nat.mul_le_mul_right n hlt
      rw [add_mul] at this
      omega
    omega
  intro hle
  rcases Nat.lt_trichotomy q e with hlt | rfl | hgt
  · exact .inl hlt
  · exact .inr ⟨rfl, by omega⟩
  have : (e + 1) * n ≤ q * n := Nat.mul_le_mul_right n hgt
  rw [add_mul] at this
  omega

variable {nc d : Nat}

variable (hd : d < 2147483648)
include hd

variable {v : MagUVars}

theorem magicUStep_round (hnc : nc < 4294967296)
    (h : MagUInv nc d v) : ∃ q, MagURound nc d (magicUStep nc d v) q := by
  obtain ⟨hlo, hhi, h1, hr1, hq1, h2, hr2, hq2, ha⟩ := h
  have hpow : 2 ^ (v.p + 1) = 2 * 2 ^ v.p := by rw [pow_succ, mul_comm]
  have hsub1 : sub32 nc v.r1 = nc - v.r1 := by
    unfold sub32
    omega
  have hsub2 : sub32 d v.r2 = d - v.r2 := by
    unfold sub32
    omega
  have hadd2 : add32 v.r2 1 = v.r2 + 1 := by
    unfold add32
    omega
  -- the first pair: doubling never leaves the word
  have hfirst : (magicUStep nc d v).q1 * nc + (magicUStep nc d v).r1 = 2 ^ (v.p + 1) ∧
      (magicUStep nc d v).r1 < nc := by
    simp only [magicUStep, hsub1, decide_eq_true_eq]
    rw [hpow, ← h1]
    by_cases hup : v.r1 ≥ nc - v.r1
    · have e1 : add32 (2 * v.q1) 1 = 2 * v.q1 + 1 := by
        unfold add32
        omega
      have e2 : sub32 (2 * v.r1 % 4294967296) nc = 2 * v.r1 - nc := by
        unfold sub32
        omega
      rw [if_pos hup, if_pos hup, e1, e2, add_mul, mul_assoc]
      omega
    rw [if_neg hup, if_neg hup, Nat.mod_eq_of_lt (by omega), Nat.mod_eq_of_lt (by omega), mul_assoc]
    omega
  refine ⟨if v.r2 + 1 ≥ d - v.r2 then 2 * v.q2 + 1 else 2 * v.q2, ?_⟩
  refine ⟨by simp only [magicUStep]; omega, by simp only [magicUStep]; omega, hfirst.1, hfirst.2,
    ?_, ?_, ?_, ?_, ?_⟩
  · simp only [magicUStep, hsub2, hadd2, decide_eq_true_eq]
    rw [hpow, ← h2]
    by_cases hup : v.r2 + 1 ≥ d - v.r2
    · have e : sub32 (add32 (2 * v.r2) 1) d = 2 * v.r2 + 1 - d := by
        unfold sub32 add32
        omega
      rw [if_pos hup, if_pos hup, e, add_mul, mul_assoc]
      omega
    have e : add32 (2 * v.r2) 1 = 2 * v.r2 + 1 := by
      unfold add32
      omega
    rw [if_neg hup, if_neg hup, e, mul_assoc]
    omega
  · simp only [magicUStep, hsub2, hadd2, decide_eq_true_eq]
    unfold sub32 add32
    split <;> omega
  · split <;> omega
  · simp only [magicUStep, hsub2, hadd2, decide_eq_true_eq]
    split <;> rfl
  simp only [magicUStep, hsub2, hadd2, decide_eq_true_eq, ha, Bool.false_or]
  split <;> rw [decide_eq_decide] <;> omega

/-- The test of the loop compares `2 ^ p` with the critical dividend times the error. -/
theorem magicUAgain_iff (h : MagURound nc d v q) :
    magicUAgain d v = true ↔ 2 ^ v.p ≤ (d - 1 - v.r2) * nc := by
  have hhi := h.hi
  have hr2 := h.r2
  have hdelta : sub32 (sub32 d 1) v.r2 = d - 1 - v.r2 := by
    unfold sub32
    omega
  simp only [magicUAgain, hdelta, Bool.and_eq_true, Bool.or_eq_true, decide_eq_true_eq, beq_iff_eq]
  rw [div_le_iff h.first h.r1]
  exact and_iff_right (by omega)

theorem magicU_again_inv (hnc : nc < 4294967296)
    (h : MagURound nc d v q) (hle : 2 ^ v.p ≤ (d - 1 - v.r2) * nc) : MagUInv nc d v := by
  have hr2 := h.r2
  have hlo := h.lo
  have hq1 := (div_le_iff h.first h.r1).2 hle
  have hq : q < nc := by
    by_contra hge
    have h1 : nc * d ≤ q * d := Nat.mul_le_mul_right d (by omega)
    have h2 : (d - 1 - v.r2) * nc ≤ d * nc := Nat.mul_le_mul_right nc (by omega)
    have h3 := h.second
    rw [mul_comm d nc] at h2
    omega
  have hp : v.p < 63 := by
    have h1 : (d - 1 - v.r2) * nc < 2147483648 * 4294967296 := Nat.mul_lt_mul'' (by omega) hnc
    have h2 : 2 ^ v.p < 2 ^ 63 := by
      calc 2 ^ v.p ≤ (d - 1 - v.r2) * nc := hle
        _ < 2147483648 * 4294967296 := h1
        _ = 2 ^ 63 := by norm_num
    exact (Nat.pow_lt_pow_iff_right (by omega)).1 h2
  have hmod : v.q2 = q := by rw [h.q2, Nat.mod_eq_of_lt (by omega)]
  refine ⟨by omega, by omega, h.first, h.r1, by omega, by rw [hmod]; exact h.second, hr2, by omega, ?_⟩
  rw [h.a, decide_eq_false_iff_not]
  omega

/-- The loop ends with a reciprocal that is precise enough. -/
theorem magicULoop_spec (hnc : nc < 4294967296) (fuel : Nat) :
    ∀ v, MagUInv nc d v → 63 ≤ v.p + fuel → ∃ q, MagURound nc d (magicULoop nc d fuel v) q ∧
      (d - 1 - (magicULoop nc d fuel v).r2) * nc < 2 ^ (magicULoop nc d fuel v).p := by
  induction fuel with
  | zero =>
    intro v h hf
    have := h.hi
    omega
  | succ fuel ih => ?_
  intro v h hf
  obtain ⟨q, hq⟩ := magicUStep_round hd hnc h
  simp only [magicULoop]
  split
  · next hagain =>
    have hle := (magicUAgain_iff hd hq).1 hagain
    exact ih _ (magicU_again_inv hd hnc hq hle) (by simp only [magicUStep]; omega)
  rename_i hstop
  refine ⟨q, hq, ?_⟩
  rw [magicUAgain_iff hd hq] at hstop
  omega

omit hd

/-- What `magic_u` returns: `2 ^ 32 * a + M` is a reciprocal of `d` at `2 ^ (32 + s)`, with an error
    that is small enough at the critical dividend. -/
structure MagUOk (d : Nat) (m : MagU) : Prop where
  M : m.M < 4294967296
  s : m.s ≤ 31
  aPos : m.a = true → 1 ≤ m.s
  reciprocal : ∃ e, (m.M + (if m.a then 4294967296 else 0)) * d = 2 ^ (32 + m.s) + e ∧
    (4294967296 - 1 - 4294967296 % d) * e < 2 ^ (32 + m.s)

/-- The first round starts from `2 ^ 31`. -/
theorem magicU_init (hd2 : 2 ≤ d) (hd : d < 2147483648) (hnc : 2 ≤ nc)
    (h1 : nc * q1 + r1 = 2147483648) (hr1 : r1 < nc) (h2 : d * q2 + r2 = 2147483647) (hr2 : r2 < d) :
    MagUInv nc d ⟨31, q1, r1, q2, r2, false⟩ := by
  have hq1 : 2 * q1 ≤ nc * q1 := Nat.mul_le_mul_right q1 hnc
  have hq2 : 2 * q2 ≤ d * q2 := Nat.mul_le_mul_right q2 hd2
  have hq1' : q1 < 2147483648 := by omega
  have hq2' : q2 < 4294967295 := by omega
  rw [mul_comm] at h1 h2
  refine ⟨le_refl 31, show 31 ≤ 62 by omega, ?_, hr1, hq1', ?_, hr2, hq2', rfl⟩
  · show q1 * nc + r1 = 2 ^ 31
    omega
  show q2 * d + r2 + 1 = 2 ^ 31
  omega

/-- The state the loop ends with, read as a reciprocal. -/
theorem MagURound.ok (hd2 : 2 ≤ d) (h : MagURound nc d v q)
    (hnc : nc = 4294967296 - 1 - 4294967296 % d) (hexit : (d - 1 - v.r2) * nc < 2 ^ v.p) :
    MagUOk d ⟨add32 v.q2 1, v.a, v.p - 32⟩ := by
  obtain ⟨hlo, hhi, -, -, h2, hr2, hqlt, hq2eq, ha⟩ := h
  have hp : 2 ^ (32 + (v.p - 32)) = 2 ^ v.p := by
    congr 1
    omega
  have hM : add32 v.q2 1 + (if v.a then 4294967296 else 0) = q + 1 := by
    rw [ha, hq2eq]
    unfold add32
    by_cases h : 4294967295 ≤ q
    · rw [if_pos (by simpa using h)]
      omega
    rw [if_neg (by simpa using h)]
    omega
  refine ⟨Nat.mod_lt _ (by omega), by simp only; omega, fun hatrue => ?_, d - 1 - v.r2, ?_, ?_⟩
  · -- a 33-bit reciprocal is not found at `2 ^ 32`
    simp only at hatrue ⊢
    by_contra hs
    have hp32 : v.p = 32 := by omega
    rw [ha, decide_eq_true_eq] at hatrue
    have : 4294967295 * 2 ≤ q * d := Nat.mul_le_mul hatrue hd2
    rw [hp32] at h2
    omega
  · simp only [hM, hp]
    rw [add_mul]
    omega
  simp only [hp]
  rw [mul_comm, ← hnc]
  exact hexit

theorem magicU_nc (hd2 : 2 ≤ d) (hd : d < 2147483648) :
    sub32 0xffffffff (sub32 0 d % d) = 4294967296 - 1 - 4294967296 % d := by
  have hs : sub32 0 d = 4294967296 - d := by
    unfold sub32
    omega
  have hm : (4294967296 - d) % d = 4294967296 % d := by rw [← Nat.mod_eq_sub_mod (by omega)]
  have hlt := Nat.mod_lt 4294967296 (show 0 < d by omega)
  rw [hs, hm]
  unfold sub32
  omega

theorem magicU_ok (hd2 : 2 ≤ d) (hd : d < 2147483648) : MagUOk d (magicU d) := by
  have hdt : d ≤ 4294967296 := by omega
  obtain ⟨hge, -, hlt, hup⟩ := critical_spec (by omega) hdt
  have hncEq := magicU_nc hd2 hd
  unfold magicU
  rw [hncEq]
  generalize hnc : 4294967296 - 1 - 4294967296 % d = nc at hge hlt hup
  have h1 := Nat.div_add_mod 0x80000000 nc
  have h2 := Nat.div_add_mod 0x7fffffff d
  have hinit := magicU_init hd2 hd (by omega) h1 (Nat.mod_lt _ (by omega)) h2 (Nat.mod_lt _ (by omega))
  simp only [← Nat.mod_eq_sub_div_mul]
  obtain ⟨q, hr, hexit⟩ := magicULoop_spec hd (by omega) 33 _ hinit (show 63 ≤ 31 + 33 by omega)
  exact hr.ok hd2 hnc.symm hexit

/-! ## Signed divisors -/

/-- `struct mags`; `M` is the word that holds the `int`. -/
structure MagS where
  M : Nat
  s : Nat
deriving DecidableEq, Repr

/-- The variables of the loop of `magic_s`. -/
structure MagSVars where
  p : Nat
  q1 : Nat
  r1 : Nat
  q2 : Nat
  r2 : Nat

/-- The body of the loop of `magic_s`. -/
def magicSStep (anc ad : Nat) (v : MagSVars) : MagSVars :=
  let q1 := 2 * v.q1 % 4294967296
  let r1 := 2 * v.r1 % 4294967296
  let q2 := 2 * v.q2 % 4294967296
  let r2 := 2 * v.r2 % 4294967296
  { p := v.p + 1
    q1 := if r1 ≥ anc then add32 q1 1 else q1
    r1 := if r1 ≥ anc then sub32 r1 anc else r1
    q2 := if r2 ≥ ad then add32 q2 1 else q2
    r2 := if r2 ≥ ad then sub32 r2 ad else r2 }

/-- The condition of the loop of `magic_s`. -/
def magicSAgain (ad : Nat) (v : MagSVars) : Bool :=
  let delta := sub32 ad v.r2
  v.q1 < delta || (v.q1 == delta && v.r1 == 0)

/-- The `do … while` of `magic_s`, which nothing bounds: `none` when the fuel runs out. -/
def magicSLoop (anc ad : Nat) : Nat → MagSVars → Option MagSVars
  | 0, _ => none
  | fuel + 1, v =>
    let v := magicSStep anc ad v
    if magicSAgain ad v then magicSLoop anc ad fuel v else some v

/-- `ad` of `magic_s`: the absolute value of the divisor in the word `d`. -/
def absWord (d : Nat) : Nat := if d ≥ 2147483648 then sub32 0 d else d

/-- `magic_s`, for a divisor whose absolute value is at least two and no power of two. -/
def magicS (d : Nat) : Option MagS :=
  let ad := absWord d
  let t := 2147483648 + d / 2147483648
  let anc := t - 1 - t % ad
  let q1 := 2147483648 / anc
  let q2 := 2147483648 / ad
  (magicSLoop anc ad 64 ⟨31, q1, 2147483648 - q1 * anc, q2, 2147483648 - q2 * ad⟩).map fun v =>
    ⟨if d ≥ 2147483648 then sub32 0 (add32 v.q2 1) else add32 v.q2 1, v.p - 32⟩

/-- The state between two rounds. -/
structure MagSInv (anc ad : Nat) (v : MagSVars) : Prop where
  lo : 31 ≤ v.p
  first : v.q1 * anc + v.r1 = 2 ^ v.p
  r1 : v.r1 < anc
  q1 : v.q1 < 2147483648
  second : v.q2 * ad + v.r2 = 2 ^ v.p
  r2 : v.r2 < ad
  q2 : v.q2 < 2147483647

/-- The state after a round. -/
structure MagSRound (anc ad : Nat) (v : MagSVars) : Prop where
  lo : 32 ≤ v.p
  first : v.q1 * anc + v.r1 = 2 ^ v.p
  r1 : v.r1 < anc
  second : v.q2 * ad + v.r2 = 2 ^ v.p
  r2 : v.r2 < ad
  q2 : v.q2 < 4294967295

variable {anc ad : Nat}

theorem double_div (h : q * n + r = x) (hr : r < n) (hn : n ≤ 2147483648) (hq : q < 2147483648) :
    (if 2 * r % 4294967296 ≥ n then add32 (2 * q % 4294967296) 1 else 2 * q % 4294967296) * n
        + (if 2 * r % 4294967296 ≥ n then sub32 (2 * r % 4294967296) n else 2 * r % 4294967296)
      = 2 * x ∧
    (if 2 * r % 4294967296 ≥ n then sub32 (2 * r % 4294967296) n else 2 * r % 4294967296) < n ∧
    (if 2 * r % 4294967296 ≥ n then add32 (2 * q % 4294967296) 1 else 2 * q % 4294967296) ≤ 2 * q + 1 := by
  have er : 2 * r % 4294967296 = 2 * r := Nat.mod_eq_of_lt (by omega)
  have eq : 2 * q % 4294967296 = 2 * q := Nat.mod_eq_of_lt (by omega)
  rw [er, eq, ← h]
  by_cases hup : 2 * r ≥ n
  · have e1 : add32 (2 * q) 1 = 2 * q + 1 := by
      unfold add32
      omega
    have e2 : sub32 (2 * r) n = 2 * r - n := by
      unfold sub32
      omega
    rw [if_pos hup, if_pos hup, e1, e2, add_mul, mul_assoc]
    omega
  rw [if_neg hup, if_neg hup, mul_assoc]
  omega

variable (had : ad < 2147483648)
include had

theorem magicSStep_round {v : MagSVars} (hanc : anc ≤ 2147483648)
    (h : MagSInv anc ad v) : MagSRound anc ad (magicSStep anc ad v) := by
  have hpow : 2 ^ (v.p + 1) = 2 * 2 ^ v.p := by rw [pow_succ, mul_comm]
  have hlo := h.lo
  have hq2 := h.q2
  obtain ⟨h1, h2, -⟩ := double_div h.first h.r1 hanc h.q1
  obtain ⟨h3, h4, h5⟩ := double_div h.second h.r2 (by omega) (by omega)
  rw [← hpow] at h1 h3
  refine ⟨show 32 ≤ v.p + 1 by omega, h1, h2, h3, h4, lt_of_le_of_lt h5 (by omega)⟩

theorem magicSAgain_iff {v : MagSVars} (h : MagSRound anc ad v) :
    magicSAgain ad v = true ↔ 2 ^ v.p ≤ (ad - v.r2) * anc := by
  have hr2 := h.r2
  have hdelta : sub32 ad v.r2 = ad - v.r2 := by
    unfold sub32
    omega
  simp only [magicSAgain, hdelta, Bool.and_eq_true, Bool.or_eq_true, decide_eq_true_eq, beq_iff_eq]
  exact div_le_iff h.first h.r1

theorem magicS_again_inv {v : MagSVars} (hanc : anc ≤ 2147483648)
    (hodd : ∀ p, 2 ^ p % ad ≠ 0) (h : MagSRound anc ad v) (hle : 2 ^ v.p ≤ (ad - v.r2) * anc) :
    MagSInv anc ad v ∧ v.p ≤ 62 := by
  have hr1 := h.r1
  have hr2 := h.r2
  have hlo := h.lo
  have hfirst := h.first
  have hsecond := h.second
  -- the divisor is no power of two, so something is always left over
  have hpos : 1 ≤ v.r2 := by
    by_contra h0
    refine hodd v.p ?_
    have h0' : v.r2 = 0 := by omega
    rw [← hsecond, h0', add_zero, Nat.mul_mod_left]
  have hq1 := (div_le_iff hfirst hr1).2 hle
  have hmul : (ad - v.r2) * anc ≤ (ad - v.r2) * 2147483648 := Nat.mul_le_mul_left _ hanc
  have hq2 : v.q2 < 2147483647 := by
    by_contra hge
    have : 2147483647 * ad ≤ v.q2 * ad := Nat.mul_le_mul_right ad (by omega)
    omega
  have hp : v.p < 63 := by
    have h2 : 2 ^ v.p < 2 ^ 63 := by
      calc 2 ^ v.p ≤ (ad - v.r2) * 2147483648 := hle.trans hmul
        _ < 2 ^ 63 := by omega
    exact (Nat.pow_lt_pow_iff_right (by omega)).1 h2
  exact ⟨⟨by omega, hfirst, hr1, by omega, hsecond, hr2, hq2⟩, by omega⟩

theorem magicSLoop_spec (hanc : anc ≤ 2147483648) (hodd : ∀ p, 2 ^ p % ad ≠ 0) (fuel : Nat) :
    ∀ v, MagSInv anc ad v → v.p ≤ 62 → 63 ≤ v.p + fuel →
      ∃ v', magicSLoop anc ad fuel v = some v' ∧ MagSRound anc ad v' ∧ v'.p ≤ 63 ∧
        (ad - v'.r2) * anc < 2 ^ v'.p := by
  induction fuel with
  | zero => intro v h hp hf; omega
  | succ fuel ih => ?_
  intro v h hp hf
  have hr := magicSStep_round had hanc h
  have hp' : (magicSStep anc ad v).p = v.p + 1 := rfl
  simp only [magicSLoop]
  split
  · next hagain =>
    have hle := (magicSAgain_iff had hr).1 hagain
    obtain ⟨hinv, hp62⟩ := magicS_again_inv had hanc hodd hr hle
    exact ih _ hinv hp62 (by omega)
  rename_i hstop
  refine ⟨_, rfl, hr, by omega, ?_⟩
  rw [magicSAgain_iff had hr] at hstop
  omega

omit had

/-- What `magic_s` returns for the divisor in the word `d`: a reciprocal of its absolute value at
    `2 ^ (32 + s)`, negated for a negative divisor. -/
structure MagSOk (d : Nat) (m : MagS) (M e : Nat) : Prop where
  pos : 0 < M
  lt : M < 4294967296
  word : m.M = if d ≥ 2147483648 then 4294967296 - M else M
  s : m.s ≤ 31
  reciprocal : M * absWord d = 2 ^ (32 + m.s) + e
  errPos : 1 ≤ e
  errLe : e ≤ absWord d
  critical : (2147483648 + d / 2147483648 - 1 - (2147483648 + d / 2147483648) % absWord d) * e
    < 2 ^ (32 + m.s)

theorem magicS_init (had2 : 2 ≤ ad) (hanc : 2 ≤ anc)
    (h1 : anc * q1 + r1 = 2147483648) (hr1 : r1 < anc) (h2 : ad * q2 + r2 = 2147483648)
    (hr2 : r2 < ad) : MagSInv anc ad ⟨31, q1, r1, q2, r2⟩ := by
  have hq1 : 2 * q1 ≤ anc * q1 := Nat.mul_le_mul_right q1 hanc
  have hq2 : 2 * q2 ≤ ad * q2 := Nat.mul_le_mul_right q2 had2
  have hq1' : q1 < 2147483648 := by omega
  have hq2' : q2 < 2147483647 := by omega
  rw [mul_comm] at h1 h2
  refine ⟨le_refl 31, ?_, hr1, hq1', ?_, hr2, hq2'⟩
  · show q1 * anc + r1 = 2 ^ 31
    omega
  show q2 * ad + r2 = 2 ^ 31
  omega

theorem magicS_ok {d : Nat} (hd : d < 4294967296) (had2 : 3 ≤ absWord d)
    (had : absWord d < 2147483648) (hodd : ∀ p, 2 ^ p % absWord d ≠ 0) :
    ∃ m M e, magicS d = some m ∧ MagSOk d m M e := by
  obtain ⟨hge, -, hlt, hup⟩ := critical_spec (show 0 < absWord d by omega)
    (show absWord d ≤ 2147483648 + d / 2147483648 by omega)
  simp only [magicS]
  generalize hanc : 2147483648 + d / 2147483648 - 1 - (2147483648 + d / 2147483648) % absWord d = anc
    at hge hlt hup
  generalize had' : absWord d = ad at *
  have h1 := Nat.div_add_mod 2147483648 anc
  have h2 := Nat.div_add_mod 2147483648 ad
  have hinit := magicS_init (by omega) (by omega) h1 (Nat.mod_lt _ (by omega)) h2 (Nat.mod_lt _ (by omega))
  simp only [← Nat.mod_eq_sub_div_mul]
  obtain ⟨v, hv, hr, hp63, hexit⟩ := magicSLoop_spec had (by omega) hodd 64 _ hinit
    (show 31 ≤ 62 by omega) (show 63 ≤ 31 + 64 by omega)
  have hlo := hr.lo
  have hq2 := hr.q2
  have hr2 := hr.r2
  have hsecond := hr.second
  have hp : 2 ^ (32 + (v.p - 32)) = 2 ^ v.p := by
    congr 1
    omega
  have hadd : add32 v.q2 1 = v.q2 + 1 := by
    unfold add32
    omega
  refine ⟨_, v.q2 + 1, ad - v.r2, by rw [hv]; rfl, by omega, by omega, ?_, by simp only; omega, ?_,
    by omega, by rw [had']; omega, ?_⟩
  · simp only [hadd]
    split
    · unfold sub32
      omega
    rfl
  · simp only [hp, had']
    rw [add_mul]
    omega
  simp only [hp, had', hanc]
  rw [mul_comm]
  exact hexit

end Embedded.Toolchain
