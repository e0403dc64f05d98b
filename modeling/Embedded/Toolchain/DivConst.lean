import Embedded.Toolchain.Arm
import Embedded.Toolchain.Magic
import Mathlib.Data.Nat.Bitwise
import Mathlib.Data.Nat.Prime.Basic

/-! # Division by constants (`gen_div32_const` of `cc/gen.c`)

The instruction sequence for a 32-bit division or remainder by a constant. The dividend is in `r0`,
the result ends up there; `r3` keeps the dividend for a remainder, which is `n - q * d`. -/

namespace Embedded.Toolchain

open Cpu Int

variable {z : Int} {b k M d : Nat}

/-! ## Code generation -/

/-- `load_imm`. -/
def loadImm (r : Reg) (v : Nat) : List Instr :=
  .movw r (v % 65536) :: if v / 65536 ≠ 0 then [.movt r (v / 65536 % 65536)] else []

/-- `__builtin_ctz`. -/
def ctz : Nat → Nat → Nat
  | 0, _ => 0
  | fuel + 1, x => if x % 2 = 1 then 0 else 1 + ctz fuel (x / 2)

/-- The last line of both halves: `n - q * d` when the remainder was asked for. -/
def genRem (mod : Bool) (d : Nat) : List Instr :=
  if mod then loadImm .r1 d ++ [.mls .r0 .r0 .r1 .r3] else []

/-- The quotient by an unsigned divisor that is no power of two. -/
def genUQuot (ud : Nat) : List Instr :=
  if ud ≥ 0x80000000 then
    loadImm .r1 ud ++ [.cmp .r0 .r1, .movImm .hs .r0 1, .movImm .lo .r0 0]
  else
    let m := magicU ud
    loadImm .r1 m.M ++
      if !m.a then
        .umull .r2 .r0 .r0 .r1 :: if m.s ≠ 0 then [.lsr .r0 .r0 m.s] else []
      else
        [.umull .r2 .r1 .r0 .r1, .sub .r0 .r0 .r1, .addLsr .r0 .r1 .r0 1] ++
          if m.s > 1 then [.lsr .r0 .r0 (m.s - 1)] else []

/-- The unsigned half of `gen_div32_const`. -/
def genUDiv (mod : Bool) (ud : Nat) : List Instr :=
  if ud = 1 then (if mod then [.movImm .al .r0 0] else [])
  else if ud &&& (ud - 1) = 0 then
    let k := ctz 32 ud
    if mod then [.ubfx .r0 .r0 0 k] else [.lsr .r0 .r0 k]
  else genUQuot ud ++ genRem mod ud

/-- The quotient by a signed divisor other than `1` and `-1`; `none` when the search for its magic
    number does not end. -/
def genSQuot (sd : Nat) : Option (List Instr) :=
  let ad := absWord sd
  if sd = 0x80000000 then some [.cmpImm .r0 0x80000000, .movImm .eq .r0 1, .movImm .ne .r0 0]
  else if ad &&& (ad - 1) = 0 then
    let k := ctz 32 ad
    some ([.asr .r1 .r0 31, .addLsr .r0 .r0 .r1 (32 - k), .asr .r0 .r0 k] ++
      if sd ≥ 0x80000000 then [.rsb .r0 .r0 0] else [])
  else
    (magicS sd).map fun m =>
      loadImm .r1 m.M ++ [.smull .r2 .r1 .r0 .r1] ++
        (if sd < 0x80000000 ∧ m.M ≥ 0x80000000 then [.add .r1 .r1 .r0]
          else if sd ≥ 0x80000000 ∧ 0 < m.M ∧ m.M < 0x80000000 then [.sub .r1 .r1 .r0] else []) ++
        (if m.s ≠ 0 then [.asr .r1 .r1 m.s] else []) ++ [.addLsr .r0 .r1 .r1 31]

/-- The signed half of `gen_div32_const`. -/
def genSDiv (mod : Bool) (sd : Nat) : Option (List Instr) :=
  if sd = 1 ∨ sd = 0xffffffff then
    some (if mod then [.movImm .al .r0 0] else if sd = 0xffffffff then [.rsb .r0 .r0 0] else [])
  else (genSQuot sd).map fun q => q ++ genRem mod sd

/-- `gen_div32_const` after the dividend: `u` for an unsigned operation, `mod` for a remainder, the
    divisor as a word. `none` when nothing is emitted. -/
def genDiv32Const (u mod : Bool) (dv : Nat) : Option (List Instr) :=
  if dv = 0 then none
  else
    let save := if mod then [Instr.mov .r3 .r0] else []
    if u then some (save ++ genUDiv mod dv) else (genSDiv mod dv).map fun c => save ++ c

/-! ## The pieces -/

/-- `s'` is `s` with a new word in `r0`; `r1` and `r2` may have been used. -/
def Result (s s' : Cpu) (v : Nat) : Prop := s'.regs .r0 = v ∧ s'.regs .r3 = s.regs .r3

theorem execAll_loadImm (s : Cpu) (r : Reg) {v : Nat} (hv : v < 4294967296) :
    (execAll s (loadImm r v)).regs r = v ∧ ∀ q, q ≠ r → (execAll s (loadImm r v)).regs q = s.regs q := by
  unfold loadImm
  split
  · simp only [execAll_cons, execAll_nil, exec]
    refine ⟨?_, fun q hq => by rw [set_of_ne _ _ hq, set_of_ne _ _ hq]⟩
    rw [set_self, set_self]
    omega
  simp only [execAll_cons, execAll_nil, exec]
  refine ⟨?_, fun q hq => by rw [set_of_ne _ _ hq]⟩
  rw [set_self]
  omega

theorem ctz_two_pow (fuel : Nat) : ∀ k, k < fuel → ctz fuel (2 ^ k) = k := by
  induction fuel with
  | zero => intro k hk; omega
  | succ fuel ih => ?_
  intro k hk
  rw [ctz]
  cases k with
  | zero => rfl
  | succ k => ?_
  have hdiv : 2 ^ (k + 1) / 2 = 2 ^ k := by rw [pow_succ]; omega
  rw [if_neg (by omega), hdiv, ih k (by omega)]
  omega

variable {a x : Nat} {m : MagS}

/-- A word with one bit set. -/
theorem exists_two_pow (h0 : x ≠ 0) (hx : x < 4294967296) (h : x &&& (x - 1) = 0) :
    ∃ k, k < 32 ∧ x = 2 ^ k := by
  obtain ⟨k, hk⟩ := (Nat.and_sub_one_eq_zero_iff_isPowerOfTwo h0).1 h
  refine ⟨k, ?_, hk⟩
  refine (Nat.pow_lt_pow_iff_right (show 1 < 2 by omega)).1 ?_
  omega

/-- Otherwise no power of two is a multiple of it. -/
theorem two_pow_mod_ne_zero (h0 : x ≠ 0) (h : x &&& (x - 1) ≠ 0) (p : Nat) : 2 ^ p % x ≠ 0 := by
  intro hmod
  obtain ⟨k, -, hk⟩ := (Nat.dvd_prime_pow Nat.prime_two).1 (Nat.dvd_of_mod_eq_zero hmod)
  exact h ((Nat.and_sub_one_eq_zero_iff_isPowerOfTwo h0).2 ⟨k, hk⟩)

variable {d : Nat}

/-- The last line turns the quotient in `r0` into the remainder of the dividend in `r3`. -/
theorem execAll_genRem (s : Cpu) (hd : d < 4294967296) : (execAll s (genRem true d)).regs .r0
      = sub32 (s.regs .r3) (s.regs .r0 * d % 4294967296) := by
  obtain ⟨h1, h2⟩ := execAll_loadImm s .r1 hd
  rw [genRem, if_pos rfl, execAll_append, execAll_cons, execAll_nil, exec, set_self, h1,
    h2 .r3 (by decide), h2 .r0 (by decide)]

/-! ## Unsigned division -/

theorem two_pow_add (s : Nat) : 2 ^ (32 + s) = 4294967296 * 2 ^ s := by rw [Nat.pow_add]

section

variable {n M d e s : Nat} (hd : 0 < d) (hdw : d ≤ 4294967296) (hn : n < 4294967296)
include hd hdw hn

/-- The high word of the product, shifted, with a 32-bit reciprocal. -/
theorem uquot_short (hrec : M * d = 2 ^ (32 + s) + e)
    (hcrit : (4294967296 - 1 - 4294967296 % d) * e < 2 ^ (32 + s)) :
    n * M / 4294967296 / 2 ^ s = n / d := by
  rw [Nat.div_div_eq_div_mul, ← two_pow_add]
  exact mul_div_eq_of_err hrec hd (err_lt hd hdw hcrit hn)

/-- The same with a 33-bit reciprocal: its top bit is the dividend, added without overflow. -/
theorem uquot_long (hM : M < 4294967296) (hs : 1 ≤ s) (hrec : (M + 4294967296) * d = 2 ^ (32 + s) + e)
    (hcrit : (4294967296 - 1 - 4294967296 % d) * e < 2 ^ (32 + s)) :
    (n * M / 4294967296 + (n - n * M / 4294967296) / 2) / 2 ^ (s - 1) = n / d := by
  rw [← uquot_short hd hdw hn hrec hcrit]
  have hle : n * M / 4294967296 ≤ n := by
    have h1 : n * M ≤ n * 4294967296 := Nat.mul_le_mul_left n (by omega)
    omega
  have hsum : n * (M + 4294967296) / 4294967296 = n * M / 4294967296 + n := by
    rw [Nat.mul_add, Nat.add_mul_div_right _ _ (by omega)]
  have hpow : 2 ^ s = 2 * 2 ^ (s - 1) := by
    rw [← Nat.pow_succ']
    congr 1
    omega
  rw [hsum, hpow, ← Nat.div_div_eq_div_mul]
  congr 1
  omega

end

theorem genUQuot_correct (hd2 : 2 ≤ d) (hd : d < 4294967296) (s : Cpu) (hn : s.regs .r0 < 4294967296) :
    Result s (execAll s (genUQuot d)) (s.regs .r0 / d) := by
  unfold genUQuot
  split
  · -- the quotient of a divisor with the top bit set is a comparison
    next hbig =>
    obtain ⟨h1, h2⟩ := execAll_loadImm s .r1 hd
    rw [execAll_append]
    generalize execAll s (loadImm .r1 d) = s1 at h1 h2
    have h0 := h2 .r0 (by decide)
    have h3 := h2 .r3 (by decide)
    simp only [execAll_cons, execAll_nil, exec, Cpu.compare, h0, h1]
    rw [← h0] at hn ⊢
    by_cases hge : d ≤ s1.regs .r0
    · have hq : s1.regs .r0 / d = 1 := Nat.div_eq_of_lt_le (by omega) (by omega)
      simp [Result, Cpu.holds, Cpu.set, hge, hq, h3, Function.update]
    have hq : s1.regs .r0 / d = 0 := Nat.div_eq_of_lt (by omega)
    simp [Result, Cpu.holds, Cpu.set, hge, hq, h3, Function.update]
  rename_i hsmall
  obtain ⟨hM, hs, haPos, e, hrec, hcrit⟩ := magicU_ok hd2 (by omega)
  generalize magicU d = m at *
  obtain ⟨h1, h2⟩ := execAll_loadImm s .r1 hM
  simp only
  rw [execAll_append]
  generalize execAll s (loadImm .r1 m.M) = s1 at h1 h2
  have h0 := h2 .r0 (by decide)
  have h3 := h2 .r3 (by decide)
  rw [← h0] at hn ⊢
  have hd0 : 0 < d := by omega
  cases ha : m.a with
  | false =>
    rw [ha] at hrec
    have hq := uquot_short hd0 (by omega) hn (by simpa using hrec) hcrit
    by_cases hs0 : m.s = 0
    · rw [hs0, Nat.pow_zero, Nat.div_one] at hq
      simp [exec, Result, hs0, h1, h3, hq]
    simp [exec, Result, hs0, h1, h3, hq]
  | true => ?_
  rw [ha] at hrec
  have hq := uquot_long hd0 (by omega) hn hM (haPos ha) (by simpa using hrec) hcrit
  have hle : s1.regs .r0 * m.M / 4294967296 ≤ s1.regs .r0 := by
    have := Nat.mul_le_mul_left (s1.regs .r0) hM.le
    omega
  generalize hhi : s1.regs .r0 * m.M / 4294967296 = hi at *
  have hsub : sub32 (s1.regs .r0) hi = s1.regs .r0 - hi := by
    unfold sub32
    omega
  have hadd : add32 hi ((s1.regs .r0 - hi) / 2) = hi + (s1.regs .r0 - hi) / 2 := by
    unfold add32
    omega
  by_cases hs1 : 1 < m.s
  · simp [exec, Result, hs1, h1, h3, hhi, hsub, hadd, hq]
  have hs0 : m.s - 1 = 0 := by omega
  rw [hs0, Nat.pow_zero, Nat.div_one] at hq
  simp [exec, Result, hs1, h1, h3, hhi, hsub, hadd, hq]

/-- The unsigned half leaves the quotient or the remainder in `r0`. -/
theorem genUDiv_correct (h0 : d ≠ 0) (hd : d < 4294967296) (mod : Bool) (s : Cpu)
    (hn : s.regs .r0 < 4294967296) (h3 : mod = true → s.regs .r3 = s.regs .r0) :
    (execAll s (genUDiv mod d)).regs .r0 = if mod then s.regs .r0 % d else s.regs .r0 / d := by
  unfold genUDiv
  split
  · next h1 =>
    subst h1
    cases mod <;> simp [exec, holds, Nat.mod_one]
  rename_i h1
  split
  · next hpow =>
    obtain ⟨k, hk, rfl⟩ := exists_two_pow h0 hd hpow
    simp only [ctz_two_pow 32 k hk]
    cases mod <;> simp [exec]
  obtain ⟨hq, hr3⟩ := genUQuot_correct (by omega) hd s hn
  rw [execAll_append]
  cases mod with
  | false => simpa [genRem] using hq
  | true => ?_
  rw [execAll_genRem _ hd, hq, hr3, h3 rfl]
  have hmul := Nat.div_mul_le_self (s.regs .r0) d
  have hmod := Nat.mod_eq_sub_mul_div (x := s.regs .r0) (k := d)
  have hw : s.regs .r0 / d * d % 4294967296 = s.regs .r0 / d * d := Nat.mod_eq_of_lt (by omega)
  rw [mul_comm d] at hmod
  rw [hw, if_pos rfl, hmod]
  unfold sub32
  omega

/-! ## Signed division -/

theorem toS_asr32 (hx : x < 4294967296) (k : Nat) : toS (asr32 x k) = toS x / 2 ^ k := by
  obtain ⟨h1, h2⟩ := toS_range hx
  have hpos : (0 : Int) < 2 ^ k := by positivity
  refine toS_ofS ?_ ?_
  · rw [Int.le_ediv_iff_mul_le hpos]
    nlinarith
  refine Int.ediv_lt_of_lt_mul hpos ?_
  nlinarith

theorem tdiv_signs (a b : Nat) :
    (a : Int).tdiv b = ((a / b : Nat) : Int) ∧ (-(a : Int)).tdiv b = -((a / b : Nat) : Int) ∧
      (a : Int).tdiv (-(b : Int)) = -((a / b : Nat) : Int) ∧
      (-(a : Int)).tdiv (-(b : Int)) = ((a / b : Nat) : Int) := by
  have h : (a : Int).tdiv b = ((a / b : Nat) : Int) := by
    rw [tdiv_eq_ediv_of_nonneg (by omega)]
    rfl
  refine ⟨h, ?_, ?_, ?_⟩
  · rw [Int.neg_tdiv, h]
  · rw [Int.tdiv_neg, h]
  rw [Int.neg_tdiv, Int.tdiv_neg, h, neg_neg]

theorem ediv_eq_of_bounds {q P : Int} (hP : 0 < P) (h1 : q * P ≤ z) (h2 : z < (q + 1) * P) : z / P = q := by
  have hlo : q ≤ z / P := Int.le_ediv_of_mul_le hP h1
  have hhi : z / P < q + 1 := Int.ediv_lt_of_lt_mul hP h2
  omega

/-- Rounding towards zero by adding `b - 1` to a negative dividend. -/
theorem tdiv_eq_bias (z : Int) (hb : 0 < b) :
    (z + if z < 0 then (b : Int) - 1 else 0) / b = z.tdiv b := by
  rcases Int.lt_or_le z 0 with hneg | hpos
  · obtain ⟨a, rfl⟩ : ∃ a : Nat, z = -(a : Int) := ⟨z.natAbs, by omega⟩
    rw [if_pos hneg, (tdiv_signs a b).2.1]
    have hmod : a % b < b := Nat.mod_lt _ hb
    have hdiv : b * (a / b) + a % b = a := Nat.div_add_mod a b
    generalize a / b = q at *
    generalize a % b = r at *
    have hdiv' : (a : Int) = b * q + r := by exact_mod_cast hdiv.symm
    refine ediv_eq_of_bounds (by omega) ?_ ?_
    · rw [hdiv']
      linarith [mul_comm (q : Int) b]
    rw [hdiv']
    linarith [mul_comm (q : Int) b, natCast_nonneg r]
  rw [if_neg (by omega), tdiv_eq_ediv_of_nonneg hpos, add_zero]

/-- The code for a divisor `2 ^ k`, on the dividend `x`. -/
theorem toS_pow_quot (hx : x < 4294967296) (hk1 : 1 ≤ k) (hk : k < 31) :
    toS (asr32 (add32 x (asr32 x 31 / 2 ^ (32 - k))) k) = (toS x).tdiv ((2 ^ k : Nat) : Int) := by
  obtain ⟨h1, h2⟩ := toS_range hx
  have hkpos : 0 < 2 ^ k := Nat.two_pow_pos k
  have hk30 : 2 ^ k ≤ 2 ^ 30 := Nat.pow_le_pow_right (by omega) (by omega)
  have hprod : 2 ^ k * 2 ^ (32 - k) = 4294967296 := by
    rw [← Nat.pow_add, show k + (32 - k) = 32 by omega]
  -- the sign, spread over the word and shifted, is the bias
  have hbias : ((asr32 x 31 / 2 ^ (32 - k) : Nat) : Int)
      = if toS x < 0 then ((2 ^ k : Nat) : Int) - 1 else 0 := by
    by_cases hneg : toS x < 0
    · have hall : asr32 x 31 = 4294967295 := by
        have hd : toS x / 2 ^ 31 = -1 := by
          have : (2 : Int) ^ 31 = 2147483648 := by norm_num
          omega
        rw [asr32, hd]
        rfl
      have hdiv : 4294967295 / 2 ^ (32 - k) = 2 ^ k - 1 := by
        refine Nat.div_eq_of_lt_le ?_ ?_
        · rw [Nat.sub_mul, hprod]
          have := Nat.two_pow_pos (32 - k)
          omega
        rw [Nat.sub_add_cancel hkpos, hprod]
        omega
      rw [if_pos hneg, hall, hdiv]
      omega
    have hzero : asr32 x 31 = 0 := by
      have hd : toS x / 2 ^ 31 = 0 := by
        have : (2 : Int) ^ 31 = 2147483648 := by norm_num
        omega
      rw [asr32, hd]
      rfl
    rw [if_neg hneg, hzero, Nat.zero_div]
    rfl
  have hlow : asr32 x 31 / 2 ^ (32 - k) < 2147483648 := by
    split at hbias <;> omega
  have hbS : toS (asr32 x 31 / 2 ^ (32 - k)) = ((asr32 x 31 / 2 ^ (32 - k) : Nat) : Int) := by
    rw [toS, if_pos hlow]
  have hlt : add32 x (asr32 x 31 / 2 ^ (32 - k)) < 4294967296 := Nat.mod_lt _ (by omega)
  rw [toS_asr32 hlt, add32_eq_ofS, hbS, hbias, toS_ofS]
  · rw [← tdiv_eq_bias _ hkpos]
    push_cast
    rfl
  · split <;> omega
  split <;> omega

theorem neg_ediv_eq {P q : Nat} (hP : 0 < P) (h1 : q * P < x) (h2 : x ≤ (q + 1) * P) :
    -(x : Int) / (P : Int) = -(q : Int) - 1 := by
  refine ediv_eq_of_bounds (by omega) ?_ ?_
  · have : (x : Int) ≤ ((q : Int) + 1) * P := by exact_mod_cast h2
    nlinarith
  have : (q : Int) * P < x := by exact_mod_cast h1
  nlinarith

/-- A quotient found by reciprocal: floor division of the signed product, plus one when it is
    negative. -/
def roundUp (z : Int) : Int := z + if z < 0 then 1 else 0

/-- `toS` by the top bit: the absolute value and the sign. -/
theorem toS_abs (hd : d < 4294967296) :
    (d < 2147483648 → toS d = (absWord d : Int)) ∧ (2147483648 ≤ d → toS d = -(absWord d : Int)) := by
  unfold toS absWord sub32
  constructor
  · intro h
    rw [if_pos h, if_neg (by omega)]
  intro h
  rw [if_neg (by omega), if_pos h]
  omega

section Magic

variable {d M e : Nat} (h : MagSOk d m M e) (hd : d < 4294967296) (had : 3 ≤ absWord d)
    (had' : absWord d < 2147483648)
include h hd had had'

/-- The error stays below the bound for every dividend, and reaches it at most for the least one. -/
theorem MagSOk.err (ha : a ≤ 2147483648) :
    a * e ≤ (absWord d - a % absWord d) * 2 ^ (32 + m.s) ∧ (a < 2147483648 + d / 2147483648 →
        a * e < (absWord d - a % absWord d) * 2 ^ (32 + m.s)) := by
  have hstrict : a < 2147483648 + d / 2147483648 → a * e < (absWord d - a % absWord d) * 2 ^ (32 + m.s) :=
    err_lt (by omega) (by omega) h.critical
  refine ⟨?_, hstrict⟩
  rcases lt_or_ge a (2147483648 + d / 2147483648) with hlt | hge
  · exact (hstrict hlt).le
  -- the least dividend by a positive divisor
  have hd0 : d / 2147483648 = 0 := by omega
  have ha' : a = 2147483648 := by omega
  have hcrit := h.critical
  rw [hd0, Nat.add_zero] at hcrit
  have hP : 2 ^ (32 + m.s) = 2147483648 * 2 ^ (1 + m.s) := by
    rw [Nat.pow_add, Nat.pow_add, ← Nat.mul_assoc]
  rw [ha']
  exact err_le_top (by omega) (by omega) hcrit hP (Nat.two_pow_pos _) h.errLe
    ⟨M, by rw [← h.reciprocal, mul_comm]⟩

/-- A non-negative product. -/
theorem MagSOk.pos_quot (ha : a < 2147483648 + d / 2147483648) :
    roundUp ((a : Int) * M / (2 ^ (32 + m.s) : Nat)) = ((a / absWord d : Nat) : Int) := by
  have herr := (h.err hd had had' (by omega)).2 ha
  have hq := mul_div_eq_of_err h.reciprocal (by omega) herr
  have hz : (a : Int) * M / (2 ^ (32 + m.s) : Nat) = ((a / absWord d : Nat) : Int) := by
    rw [← hq]
    norm_cast
  rw [hz]
  generalize a / absWord d = q
  rw [roundUp, if_neg (by omega), add_zero]

theorem MagSOk.neg_quot (ha0 : 0 < a) (ha : a ≤ 2147483648) :
    roundUp (-((a : Int) * M) / (2 ^ (32 + m.s) : Nat)) = -((a / absWord d : Nat) : Int) := by
  have herr := (h.err hd had had' ha).1
  have h1 := lt_mul_of_err h.reciprocal (by omega) h.errPos ha0
  have h2 := mul_le_of_err h.reciprocal (by omega) herr
  have hz : -((a : Int) * M) / (2 ^ (32 + m.s) : Nat) = -((a / absWord d : Nat) : Int) - 1 := by
    have := neg_ediv_eq (Nat.two_pow_pos _) h1 h2
    exact this
  rw [hz]
  generalize a / absWord d = q
  rw [roundUp, if_pos (by omega)]
  omega

/-- **Signed reciprocal division**: the product with the signed multiplier, rounded up when it is
    negative, is the C quotient. -/
theorem MagSOk.quot {n : Int} (h1 : -2147483648 ≤ n) (h2 : n < 2147483648) :
    roundUp ((if d ≥ 2147483648 then -(n * M) else n * M) / (2 ^ (32 + m.s) : Nat)) = n.tdiv (toS d) := by
  obtain ⟨hpos, hneg⟩ := toS_abs hd
  have hsigns := tdiv_signs n.natAbs (absWord d)
  rcases lt_or_ge d 2147483648 with hlt | hge
  · have hd0 : d / 2147483648 = 0 := by omega
    rw [if_neg (by omega), hpos hlt]
    rcases Int.lt_or_le n 0 with hn | hn
    · have hq := h.neg_quot hd had had' (show 0 < n.natAbs by omega) (by omega)
      rw [← hsigns.2.1] at hq
      rwa [show -((n.natAbs : Int) * M) = n * M by rw [show (n.natAbs : Int) = -n by omega]; ring,
        show -(n.natAbs : Int) = n by omega] at hq
    have hq := h.pos_quot hd had had' (show n.natAbs < _ by omega)
    rw [← hsigns.1] at hq
    rwa [show (n.natAbs : Int) = n by omega] at hq
  rw [if_pos hge, hneg hge]
  rcases Int.lt_or_le n 0 with hn | hn
  · have hq := h.pos_quot hd had had' (show n.natAbs < 2147483648 + d / 2147483648 by omega)
    rw [← hsigns.2.2.2] at hq
    rwa [show (n.natAbs : Int) * M = -(n * M) by rw [show (n.natAbs : Int) = -n by omega]; ring,
      show -(n.natAbs : Int) = n by omega] at hq
  rcases lt_or_eq_of_le hn with hn | rfl
  · have hq := h.neg_quot hd had had' (show 0 < n.natAbs by omega) (by omega)
    rw [← hsigns.2.2.1] at hq
    rwa [show (n.natAbs : Int) = n by omega] at hq
  simp [roundUp]

end Magic

/-! ## The emitted sequences -/

/-- The C quotient is in `r0`, and the saved dividend still in `r3`. -/
structure SQuotOk (s s' : Cpu) (d : Nat) : Prop where
  quot : toS (s'.regs .r0) = (toS (s.regs .r0)).tdiv (toS d)
  word : s'.regs .r0 < 4294967296
  saved : s'.regs .r3 = s.regs .r3

/-- The high word of the product with the multiplier, after the fix-up. -/
theorem signed_high (hx : x < 4294967296) (hM0 : 0 < M) (hM : M < 4294967296) :
    -2147483648 ≤ toS x * M / 4294967296 ∧ toS x * M / 4294967296 < 2147483648 ∧
      -2147483648 ≤ -(toS x * M) / 4294967296 ∧ -(toS x * M) / 4294967296 < 2147483648 := by
  obtain ⟨h1, h2⟩ := toS_range hx
  have hlo : -2147483648 * (M : Int) ≤ toS x * M := by nlinarith
  have hhi : toS x * M ≤ 2147483647 * (M : Int) := by nlinarith
  omega

theorem add32_ofS (z : Int) (x : Nat) : add32 (ofS z) x = ofS (z + toS x) := by
  unfold add32 ofS toS
  split <;> omega

theorem sub32_ofS (z : Int) (hx : x < 4294967296) : sub32 (ofS z) x = ofS (z - toS x) := by
  unfold sub32 ofS toS
  split <;> omega

/-- The two multiplications with their fix-ups give the high word of the true product. -/
theorem mulHigh_eq {Mw : Nat} (hx : x < 4294967296) (hM0 : 0 < M) (hM : M < 4294967296)
    (hw : Mw = if d ≥ 2147483648 then 4294967296 - M else M) :
    toS (if d < 2147483648 ∧ Mw ≥ 2147483648 then add32 (ofS (toS x * toS Mw / 4294967296)) x
        else if d ≥ 2147483648 ∧ 0 < Mw ∧ Mw < 2147483648 then sub32 (ofS (toS x * toS Mw / 4294967296)) x
        else ofS (toS x * toS Mw / 4294967296))
      = (if d ≥ 2147483648 then -(toS x * M) else toS x * M) / 4294967296 := by
  obtain ⟨hb1, hb2, hb3, hb4⟩ := signed_high hx hM0 hM
  rcases lt_or_ge d 2147483648 with hlt | hge
  · have hnot : ¬ d ≥ 2147483648 := by omega
    rw [if_neg hnot] at hw ⊢
    subst hw
    by_cases hbig : Mw ≥ 2147483648
    · -- the multiplier reads as `M - 2 ^ 32`: one dividend is missing
      have hS : toS Mw = (Mw : Int) - 4294967296 := by rw [toS, if_neg (by omega)]
      have hprod : toS x * toS Mw / 4294967296 + toS x = toS x * Mw / 4294967296 := by
        rw [hS, show toS x * ((Mw : Int) - 4294967296) = toS x * Mw + (-toS x) * 4294967296 by ring,
          add_mul_ediv_right _ _ (by omega)]
        omega
      rw [if_pos ⟨hlt, hbig⟩, add32_ofS, hprod, toS_ofS hb1 hb2]
    have hS : toS Mw = (Mw : Int) := by rw [toS, if_pos (by omega)]
    rw [if_neg (by omega), if_neg (by omega), hS, toS_ofS hb1 hb2]
  rw [if_pos hge] at hw ⊢
  by_cases hbig : M ≤ 2147483648
  · have hS : toS Mw = -(M : Int) := by
      rw [toS, if_neg (by omega)]
      omega
    rw [if_neg (by omega), if_neg (by omega), hS,
      show toS x * -(M : Int) = -(toS x * M) by ring, toS_ofS hb3 hb4]
  -- the multiplier reads as `2 ^ 32 - M`: one dividend too many
  have hS : toS Mw = 4294967296 - (M : Int) := by
    rw [toS, if_pos (by omega)]
    omega
  have hprod : toS x * toS Mw / 4294967296 = -(toS x * M) / 4294967296 + toS x := by
    rw [hS, show toS x * (4294967296 - (M : Int)) = -(toS x * M) + toS x * 4294967296 by ring,
      add_mul_ediv_right _ _ (by omega)]
  rw [if_neg (by omega), if_pos ⟨hge, by omega, by omega⟩, sub32_ofS _ hx, hprod,
    add_sub_cancel_right, toS_ofS hb3 hb4]

/-- `add r0, r1, r1, lsr #31` rounds up a negative quotient. -/
theorem toS_roundUp (hx : x < 4294967296) : toS (add32 x (x / 2 ^ 31)) = roundUp (toS x) := by
  unfold roundUp add32 toS
  split <;> split <;> split <;> omega

/-- The sequence with the magic number. -/
theorem magic_code_correct {e : Nat} (h : MagSOk d m M e) (hd : d < 4294967296)
    (had : 3 ≤ absWord d) (had' : absWord d < 2147483648) (s : Cpu) (hn : s.regs .r0 < 4294967296) :
    SQuotOk s (execAll s (loadImm .r1 m.M ++ [.smull .r2 .r1 .r0 .r1] ++
      (if d < 0x80000000 ∧ m.M ≥ 0x80000000 then [.add .r1 .r1 .r0]
        else if d ≥ 0x80000000 ∧ 0 < m.M ∧ m.M < 0x80000000 then [.sub .r1 .r1 .r0] else []) ++
      (if m.s ≠ 0 then [.asr .r1 .r1 m.s] else []) ++ [.addLsr .r0 .r1 .r1 31])) d := by
  have hMw : m.M < 4294967296 := by
    have h1 := h.word
    have h2 := h.lt
    have h3 := h.pos
    split at h1 <;> omega
  obtain ⟨h1, h2⟩ := execAll_loadImm s .r1 hMw
  have h0 := h2 .r0 (by decide)
  have h3 := h2 .r3 (by decide)
  simp only [execAll_append]
  generalize execAll s (loadImm .r1 m.M) = s1 at h1 h2 h0 h3
  rw [← h0] at hn
  have hhigh := mulHigh_eq hn h.pos h.lt h.word
  -- the product and its fix-up
  generalize hs2 : execAll (execAll s1 [.smull .r2 .r1 .r0 .r1])
    (if d < 0x80000000 ∧ m.M ≥ 0x80000000 then [.add .r1 .r1 .r0]
      else if d ≥ 0x80000000 ∧ 0 < m.M ∧ m.M < 0x80000000 then [.sub .r1 .r1 .r0] else []) = s2
  obtain ⟨hr1, hr3⟩ : (s2.regs .r1 = if d < 0x80000000 ∧ m.M ≥ 0x80000000 then
        add32 (ofS (toS (s1.regs .r0) * toS m.M / 4294967296)) (s1.regs .r0)
      else if d ≥ 0x80000000 ∧ 0 < m.M ∧ m.M < 0x80000000 then
        sub32 (ofS (toS (s1.regs .r0) * toS m.M / 4294967296)) (s1.regs .r0)
      else ofS (toS (s1.regs .r0) * toS m.M / 4294967296)) ∧ s2.regs .r3 = s1.regs .r3 := by
    rw [← hs2]
    split
    · simp [exec, h1]
    split <;> simp [exec, h1]
  have hw : s2.regs .r1 < 4294967296 := by
    rw [hr1]
    split
    · exact Nat.mod_lt _ (by omega)
    split
    · exact Nat.mod_lt _ (by omega)
    exact ofS_lt _
  rw [← hr1] at hhigh
  -- the shift
  generalize hs₃ : execAll s2 (if m.s ≠ 0 then [.asr .r1 .r1 m.s] else []) = s3
  have hr1' : toS (s3.regs .r1) = toS (s2.regs .r1) / 2 ^ m.s ∧ s3.regs .r1 < 4294967296 := by
    rw [← hs₃]
    split
    · simp only [execAll_cons, execAll_nil, exec, set_self]
      exact ⟨toS_asr32 hw _, ofS_lt _⟩
    rename_i hs0
    have hs0' : m.s = 0 := by omega
    rw [hs0', pow_zero, ediv_one]
    exact ⟨rfl, hw⟩
  have hr3' : s3.regs .r3 = s2.regs .r3 := by
    rw [← hs₃]
    split <;> simp [exec]
  have hpow : ((2 ^ (32 + m.s) : Nat) : Int) = 4294967296 * 2 ^ m.s := by
    rw [two_pow_add]
    push_cast
    rfl
  have hdiv : toS (s3.regs .r1) = (if d ≥ 2147483648 then -(toS (s1.regs .r0) * M) else toS (s1.regs .r0) * M)
        / (2 ^ (32 + m.s) : Nat) := by rw [hr1'.1, hhigh, hpow, ediv_ediv_of_nonneg (by omega)]
  obtain ⟨hn1, hn2⟩ := toS_range hn
  have hq := h.quot hd had had' hn1 hn2
  rw [← hdiv, ← toS_roundUp hr1'.2] at hq
  refine ⟨?_, ?_, ?_⟩
  · rw [← h0, ← hq]
    simp [exec]
  · simp only [execAll_cons, execAll_nil, exec, set_self]
    exact Nat.mod_lt _ (by omega)
  rw [← h3, ← hr3, ← hr3']
  simp [exec]

theorem absWord_spec (hd : d < 4294967296) (h1 : d ≠ 1) (h2 : d ≠ 0xffffffff) (h0 : d ≠ 0)
    (hmin : d ≠ 0x80000000) : 2 ≤ absWord d ∧ absWord d < 2147483648 := by
  unfold absWord sub32
  split <;> omega

/-- The least divisor: the quotient is `1` for the least dividend and `0` otherwise. -/
theorem min_code_correct (s : Cpu) (hn : s.regs .r0 < 4294967296) :
    SQuotOk s (execAll s [.cmpImm .r0 0x80000000, .movImm .eq .r0 1, .movImm .ne .r0 0])
      0x80000000 := by
  obtain ⟨hn1, hn2⟩ := toS_range hn
  have hr0 : (execAll s [.cmpImm .r0 0x80000000, .movImm .eq .r0 1, .movImm .ne .r0 0]).regs .r0
      = if s.regs .r0 = 0x80000000 then 1 else 0 := by
    split <;> simp [exec, Cpu.compare, Cpu.holds, *]
  refine ⟨?_, by rw [hr0]; split <;> omega, ?_⟩
  · rw [hr0]
    split
    · next heq =>
      rw [heq]
      decide
    next heq =>
    have hne : toS (s.regs .r0) ≠ -2147483648 := fun h =>
      heq (toS_inj hn (by omega) (by rw [h]; decide))
    have hz : ((toS (s.regs .r0)).tdiv (toS 0x80000000)).natAbs = 0 := by
      rw [natAbs_tdiv, show (toS 0x80000000).natAbs = 2147483648 by decide]
      exact Nat.div_eq_of_lt (by omega)
    rw [natAbs_eq_zero.1 hz]
    decide
  by_cases heq : s.regs .r0 = 0x80000000 <;> simp [exec, Cpu.compare, Cpu.holds, heq]

theorem tdiv_bound (h1 : -2147483648 ≤ z) (h2 : z < 2147483648) (hb : 2 ≤ b) :
    -2147483647 ≤ z.tdiv b ∧ z.tdiv b ≤ 2147483647 := by
  have habs : (z.tdiv b).natAbs = z.natAbs / (b : Int).natAbs := natAbs_tdiv z b
  rw [natAbs_natCast] at habs
  have hle : z.natAbs / b ≤ z.natAbs / 2 := Nat.div_le_div_left hb (by omega)
  omega

/-- Divisors `2 ^ k` and `-2 ^ k`. -/
theorem pow_code_correct (hd : d < 4294967296) (hk1 : 1 ≤ k) (hk : k < 31)
    (hak : absWord d = 2 ^ k) (s : Cpu) (hn : s.regs .r0 < 4294967296) :
    SQuotOk s (execAll s ([.asr .r1 .r0 31, .addLsr .r0 .r0 .r1 (32 - k), .asr .r0 .r0 k] ++
      if d ≥ 0x80000000 then [.rsb .r0 .r0 0] else [])) d := by
  have hquot := toS_pow_quot hn hk1 hk
  obtain ⟨hpos, hneg⟩ := toS_abs hd
  obtain ⟨hn1, hn2⟩ := toS_range hn
  generalize hq : asr32 (add32 (s.regs .r0) (asr32 (s.regs .r0) 31 / 2 ^ (32 - k))) k = q at hquot
  have hqw : q < 4294967296 := by
    rw [← hq]
    exact ofS_lt _
  by_cases hge : d ≥ 0x80000000
  · rw [if_pos hge]
    have hr0 : (execAll s ([.asr .r1 .r0 31, .addLsr .r0 .r0 .r1 (32 - k), .asr .r0 .r0 k]
        ++ [.rsb .r0 .r0 0])).regs .r0 = sub32 0 q := by simp [exec, hq]
    refine ⟨?_, by rw [hr0]; exact Nat.mod_lt _ (by omega), by simp [exec]⟩
    have h2k : 2 ≤ 2 ^ k := by
      calc 2 = 2 ^ 1 := rfl
        _ ≤ 2 ^ k := Nat.pow_le_pow_right (by omega) hk1
    obtain ⟨hb1, hb2⟩ := tdiv_bound hn1 hn2 h2k
    rw [hr0, sub32_eq_ofS hqw, hquot, hneg hge, hak, Int.tdiv_neg, show toS 0 = 0 by decide,
      zero_sub, toS_ofS (by omega) (by omega)]
  rw [if_neg hge, List.append_nil]
  have hr0 : (execAll s [.asr .r1 .r0 31, .addLsr .r0 .r0 .r1 (32 - k), .asr .r0 .r0 k]).regs .r0 = q := by
    simp [exec, hq]
  exact ⟨by rw [hr0, hquot, hpos (by omega), hak], by rw [hr0]; exact hqw, by simp [exec]⟩

/-- The quotient by any signed divisor but `0`, `1` and `-1`. -/
theorem genSQuot_correct (hd : d < 4294967296) (h0 : d ≠ 0) (h1 : d ≠ 1)
    (h2 : d ≠ 0xffffffff) : ∃ code, genSQuot d = some code ∧
      ∀ s : Cpu, s.regs .r0 < 4294967296 → SQuotOk s (execAll s code) d := by
  simp only [genSQuot]
  split
  · next hmin =>
    subst hmin
    exact ⟨_, rfl, min_code_correct⟩
  rename_i hmin
  obtain ⟨had2, had'⟩ := absWord_spec hd h1 h2 h0 hmin
  split
  · next hpow =>
    obtain ⟨k, hk, hak⟩ := exists_two_pow (by omega) (by omega) hpow
    have hctz : ctz 32 (absWord d) = k := by rw [hak, ctz_two_pow 32 k hk]
    have hk1 : 1 ≤ k := by
      by_contra hk0
      obtain rfl : k = 0 := by omega
      rw [hak] at had2
      simp at had2
    have hk31 : k < 31 := by
      refine (Nat.pow_lt_pow_iff_right (show 1 < 2 by omega)).1 ?_
      omega
    rw [hctz]
    exact ⟨_, rfl, pow_code_correct hd hk1 hk31 hak⟩
  rename_i hpow
  have hodd := two_pow_mod_ne_zero (by omega) hpow
  have had : 3 ≤ absWord d := by
    by_contra hlt
    refine hodd 1 ?_
    have h : absWord d = 2 := by omega
    rw [h]
    decide
  obtain ⟨m, M, e, hm, hok⟩ := magicS_ok hd had had' hodd
  rw [hm]
  exact ⟨_, rfl, magic_code_correct hok hd had had'⟩

theorem mls_eq_ofS (x y w : Nat) : sub32 x (y * w % 4294967296) = ofS (toS x - toS y * toS w) := by
  have hx := toS_emod x
  have hprod : (toS y * toS w) % 4294967296 = ((y * w % 4294967296 : Nat) : Int) := by
    rw [mul_emod, toS_emod, toS_emod, ← mul_emod]
    norm_cast
  have hdiff : (toS x - toS y * toS w) % 4294967296
      = ((x : Int) - ((y * w % 4294967296 : Nat) : Int)) % 4294967296 := by
    rw [sub_emod, hx, hprod, ← sub_emod_right]
    rw [sub_emod (x : Int)]
    omega
  unfold ofS
  rw [hdiff]
  unfold sub32
  omega

/-- The signed half leaves the quotient or the remainder in `r0`. -/
theorem genSDiv_correct (hd : d < 4294967296) (h0 : d ≠ 0) (mod : Bool) :
    ∃ code, genSDiv mod d = some code ∧ ∀ s : Cpu, s.regs .r0 < 4294967296 →
      (mod = true → s.regs .r3 = s.regs .r0) →
      ¬ (s.regs .r0 = 0x80000000 ∧ d = 0xffffffff) →
      toS ((execAll s code).regs .r0)
        = if mod then (toS (s.regs .r0)).tmod (toS d) else (toS (s.regs .r0)).tdiv (toS d) := by
  unfold genSDiv
  split
  · next hone =>
    refine ⟨_, rfl, fun s hn _ hov => ?_⟩
    obtain ⟨hn1, hn2⟩ := toS_range hn
    rcases hone with rfl | rfl
    · cases mod <;> simp [exec, holds, toS]
    have hS : toS 0xffffffff = -1 := by decide
    have hne : toS (s.regs .r0) ≠ -2147483648 := fun h =>
      hov ⟨toS_inj hn (by omega) (by rw [h]; decide), rfl⟩
    cases mod with
    | true => simp [exec, holds, toS]
    | false => ?_
    have hneg : toS (sub32 0 (s.regs .r0)) = -toS (s.regs .r0) := by
      rw [sub32_eq_ofS hn, show toS 0 = 0 by decide, zero_sub, toS_ofS (by omega) (by omega)]
    simp [exec, hS, hneg]
  rename_i hone
  obtain ⟨code, hcode, hq⟩ := genSQuot_correct hd h0 (fun h => hone (.inl h)) fun h => hone (.inr h)
  rw [hcode]
  refine ⟨_, rfl, fun s hn h3 _ => ?_⟩
  obtain ⟨hquot, hword, hsaved⟩ := hq s hn
  rw [execAll_append]
  cases mod with
  | false => simpa [genRem] using hquot
  | true => ?_
  obtain ⟨hd1, hd2⟩ := toS_range hd
  have hdef : toS (s.regs .r0) - (toS (s.regs .r0)).tdiv (toS d) * toS d
      = (toS (s.regs .r0)).tmod (toS d) := by rw [tmod_def, mul_comm]
  have habs : ((toS (s.regs .r0)).tmod (toS d)).natAbs
      = (toS (s.regs .r0)).natAbs % (toS d).natAbs := natAbs_tmod _ _
  have hle := Nat.mod_le (toS (s.regs .r0)).natAbs (toS d).natAbs
  have hlt : (toS (s.regs .r0)).natAbs % (toS d).natAbs < (toS d).natAbs := by
    refine Nat.mod_lt _ ?_
    have : toS d ≠ 0 := fun h => h0 (toS_inj hd (by omega) (by rw [h]; decide))
    omega
  rw [execAll_genRem _ hd, hsaved, h3 rfl, mls_eq_ofS, hquot, hdef, if_pos rfl, toS_ofS (by omega) (by omega)]

/-- **Division by constants**: for every nonzero divisor a sequence is emitted, and on every
    dividend it leaves the C quotient or remainder in `r0`. -/
theorem genDiv32Const_correct (u mod : Bool) {d : Nat} (hd : d < 4294967296) (h0 : d ≠ 0) :
    ∃ code, genDiv32Const u mod d = some code ∧ ∀ s : Cpu, s.regs .r0 < 4294967296 → if u then
        (execAll s code).regs .r0 = if mod then s.regs .r0 % d else s.regs .r0 / d
      else ¬ (s.regs .r0 = 0x80000000 ∧ d = 0xffffffff) → toS ((execAll s code).regs .r0)
            = if mod then (toS (s.regs .r0)).tmod (toS d) else (toS (s.regs .r0)).tdiv (toS d) := by
  have hsave : ∀ s : Cpu, (execAll s (if mod then [Instr.mov .r3 .r0] else [])).regs .r0 = s.regs .r0 ∧
      (mod = true → (execAll s (if mod then [Instr.mov .r3 .r0] else [])).regs .r3 = s.regs .r0) := by
    intro s
    cases mod <;> simp [exec]
  unfold genDiv32Const
  rw [if_neg h0]
  cases u with
  | true =>
    refine ⟨_, rfl, fun s hn => ?_⟩
    obtain ⟨hs0, hs3⟩ := hsave s
    rw [if_pos rfl, execAll_append, ← hs0]
    exact genUDiv_correct h0 hd mod _ (by rw [hs0]; exact hn) fun h => by rw [hs3 h, hs0]
  | false => ?_
  obtain ⟨code, hcode, hok⟩ := genSDiv_correct hd h0 mod
  rw [hcode]
  refine ⟨_, rfl, fun s hn => ?_⟩
  obtain ⟨hs0, hs3⟩ := hsave s
  rw [if_neg (by simp), execAll_append, ← hs0]
  exact hok _ (by rw [hs0]; exact hn) fun h => by rw [hs3 h, hs0]

/-- `-7 / 7`, by multiplication with the magic number of `7`. -/
theorem genDiv32Const_correct_seven : ∃ code, genDiv32Const false false 7 = some code ∧
      toS ((execAll ⟨fun _ => 4294967289, false, false⟩ code).regs .r0) = -1 := by
  obtain ⟨code, hcode, hok⟩ := genDiv32Const_correct false false (show 7 < 4294967296 by decide) (by decide)
  exact ⟨code, hcode, (hok ⟨fun _ => 4294967289, false, false⟩ (by decide)) (by decide)⟩

end Embedded.Toolchain
