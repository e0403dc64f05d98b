import Embedded.Sim.Armv7m
import Embedded.Sim.Cpu

/-! # Simulated data processing against the architecture

For every 16-bit data processing instruction outside an IT block: when the registers and the flags after a
step of the simulator are those that the architecture defines. -/

namespace Embedded.Sim

open Arch (State)
open BitVec (eq_of_toNat_eq msb_and msb_not msb_xor toNat_add toNat_ofNat toNat_setWidth)
open Option (map_some)
open Arch (addC addCarry addOverflow immShift shift shiftCarry)

variable {i n m insn : Nat} {s : State} {σ : Type}

variable {d : Nat} {out : State}

/-- The registers and the flags of a simulated CPU. -/
def archState (c : Cpu) : State :=
  { r := c.r
    n := c.xpsr.getLsbD 31
    z := c.xpsr.getLsbD 30
    c := c.xpsr.getLsbD 29
    v := c.xpsr.getLsbD 28 }

/-! ## Flags -/

theorem and_sign_ne (v : BitVec 32) : (v &&& 0x80000000 ≠ 0) ↔ v.msb = true := by
  have hbit : v &&& 0x80000000 = if v.getLsbD 31 then 0x80000000 else 0 := BitVec.and_twoPow v 31
  rw [hbit, BitVec.msb_eq_getLsbD_last]
  cases v.getLsbD 31 <;> decide

theorem and_sign_bne (v : BitVec 32) : (v &&& 0x80000000 != 0) = v.msb := by
  rw [Bool.eq_iff_iff, bne_iff_ne]
  exact and_sign_ne v

theorem setNz_flags (x v : BitVec 32) : (setNz x v).getLsbD 31 = v.msb ∧ (setNz x v).getLsbD 30 = (v == 0) ∧
      (setNz x v).getLsbD 29 = x.getLsbD 29 ∧ (setNz x v).getLsbD 28 = x.getLsbD 28 := by
  unfold setNz
  simp only [and_sign_ne]
  by_cases hz : v = 0#32
  · subst hz
    simp [FLAG_N, FLAG_Z]
  by_cases hm : v.msb = true
  · simp [hz, hm, FLAG_N, FLAG_Z]
  simp [hz, hm, FLAG_N, FLAG_Z]

theorem putFlag_c (x : BitVec 32) (b : Bool) :
    (putFlag x FLAG_C b).getLsbD 31 = x.getLsbD 31 ∧ (putFlag x FLAG_C b).getLsbD 30 = x.getLsbD 30 ∧
      (putFlag x FLAG_C b).getLsbD 29 = b ∧ (putFlag x FLAG_C b).getLsbD 28 = x.getLsbD 28 := by
  cases b <;> simp [putFlag, FLAG_C]

theorem putFlag_v (x : BitVec 32) (b : Bool) :
    (putFlag x FLAG_V b).getLsbD 31 = x.getLsbD 31 ∧ (putFlag x FLAG_V b).getLsbD 30 = x.getLsbD 30 ∧
      (putFlag x FLAG_V b).getLsbD 29 = x.getLsbD 29 ∧ (putFlag x FLAG_V b).getLsbD 28 = b := by
  cases b <;> simp [putFlag, FLAG_V]

theorem archState_setNz (c : Cpu) (v : BitVec 32) :
    archState { c with xpsr := setNz c.xpsr v } = (archState c).setNz v := by
  obtain ⟨hn, hz, hc, hv⟩ := setNz_flags c.xpsr v
  simp only [archState, State.setNz, hn, hz, hc, hv]

/-- N and Z from a result, C and V as given. -/
theorem archState_putFlags (c : Cpu) (r : BitVec 32) (carry overflow : Bool) :
    archState { c with xpsr := putFlag (putFlag (setNz c.xpsr r) FLAG_C carry) FLAG_V overflow } =
      { (archState c).setNz r with c := carry, v := overflow } := by
  obtain ⟨hn, hz, hc, hv⟩ := setNz_flags c.xpsr r
  obtain ⟨cn, cz, cc, cv⟩ := putFlag_c (setNz c.xpsr r) carry
  obtain ⟨vn, vz, vc, vv⟩ := putFlag_v (putFlag (setNz c.xpsr r) FLAG_C carry) overflow
  simp only [archState, State.setNz, vn, vz, vc, vv, cn, cz, cc, hn, hz]

/-! ## Sums -/

theorem addCarry_eq (x y : BitVec 32) (k : Bool) :
    addCarry x y k = decide (4294967296 ≤ x.toNat + y.toNat + k.toNat) := by
  rw [Bool.eq_iff_iff, decide_eq_true_iff]
  simp only [addCarry, addC, toNat_ofNat, bne_iff_ne]
  omega

theorem msb_eq (x : BitVec 32) : x.msb = decide (2147483648 ≤ x.toNat) := BitVec.msb_eq_decide x

/-- Overflow: the operands have one sign and the result has the other. -/
theorem addOverflow_eq (x y : BitVec 32) (k : Bool) :
    addOverflow x y k = (x.msb == y.msb && x.msb != (addC x y k).msb) := by
  have hk := Bool.toNat_le k
  have hx := x.isLt
  have hy := y.isLt
  simp only [addOverflow, addC, BitVec.toInt_eq_msb_cond, msb_eq, toNat_ofNat]
  generalize x.toNat = X at *
  generalize y.toNat = Y at *
  generalize k.toNat = K at *
  by_cases h1 : 2147483648 ≤ X <;> by_cases h2 : 2147483648 ≤ Y <;>
    by_cases h3 : 2147483648 ≤ (X + Y + K) % 2 ^ 32 <;>
    simp only [h1, h2, h3, decide_true, decide_false, if_true, if_false, Bool.and_true, Bool.and_false,
      Bool.true_beq, Bool.false_beq, bne_iff_ne, Bool.false_eq_true, bne_eq_false_iff_eq,
      Bool.not_true, Bool.not_false, Bool.bne_true, Bool.bne_false, beq_self_eq_true, bne_self_eq_false, ne_eq] <;>
    omega

variable (a b : BitVec 32)

/-- `a - b - (1 - k)` is the sum of `a`, the complement of `b` and `k`. -/
theorem addC_not (k : Bool) : addC a (~~~b) k = a - b - (if k then 0 else 1) := by
  apply eq_of_toNat_eq
  cases k <;> simp [addC] <;> omega

theorem addC_false : addC a b false = a + b := by
  apply eq_of_toNat_eq
  simp [addC]

theorem addCarry_not (k : Bool) :
    addCarry a (~~~b) k = decide (b.toNat + (if k then 0 else 1) ≤ a.toNat) := by
  rw [addCarry_eq]
  congr 1
  cases k <;> simp <;> omega

/-- The test of `set_nzcv_sub` for overflow. -/
theorem addOverflow_not (k : Bool) : addOverflow a (~~~b) k =
      ((a ^^^ b) &&& (a ^^^ addC a (~~~b) k) &&& 0x80000000 != 0) := by
  rw [and_sign_bne, addOverflow_eq, msb_and, msb_xor, msb_xor, msb_not]
  cases a.msb <;> cases b.msb <;> rfl

theorem addOverflow_xor (k : Bool) : addOverflow a b k =
      ((a ^^^ ~~~b) &&& (a ^^^ addC a b k) &&& 0x80000000 != 0) := by
  rw [and_sign_bne, addOverflow_eq, msb_and, msb_xor, msb_xor, msb_not]
  cases a.msb <;> cases b.msb <;> rfl

theorem setWidth_sub_setWidth : (a.setWidth 64 - b.setWidth 64).setWidth 32 = addC a (~~~b) true := by
  rw [addC_not]
  apply eq_of_toNat_eq
  simp [BitVec.toNat_sub]
  omega

theorem setWidth_add_setWidth : (a.setWidth 64 + b.setWidth 64).setWidth 32 = addC a b false := by
  apply eq_of_toNat_eq
  simp [addC]

theorem toNat_add_setWidth : (a.setWidth 64 + b.setWidth 64).toNat = a.toNat + b.toNat := by
  simp only [toNat_add, toNat_setWidth]
  omega

variable (c : Cpu)

theorem archState_nzcvSub (a b : BitVec 32) (result : BitVec 64) :
    archState { c with xpsr := setNzcvSub c.xpsr a b result } =
      { (archState c).setNz (result.setWidth 32) with
        c := decide (b.toNat ≤ a.toNat)
        v := (a ^^^ b) &&& (a ^^^ result.setWidth 32) &&& 0x80000000 != 0 } :=
  archState_putFlags c _ _ _

theorem archState_nzcvAdd (a b : BitVec 32) (result : BitVec 64) :
    archState { c with xpsr := setNzcvAdd c.xpsr a b result } =
      { (archState c).setNz (result.setWidth 32) with
        c := decide (0xFFFFFFFF < result.toNat)
        v := (a ^^^ ~~~b) &&& (a ^^^ result.setWidth 32) &&& 0x80000000 != 0 } :=
  archState_putFlags c _ _ _

theorem archState_cmp (a b : BitVec 32) : archState (c.cmp a b) = (archState c).setAdd a (~~~b) true := by
  rw [Cpu.cmp, archState_nzcvSub, setWidth_sub_setWidth, State.setAdd, addCarry_not, addOverflow_not]
  rfl

theorem archState_add (a b : BitVec 32) :
    archState { c with xpsr := setNzcvAdd c.xpsr a b (a.setWidth 64 + b.setWidth 64) } =
      (archState c).setAdd a b false := by
  have hcarry : decide (0xFFFFFFFF < a.toNat + b.toNat) = addCarry a b false := by
    rw [addCarry_eq]
    congr 1
  rw [archState_nzcvAdd, setWidth_add_setWidth, toNat_add_setWidth, hcarry, State.setAdd, addOverflow_xor]

/-! ## One instruction -/

theorem fetched_r (h : i ≠ 15) : (fetched c).r i = (archState c).read i := by
  rw [State.read, if_neg h]
  exact Function.update_of_ne h _ _

theorem fetched_low (h : i < 8) : (fetched c).r i = (archState c).read i := fetched_r c (by omega)

theorem write_low (h : d < 8) (v : BitVec 32) :
    s.write d v = some { s.next with r := Function.update s.next.r d v } := by
  rw [State.write, if_neg (by omega), if_neg (by omega)]

theorem archState_set (d : Nat) (v x : BitVec 32) : archState { c.set d v with xpsr := x } =
      { archState { c with xpsr := x } with r := Function.update c.r d v } := rfl

theorem putNz_result (h : d < 8) (v : BitVec 32) :
    some (archState ((fetched c).putNz d v)) = (archState c).result d v := by
  rw [State.result, write_low h, Cpu.putNz, archState_set, archState_setNz]
  rfl

theorem putSub_sum (h : d < 8) (a b : BitVec 32) :
    some (archState ((fetched c).putSub d a b)) = (archState c).sum d a (~~~b) true := by
  have hcmp := archState_cmp (fetched c) a b
  rw [Cpu.cmp] at hcmp
  rw [State.sum, write_low h, Cpu.putSub, archState_set, hcmp, setWidth_sub_setWidth]
  rfl

theorem putAdd_sum (h : d < 8) (a b : BitVec 32) :
    some (archState ((fetched c).putAdd d a b)) = (archState c).sum d a b false := by
  rw [State.sum, write_low h, Cpu.putAdd, archState_set, archState_add, setWidth_add_setWidth]
  rfl

/-- A result without a carry is the shifted result if value and carry agree. -/
theorem result_eq_shifted (h : d < 8) (v x : BitVec 32) (t : Arch.SRType) (amount : Nat) :
    s.result d v = s.shifted d x t amount ↔ v = shift x t amount ∧ s.c = shiftCarry x t amount s.c := by
  rw [State.shifted, State.result, State.result, write_low h, write_low h, Option.some.injEq]
  constructor
  · intro he
    constructor
    · have hr := congrFun (congrArg State.r he) d
      simpa using hr
    exact congrArg State.c he
  rintro ⟨hv, hc⟩
  rw [hv]
  exact State.ext rfl rfl rfl hc rfl

/-! ## Shifts -/

theorem sshiftRight_of_le (x : BitVec 32) (h : 31 ≤ n) : x.sshiftRight n = x.sshiftRight 31 := by
  apply BitVec.eq_of_getLsbD_eq
  intro i hi
  rw [BitVec.getLsbD_sshiftRight, BitVec.getLsbD_sshiftRight]
  by_cases h0 : i = 0
  · subst h0
    by_cases h31 : n = 31
    · rw [h31]
    have hn : ¬ n < 32 := by omega
    simp [hn, BitVec.msb_eq_getLsbD_last]
  have hn : ¬ n + i < 32 := by omega
  have hi' : ¬ 31 + i < 32 := by omega
  simp [hn, hi']

theorem lslImm_value (x : BitVec 32) (imm5 : Nat) :
    (if imm5 = 0 then x else x <<< imm5) = shift x .lsl (immShift .lsl imm5) := by
  by_cases h : imm5 = 0
  · simp [h, shift, immShift]
  simp [h, shift, immShift]

theorem lsrImm_value (x : BitVec 32) (imm5 : Nat) :
    (if imm5 = 0 then 0 else x >>> imm5) = shift x .lsr (immShift .lsr imm5) := by
  by_cases h : imm5 = 0
  · simp only [h, if_true, shift, immShift]
    exact (BitVec.ushiftRight_eq_zero (Nat.le_refl 32)).symm
  simp [h, shift, immShift]

theorem asrImm_value (x : BitVec 32) (imm5 : Nat) :
    (if imm5 = 0 then x.sshiftRight 31 else x.sshiftRight imm5) = shift x .asr (immShift .asr imm5) := by
  by_cases h : imm5 = 0
  · simp only [h, if_true, shift, immShift]
    exact (sshiftRight_of_le x (by decide)).symm
  simp [h, shift, immShift]

/-- A shift by the low five bits against one by the low byte, where all shifts from 32 on give `z`. -/
theorem shiftReg_iff {f : Nat → BitVec 32} {z : BitVec 32} (hz : ∀ n, 32 ≤ n → f n = z) (b : BitVec 32) :
    f (b.toNat % 32) = f (b.toNat % 256) ↔ b.toNat % 256 < 32 ∨ f (b.toNat % 32) = z := by
  by_cases h : b.toNat % 256 < 32
  · have hm : b.toNat % 32 = b.toNat % 256 := by omega
    simp [h, hm]
  rw [hz (b.toNat % 256) (by omega)]
  simp [h]

theorem ror_value (a b : BitVec 32) :
    (if b.toNat % 32 ≠ 0 then (a >>> (b.toNat % 32)) ||| (a <<< (32 - b.toNat % 32)) else a) =
      shift a .ror (b.toNat % 256) := by
  have hm : b.toNat % 256 % 32 = b.toNat % 32 := by omega
  rw [shift, hm, BitVec.rotateRight_def, Nat.mod_mod]
  by_cases h : b.toNat % 32 = 0
  · simp [h]
  simp [h]

/-! ## Carry-using instructions -/

theorem toNat_carryBit (c : Cpu) : (carryBit c.xpsr).toNat = (archState c).c.toNat := by
  have h : (carryBit c.xpsr).toNat = c.xpsr.toNat / 2 ^ 29 % 2 := by
    simp [carryBit, Nat.shiftRight_eq_div_pow]
  show _ = (c.xpsr.toNat.testBit 29).toNat
  rw [h, Nat.testBit_eq_decide_div_mod_eq]
  generalize c.xpsr.toNat / 2 ^ 29 = k
  by_cases hb : k % 2 = 1
  · simp [hb]
  have hb' : k % 2 = 0 := by omega
  simp [hb']

theorem carryBit_eq (c : Cpu) : carryBit c.xpsr = BitVec.ofNat 32 (archState c).c.toNat := by
  apply eq_of_toNat_eq
  rw [toNat_carryBit, toNat_ofNat, Nat.mod_eq_of_lt]
  exact Nat.lt_of_le_of_lt (Bool.toNat_le _) (by decide)

/-- The sum that ADC forms is that of the architecture, with its carry. -/
theorem adc_value (c : Cpu) (a b : BitVec 32) :
    (a.setWidth 64 + b.setWidth 64 + (carryBit c.xpsr).setWidth 64).setWidth 32 = addC a b (archState c).c ∧
      decide (0xFFFFFFFF < (a.setWidth 64 + b.setWidth 64 + (carryBit c.xpsr).setWidth 64).toNat) =
        addCarry a b (archState c).c := by
  have hk := Bool.toNat_le (archState c).c
  have hsum : (a.setWidth 64 + b.setWidth 64 + (carryBit c.xpsr).setWidth 64).toNat =
      a.toNat + b.toNat + (archState c).c.toNat := by
    rw [toNat_add, toNat_add_setWidth, toNat_setWidth, toNat_carryBit]
    omega
  constructor
  · apply eq_of_toNat_eq
    rw [toNat_setWidth, hsum, addC, toNat_ofNat]
  rw [addCarry_eq, hsum]
  congr 1

/-- ADC adds the carry to its second operand before it tests for overflow: that is the overflow of the
architecture unless the addition changes the sign of the operand from plus to minus. -/
theorem adc_overflow_iff (a b : BitVec 32) (k : Bool) :
    ((a ^^^ ~~~(b + BitVec.ofNat 32 k.toNat)) &&& (a ^^^ addC a b k) &&& 0x80000000 != 0) =
        addOverflow a b k ↔
      ¬ (k = true ∧ b = 0x7FFFFFFF) := by
  have ha := a.isLt
  have hb := b.isLt
  have hbeq : b = 0x7FFFFFFF ↔ b.toNat = 0x7FFFFFFF := ⟨fun h => by rw [h]; rfl, fun h => eq_of_toNat_eq h⟩
  rw [and_sign_bne, addOverflow_eq, msb_and, msb_xor, msb_xor, msb_not, hbeq]
  simp only [addC, msb_eq, toNat_ofNat, toNat_add]
  generalize a.toNat = A at *
  generalize b.toNat = B at *
  cases k with
  | false =>
    simp only [Bool.toNat_false, Nat.zero_mod, Nat.add_zero, Nat.mod_eq_of_lt hb, Bool.false_eq_true, false_and,
      not_false_eq_true, iff_true]
    cases decide (2147483648 ≤ A) <;> cases decide (2147483648 ≤ B) <;> rfl
  | true => ?_
  simp only [Bool.toNat_true, true_and]
  by_cases h1 : 2147483648 ≤ A <;> by_cases h2 : 2147483648 ≤ B <;>
    by_cases h3 : 2147483648 ≤ (A + B + 1) % 4294967296 <;> by_cases h4 : 2147483648 ≤ (B + 1) % 4294967296 <;>
    simp [h1, h2, h3, h4] <;> omega

theorem sbc_value (c : Cpu) (a b : BitVec 32) :
    (a.setWidth 64 - b.setWidth 64 - (carryBit c.xpsr ^^^ 1).setWidth 64).setWidth 32 =
      addC a (~~~b) (archState c).c := by
  rw [carryBit_eq, addC_not]
  apply eq_of_toNat_eq
  cases (archState c).c <;> simp [BitVec.toNat_sub] <;> omega

/-! ## The instructions that match -/

/-- When the simulated instruction does what the architecture defines: a shift when the carry happens to be
what it shifts out (it never sets it) and, by a register, when its low five bits shift like its low byte;
ADC unless the carry turns the sign of the second operand; SBC unless it borrows from equal operands; a
read of the PC never. -/
def AluExact (op : Arch.AluOp) (a b : BitVec 32) (carry : Bool) : Prop :=
  match op with
  | .lsl => (b.toNat % 256 < 32 ∨ a <<< (b.toNat % 32) = 0) ∧ carry = Arch.shiftCarry a .lsl (b.toNat % 256) carry
  | .lsr => (b.toNat % 256 < 32 ∨ a >>> (b.toNat % 32) = 0) ∧ carry = Arch.shiftCarry a .lsr (b.toNat % 256) carry
  | .asr =>
    (b.toNat % 256 < 32 ∨ a.sshiftRight (b.toNat % 32) = a.sshiftRight 31) ∧
      carry = Arch.shiftCarry a .asr (b.toNat % 256) carry
  | .ror => carry = Arch.shiftCarry a .ror (b.toNat % 256) carry
  | .adc => ¬ (carry = true ∧ b = 0x7FFFFFFF)
  | .sbc => ¬ (carry = false ∧ a = b)
  | _ => True

/-- The condition for every instruction. -/
def Exact (i : Arch.Insn) (s : State) : Prop :=
  match i with
  | .shiftImm t imm5 rm _ => s.c = Arch.shiftCarry (s.r rm) t (Arch.immShift t imm5) s.c
  | .alu op rm rd => AluExact op (s.r rd) (s.r rm) s.c
  | .addHigh rd rm => rd ≠ 15 ∧ rm ≠ 15
  | .movHigh _ rm => rm ≠ 15
  | _ => True

theorem read_low (s : State) (h : i < 8) : s.read i = s.r i := if_neg (by omega)

theorem adc_matches_iff (c : Cpu) (h : d < 8) (a b : BitVec 32) : let c' := fetched c
    let r := a.setWidth 64 + b.setWidth 64 + (carryBit c'.xpsr).setWidth 64
    some (archState { c'.set d (r.setWidth 32) with
        xpsr := setNzcvAdd c'.xpsr a (b + carryBit c'.xpsr) r }) = (archState c).sum d a b (archState c).c ↔
      AluExact .adc a b (archState c).c := by
  intro c' r
  obtain ⟨hval, hcarry⟩ := adc_value c' a b
  have hk : (archState c').c = (archState c).c := rfl
  rw [State.sum, write_low h, archState_set, archState_nzcvAdd, hcarry, hval, hk, Option.some.injEq, AluExact,
    ← adc_overflow_iff, ← hk, ← carryBit_eq]
  constructor
  · intro he
    exact congrArg State.v he
  intro hv
  exact State.ext rfl rfl rfl rfl hv

theorem sbc_matches_iff (c : Cpu) (h : d < 8) (a b : BitVec 32) : let c' := fetched c
    let r := a.setWidth 64 - b.setWidth 64 - (carryBit c'.xpsr ^^^ 1).setWidth 64
    some (archState { c'.set d (r.setWidth 32) with xpsr := setNzcvSub c'.xpsr a b r }) =
        (archState c).sum d a (~~~b) (archState c).c ↔
      AluExact .sbc a b (archState c).c := by
  intro c' r
  have hk : (archState c').c = (archState c).c := rfl
  have hcarry : decide (b.toNat ≤ a.toNat) = addCarry a (~~~b) (archState c).c ↔
      ¬ ((archState c).c = false ∧ a = b) := by
    have hab : a = b ↔ a.toNat = b.toNat := ⟨fun h => by rw [h], eq_of_toNat_eq⟩
    rw [addCarry_not, decide_eq_decide, hab]
    cases (archState c).c <;> simp
    omega
  rw [State.sum, write_low h, archState_set, archState_nzcvSub, sbc_value, hk, Option.some.injEq, AluExact,
    ← hcarry]
  constructor
  · intro he
    exact congrArg State.c he
  intro hc
  exact State.ext rfl rfl rfl hc (addOverflow_not a b _).symm

theorem sum_comm (s : State) (d : Nat) (x y : BitVec 32) (k : Bool) : s.sum d x y k = s.sum d y x k := by
  have h : addC x y k = addC y x k := by rw [addC, addC, Nat.add_comm x.toNat]
  simp only [State.sum, State.setAdd, addCarry, addOverflow, h, Nat.add_comm x.toNat, Int.add_comm x.toInt]

theorem aluOps_matches_iff (c : Cpu) (insn : Nat) : some (archState (aluOps insn (fetched c))) =
        Arch.exec (.alu (Arch.aluOp (insn / 64 % 16)) (insn / 8 % 8) (insn % 8)) (archState c) ↔
      Exact (.alu (Arch.aluOp (insn / 64 % 16)) (insn / 8 % 8) (insn % 8)) (archState c) := by
  have hd : insn % 8 < 8 := Nat.mod_lt _ (by decide)
  have hm : insn / 8 % 8 < 8 := Nat.mod_lt _ (by decide)
  simp only [Arch.exec, Exact, Arch.execAlu, aluOps, fetched_low c hd,
    fetched_low c hm, read_low _ hd, read_low _ hm]
  generalize (archState c).r (insn % 8) = a
  generalize (archState c).r (insn / 8 % 8) = b
  generalize insn / 64 % 16 = op
  unfold Arch.aluOp
  split <;> simp only [AluExact, iff_true]
  · exact putNz_result c hd _
  · exact putNz_result c hd _
  · rw [putNz_result c hd, result_eq_shifted hd]
    exact and_congr_left' (shiftReg_iff (fun _ => BitVec.shiftLeft_eq_zero) b)
  · rw [putNz_result c hd, result_eq_shifted hd]
    exact and_congr_left' (shiftReg_iff (fun _ => BitVec.ushiftRight_eq_zero) b)
  · rw [putNz_result c hd, result_eq_shifted hd]
    exact and_congr_left' (shiftReg_iff (fun _ h => sshiftRight_of_le a (Nat.le_of_lt h)) b)
  · exact adc_matches_iff c hd a b
  · exact sbc_matches_iff c hd a b
  · rw [putNz_result c hd, result_eq_shifted hd, ror_value, eq_self_iff_true, true_and]
  · rw [archState_setNz]; rfl
  · rw [putSub_sum c hd, sum_comm]
  · rw [archState_cmp]; rfl
  · rw [archState_add]; rfl
  · exact putNz_result c hd _
  · exact putNz_result c hd _
  · exact putNz_result c hd _
  exact putNz_result c hd _

/-! ## Instructions on high registers -/

theorem even_add_bit (x : BitVec 32) : (x &&& ~~~1) + (x &&& 1) = x := by
  have h : (x &&& ~~~1) &&& (x &&& 1) = 0 := by
    rw [BitVec.and_assoc, ← BitVec.and_assoc _ x, BitVec.and_comm _ x, BitVec.and_assoc x]
    simp
  have hall : (~~~1 ||| 1 : BitVec 32) = BitVec.allOnes 32 := by decide
  rw [BitVec.add_eq_or_of_and_eq_zero _ _ h, ← BitVec.and_or_distrib_left, hall, BitVec.and_allOnes]

/-- Two addresses two bytes apart are not the same halfword. -/
theorem even_ne (x : BitVec 32) : (x + 2) &&& ~~~1 ≠ (x + 4) &&& ~~~1 := by
  intro h
  have h2 := even_add_bit (x + 2)
  have h4 := even_add_bit (x + 4)
  have b2 : ((x + 2) &&& 1).toNat ≤ 1 := by
    rw [BitVec.toNat_and]
    exact Nat.and_le_right
  have b4 : ((x + 4) &&& 1).toNat ≤ 1 := by
    rw [BitVec.toNat_and]
    exact Nat.and_le_right
  bv_omega

theorem write_some {v : BitVec 32} (hd : d ≠ 15) (h : s.write d v = some out) :
    out = { s.next with r := Function.update s.next.r d v } := by
  rw [State.write, if_neg hd] at h
  split at h
  · cases h
  exact (Option.some.inj h).symm

/-- A write of any register, without flags: the same state if the values agree, as addresses for the PC. -/
theorem set_matches_iff (c : Cpu) (v w : BitVec 32) (h : (archState c).write d w = some out) :
    archState (((fetched c).set d v).evenPc d) = out ↔ if d = 15 then v &&& ~~~1 = w &&& ~~~1 else v = w := by
  by_cases hd : d = 15
  · subst hd
    cases h
    rw [if_pos rfl]
    simp only [Cpu.evenPc, REG_PC, if_true, Cpu.set, fetched, archState, Function.update_self,
      Function.update_idem, State.mk.injEq, and_true]
    constructor
    · intro he
      simpa using congrFun he 15
    intro he
    rw [he]
  rw [write_some hd h, if_neg hd, Cpu.evenPc, if_neg (show ¬ d = REG_PC from hd)]
  constructor
  · intro he
    simpa [archState, Cpu.set] using congrFun (congrArg State.r he) d
  intro he
  rw [he]
  rfl

theorem fetched_pc (c : Cpu) : (fetched c).r 15 = (archState c).r 15 + 2 := by
  show Function.update c.r 15 (c.r 15 + 2) 15 = c.r 15 + 2
  rw [Function.update_self]

theorem read_pc (s : State) : s.read 15 = s.r 15 + 4 := if_pos rfl

theorem addHigh_matches_iff (c : Cpu) (h : Arch.exec (.addHigh d m) (archState c) = some out) :
    archState (((fetched c).set d ((fetched c).r d + (fetched c).r m)).evenPc d) = out ↔
      Exact (.addHigh d m) (archState c) := by
  rw [Arch.exec] at h
  split at h
  · cases h
  next hdm =>
  rw [set_matches_iff c _ _ h, addC_false, Exact]
  by_cases hd : d = 15
  · have hm : m ≠ 15 := fun hm => hdm ⟨hd, hm⟩
    subst hd
    rw [if_pos rfl, fetched_r c hm, fetched_pc, read_pc]
    generalize (archState c).read m = y
    have hne := even_ne ((archState c).r 15 + y)
    rw [BitVec.add_assoc, BitVec.add_comm y, ← BitVec.add_assoc, BitVec.add_assoc _ y, BitVec.add_comm y,
      ← BitVec.add_assoc] at hne
    exact iff_of_false hne fun h => h.1 rfl
  rw [if_neg hd, fetched_r c hd]
  by_cases hm : m = 15
  · subst hm
    rw [fetched_pc, read_pc]
    simp only [ne_eq, not_true, and_false, iff_false]
    bv_omega
  simp [fetched_r c hm, hd, hm]

theorem movHigh_matches_iff (c : Cpu) (h : Arch.exec (.movHigh d m) (archState c) = some out) :
    archState (((fetched c).set d ((fetched c).r m)).evenPc d) = out ↔
      Exact (.movHigh d m) (archState c) := by
  rw [set_matches_iff c _ _ h, Exact]
  by_cases hm : m = 15
  · subst hm
    rw [fetched_pc, read_pc]
    have hne := even_ne ((archState c).r 15)
    by_cases hd : d = 15
    · simpa [hd] using hne
    simp only [hd, if_false, ne_eq, not_true, iff_false]
    bv_omega
  simp [fetched_r c hm, hm]

theorem cmpHigh_matches (c : Cpu) (h : Arch.exec (.cmpHigh n m) (archState c) = some out) :
    archState ((fetched c).cmp ((fetched c).r n) ((fetched c).r m)) = out := by
  rw [Arch.exec] at h
  split at h
  · cases h
  next hnm =>
  rw [not_or, not_or] at hnm
  rw [archState_cmp, fetched_r c hnm.2.1, fetched_r c hnm.2.2]
  exact Option.some.inj h

/-! ## One step -/

/-- Outside an IT block a step is the dispatch of the instruction. -/
theorem armv7mCpuStep_eq (m : Machine σ) (c : Cpu) (bus : Bus σ) (hit : c.itState = 0)
    (hgroup : (membusRead16 m bus (c.r REG_PC)).1.toNat / 2048 ≤ 22) :
    armv7mCpuStep m c bus = dispatch m (membusRead16 m bus (c.r REG_PC)).1.toNat (c.r REG_PC) (fetched c)
        (membusRead16 m bus (c.r REG_PC)).2 := by
  have hshort : ∀ n : Nat, n / 2048 ≤ 22 → ¬ (n / 8192 = 7 ∧ n / 2048 % 4 ≠ 0) := by omega
  have hid : done16 false ((fetched c).xpsr &&& FLAGS) = (id : Cpu × Bus σ → Cpu × Bus σ) := rfl
  unfold armv7mCpuStep
  simp only [hit, bne_self_eq_false, Bool.false_and, if_neg (hshort _ hgroup), Bool.false_eq_true, if_false]
  rw [hid, Option.map_id_fun, id]

theorem decode_group {i : Arch.Insn} (h : Arch.decode insn = some i) : insn / 2048 ≤ 22 := by
  by_contra hlt
  unfold Arch.decode at h
  split at h <;> first | omega | cases h

/-- The dispatch of an instruction that the architecture defines. -/
theorem dispatch_matches_iff (m : Machine σ) (c : Cpu) (bus : Bus σ)
    {i : Arch.Insn} (hi : Arch.decode insn = some i) (hout : Arch.exec i (archState c) = some out) :
    (dispatch m insn (c.r REG_PC) (fetched c) bus).map (fun s => archState s.1) = some out ↔
      Exact i (archState c) := by
  have hd : insn % 8 < 8 := Nat.mod_lt _ (by decide)
  have hm : insn / 8 % 8 < 8 := Nat.mod_lt _ (by decide)
  have hr : insn / 64 % 8 < 8 := Nat.mod_lt _ (by decide)
  have hd8 : insn / 256 % 8 < 8 := Nat.mod_lt _ (by decide)
  rw [← hout]
  unfold Arch.decode at hi
  split at hi
  next hg =>
    cases hi
    simp only [dispatch, hg, map_some, lslImm, Exact, Arch.exec, fetched_low c hm]
    rw [putNz_result c hd, result_eq_shifted hd, lslImm_value, eq_self_iff_true, true_and, read_low _ hm]
  next hg =>
    cases hi
    simp only [dispatch, hg, map_some, lsrImm, Exact, Arch.exec, fetched_low c hm]
    rw [putNz_result c hd, result_eq_shifted hd, lsrImm_value, eq_self_iff_true, true_and, read_low _ hm]
  next hg =>
    cases hi
    simp only [dispatch, hg, map_some, asrImm, Exact, Arch.exec, fetched_low c hm]
    rw [putNz_result c hd, result_eq_shifted hd, asrImm_value, eq_self_iff_true, true_and, read_low _ hm]
  next hg =>
    have hx : (archState c).operand
        (if insn / 1024 % 2 = 1 then .imm (insn / 64 % 8) else .reg (insn / 64 % 8)) =
        if insn / 1024 % 2 = 1 then BitVec.ofNat 32 (insn / 64 % 8) else (archState c).read (insn / 64 % 8) := by
      split <;> rfl
    simp only [dispatch, hg, map_some, addSub, fetched_low c hm, fetched_low c hr, ← hx] at hi ⊢
    split at hi
    next hsub =>
      cases hi
      rw [if_pos hsub, putSub_sum c hd]
      exact iff_of_true rfl trivial
    next hsub =>
    cases hi
    rw [if_neg hsub, putAdd_sum c hd]
    exact iff_of_true rfl trivial
  next hg =>
    cases hi
    simp only [dispatch, hg, map_some, movImm]
    exact iff_of_true (putNz_result c hd8 _) trivial
  next hg =>
    cases hi
    simp only [dispatch, hg, map_some, cmpImm, archState_cmp, fetched_low c hd8]
    exact iff_of_true rfl trivial
  next hg =>
    cases hi
    simp only [dispatch, hg, map_some, addImm8, fetched_low c hd8]
    exact iff_of_true (putAdd_sum c hd8 _ _) trivial
  next hg =>
    cases hi
    simp only [dispatch, hg, map_some, subImm8, fetched_low c hd8]
    exact iff_of_true (putSub_sum c hd8 _ _) trivial
  next hg =>
    simp only [dispatch, hg, map_some] at hi ⊢
    split at hi
    next halu =>
      cases hi
      rw [if_pos halu]
      exact aluOps_matches_iff c insn
    next halu =>
    rw [if_neg halu]
    split at hi
    next hop =>
      cases hi
      rw [hout, Option.some.injEq, specialOps, hop]
      exact addHigh_matches_iff c hout
    next hop =>
      cases hi
      rw [hout, Option.some.injEq, specialOps, hop]
      exact iff_of_true (cmpHigh_matches c hout) trivial
    next hop =>
      cases hi
      rw [hout, Option.some.injEq, specialOps, hop]
      exact movHigh_matches_iff c hout
    · cases hi
  next hg =>
    cases hi
    simp only [dispatch, hg, map_some]
    rw [Arch.exec, write_low hd8, read_pc]
    exact iff_of_true rfl trivial
  next hg =>
    cases hi
    simp only [dispatch, hg, map_some, REG_SP, fetched_r c (by decide : 13 ≠ 15)]
    rw [Arch.exec, write_low hd8, addC_false]
    exact iff_of_true rfl trivial
  next hg =>
    have hb0 : insn / 128 = 0x160 ∨ insn / 128 = 0x161 → insn / 256 = 0xB0 := by omega
    simp only [dispatch, hg, misc, REG_SP, fetched_r c (by decide : 13 ≠ 15)] at hi ⊢
    split at hi
    next hadd =>
      cases hi
      have hbit : ¬ insn / 128 % 2 = 1 := by omega
      rw [if_pos (hb0 (.inl hadd)), if_neg hbit, hout, map_some, Option.some.injEq,
        write_some (by decide) hout, addC_false]
      exact iff_of_true rfl trivial
    · split at hi
      next hsub =>
        cases hi
        have hbit : insn / 128 % 2 = 1 := by omega
        rw [if_pos (hb0 (.inr hsub)), if_pos hbit, hout, map_some, Option.some.injEq,
          write_some (by decide) hout, addC_not, if_pos rfl]
        rw [show ∀ x : BitVec 32, x - 0 = x from BitVec.sub_zero]
        exact iff_of_true rfl trivial
      · cases hi
  · cases hi

/-- **Simulated data processing**: for every register file, every state of the flags and every 16-bit shift,
add, subtract, move, compare, carry-using and logical instruction outside an IT block that the architecture
defines, a step of the simulator gives the registers and the flags of the architecture exactly when `Exact`
holds. -/
theorem armv7mCpuStep_matches_iff {σ : Type} (m : Machine σ) (c : Cpu) (bus : Bus σ) (i : Arch.Insn) (out : State)
    (hit : c.itState = 0) (hi : Arch.decode (membusRead16 m bus (c.r REG_PC)).1.toNat = some i)
    (hout : Arch.exec i (archState c) = some out) :
    (armv7mCpuStep m c bus).map (fun s => archState s.1) = some out ↔ Exact i (archState c) := by
  rw [armv7mCpuStep_eq m c bus hit (decode_group hi)]
  exact dispatch_matches_iff m c _ hi hout

/-- A machine without devices. -/
def bareMachine : Machine Unit := ⟨fun _ _ _ => (0, ()), fun _ _ _ _ => (), fun _ _ _ => none, fun _ _ => none⟩

/-- A bus with one instruction at the base of the RAM. -/
def busWith (insn : Nat) : Bus Unit :=
  { flash := fun _ => 0
    ram := fun a =>
      if a = 0x20000000 then BitVec.ofNat 8 (insn % 256)
      else if a = 0x20000001 then BitVec.ofNat 8 (insn / 256) else 0
    dev := () }

/-- A CPU in front of that instruction. -/
def cpuWith (r0 r1 xpsr : BitVec 32) : Cpu :=
  { r := fun i => if i = 0 then r0 else if i = 1 then r1 else if i = 15 then 0x20000000 else 0
    xpsr := xpsr
    primask := 0
    control := 0
    msp := 0x20001000
    psp := 0
    inHandler := false
    irqShadow := false
    itState := 0
    cycleCount := 0 }

/-- `adds r0, #1` at the largest number. -/
theorem armv7mCpuStep_matches_iff_adds :
    (armv7mCpuStep bareMachine (cpuWith 0xFFFFFFFF 0 FLAG_T) (busWith 0x3001)).map (fun s => archState s.1) =
      (archState (cpuWith 0xFFFFFFFF 0 FLAG_T)).sum 0 0xFFFFFFFF 1 false := by
  have h : ∃ out, (archState (cpuWith 0xFFFFFFFF 0 FLAG_T)).sum 0 0xFFFFFFFF 1 false = some out := ⟨_, rfl⟩
  obtain ⟨out, hout⟩ := h
  rw [hout]
  exact (armv7mCpuStep_matches_iff bareMachine (cpuWith 0xFFFFFFFF 0 FLAG_T) (busWith 0x3001)
    (.add (.imm 1) 0 0) out rfl (by decide +kernel) hout).2 trivial

/-- `lsls r0, r0, #1` of the sign bit leaves the carry clear, and `lsls r0, r1` by 32 leaves the register as it
is: the architecture sets the carry and clears the register. -/
theorem armv7mCpuStep_shift_differs : (Arch.decode 0x0040 = some (.shiftImm .lsl 1 0 0) ∧
      (Arch.exec (.shiftImm .lsl 1 0 0) (archState (cpuWith 0x80000000 0 FLAG_T))).map (·.c) = some true ∧
      (armv7mCpuStep bareMachine (cpuWith 0x80000000 0 FLAG_T) (busWith 0x0040)).map (fun s => (archState s.1).c) =
        some false) ∧
    (Arch.decode 0x4088 = some (.alu .lsl 1 0) ∧
      (Arch.exec (.alu .lsl 1 0) (archState (cpuWith 5 32 FLAG_T))).map (·.r 0) = some 0 ∧
      (armv7mCpuStep bareMachine (cpuWith 5 32 FLAG_T) (busWith 0x4088)).map (fun s => (archState s.1).r 0) =
        some 5) := by
  refine ⟨⟨rfl, by decide +kernel, by decide +kernel⟩, rfl, by decide +kernel, by decide +kernel⟩

end Embedded.Sim
