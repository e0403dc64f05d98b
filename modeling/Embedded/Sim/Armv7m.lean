import Mathlib.Algebra.Ring.Nat
import Mathlib.Logic.Function.Basic

/-! # 16-bit data processing in the ARMv7-M architecture

The instructions as the architecture's pseudocode defines them, outside an IT block: `Shift_C`,
`AddWithCarry`, the decoding tables and the operation of every instruction. `none` is UNPREDICTABLE. -/

namespace Embedded.Sim.Arch

/-- The registers and the flags; `r 15` is the address of the instruction. -/
@[ext]
structure State where
  r : Nat → BitVec 32
  n : Bool
  z : Bool
  c : Bool
  v : Bool

inductive SRType
  | lsl
  | lsr
  | asr
  | ror
deriving DecidableEq

/-- `Shift_C(value, type, amount, carry_in)`: the result. -/
def shift (x : BitVec 32) (t : SRType) (amount : Nat) : BitVec 32 :=
  match t with
  | .lsl => x <<< amount
  | .lsr => x >>> amount
  | .asr => x.sshiftRight amount
  | .ror => x.rotateRight (amount % 32)

/-- `Shift_C(value, type, amount, carry_in)`: the carry, the last bit that is shifted out. -/
def shiftCarry (x : BitVec 32) (t : SRType) (amount : Nat) (carryIn : Bool) : Bool :=
  if amount = 0 then carryIn
  else match t with
    | .lsl => (x.toNat * 2 ^ amount).testBit 32
    | .lsr => x.getLsbD (amount - 1)
    | .asr => (x.sshiftRight (amount - 1)).getLsbD 0
    | .ror => (x.rotateRight (amount % 32)).msb

/-- `DecodeImmShift`. -/
def immShift (t : SRType) (imm5 : Nat) : Nat :=
  match t with
  | .lsl => imm5
  | _ => if imm5 = 0 then 32 else imm5

/-- `AddWithCarry(x, y, carry_in)`: the result. -/
def addC (x y : BitVec 32) (carryIn : Bool) : BitVec 32 :=
  BitVec.ofNat 32 (x.toNat + y.toNat + carryIn.toNat)

/-- `AddWithCarry(x, y, carry_in)`: the carry. -/
def addCarry (x y : BitVec 32) (carryIn : Bool) : Bool :=
  (addC x y carryIn).toNat != x.toNat + y.toNat + carryIn.toNat

/-- `AddWithCarry(x, y, carry_in)`: the overflow. -/
def addOverflow (x y : BitVec 32) (carryIn : Bool) : Bool :=
  (addC x y carryIn).toInt != x.toInt + y.toInt + carryIn.toNat

inductive AluOp
  | and | eor | lsl | lsr | asr | adc | sbc | ror | tst | rsb | cmp | cmn | orr | mul | bic | mvn
deriving DecidableEq

/-- The second operand of ADD and SUB. -/
inductive Operand
  | reg (m : Nat)
  | imm (x : Nat)
deriving DecidableEq

inductive Insn
  | shiftImm (t : SRType) (imm5 rm rd : Nat)
  | add (x : Operand) (rn rd : Nat)
  | sub (x : Operand) (rn rd : Nat)
  | movImm (rd imm8 : Nat)
  | cmpImm (rn imm8 : Nat)
  | alu (op : AluOp) (rm rd : Nat)
  | addHigh (rd rm : Nat)
  | cmpHigh (rn rm : Nat)
  | movHigh (rd rm : Nat)
  | adr (rd imm : Nat)
  | addSp (rd imm : Nat)
  | subSp (imm : Nat)
deriving DecidableEq

/-- The opcode table of the data processing instructions. -/
def aluOp (op : Nat) : AluOp :=
  match op with
  | 0x0 => .and
  | 0x1 => .eor
  | 0x2 => .lsl
  | 0x3 => .lsr
  | 0x4 => .asr
  | 0x5 => .adc
  | 0x6 => .sbc
  | 0x7 => .ror
  | 0x8 => .tst
  | 0x9 => .rsb
  | 0xA => .cmp
  | 0xB => .cmn
  | 0xC => .orr
  | 0xD => .mul
  | 0xE => .bic
  | _ => .mvn

/-- The 16-bit encodings of the shift, add, subtract, move, compare and logical instructions. -/
def decode (insn : Nat) : Option Insn :=
  let rd := insn % 8
  let rn := insn / 8 % 8
  let rd8 := insn / 256 % 8
  let imm8 := insn % 256
  match insn / 2048 with
  | 0 => some (.shiftImm .lsl (insn / 64 % 32) rn rd)
  | 1 => some (.shiftImm .lsr (insn / 64 % 32) rn rd)
  | 2 => some (.shiftImm .asr (insn / 64 % 32) rn rd)
  | 3 =>
    let x := if insn / 1024 % 2 = 1 then Operand.imm (insn / 64 % 8) else .reg (insn / 64 % 8)
    some (if insn / 512 % 2 = 1 then .sub x rn rd else .add x rn rd)
  | 4 => some (.movImm rd8 imm8)
  | 5 => some (.cmpImm rd8 imm8)
  | 6 => some (.add (.imm imm8) rd8 rd8)
  | 7 => some (.sub (.imm imm8) rd8 rd8)
  | 8 =>
    let high := insn % 8 + 8 * (insn / 128 % 2)
    if insn / 1024 = 0x10 then some (.alu (aluOp (insn / 64 % 16)) rn rd)
    else match insn / 256 % 4 with
      | 0 => some (.addHigh high (insn / 8 % 16))
      | 1 => some (.cmpHigh high (insn / 8 % 16))
      | 2 => some (.movHigh high (insn / 8 % 16))
      | _ => none
  | 20 => some (.adr rd8 (imm8 * 4))
  | 21 => some (.addSp rd8 (imm8 * 4))
  | 22 =>
    if insn / 128 = 0x160 then some (.addSp 13 (insn % 128 * 4))
    else if insn / 128 = 0x161 then some (.subSp (insn % 128 * 4))
    else none
  | _ => none

/-- `R[n]`: the PC reads as the address of the instruction plus 4. -/
def State.read (s : State) (n : Nat) : BitVec 32 := if n = 15 then s.r 15 + 4 else s.r n

/-- The next instruction follows. -/
def State.next (s : State) : State := { s with r := Function.update s.r 15 (s.r 15 + 2) }

/-- `R[d] = v`; a write to the PC branches, and SP may only get a multiple of 4. -/
def State.write (s : State) (d : Nat) (v : BitVec 32) : Option State :=
  if d = 15 then some { s with r := Function.update s.r 15 (v &&& ~~~1) }
  else if d = 13 ∧ v &&& 3 ≠ 0 then none
  else some { s.next with r := Function.update s.next.r d v }

def State.setNz (s : State) (v : BitVec 32) : State := { s with n := v.msb, z := v == 0 }

/-- The flags of `AddWithCarry(x, y, carry_in)`. -/
def State.setAdd (s : State) (x y : BitVec 32) (carryIn : Bool) : State :=
  { s.setNz (addC x y carryIn) with c := addCarry x y carryIn, v := addOverflow x y carryIn }

/-- A result with the flags N and Z. -/
def State.result (s : State) (d : Nat) (v : BitVec 32) : Option State := (s.setNz v).write d v

/-- The result of `AddWithCarry` with all flags. -/
def State.sum (s : State) (d : Nat) (x y : BitVec 32) (carryIn : Bool) : Option State :=
  (s.setAdd x y carryIn).write d (addC x y carryIn)

/-- A shift with the flags N, Z and C. -/
def State.shifted (s : State) (d : Nat) (x : BitVec 32) (t : SRType) (amount : Nat) : Option State :=
  State.result { s with c := shiftCarry x t amount s.c } d (shift x t amount)

def State.operand (s : State) : Operand → BitVec 32
  | .reg m => s.read m
  | .imm x => BitVec.ofNat 32 x

/-- The operations of the data processing instructions. -/
def execAlu (op : AluOp) (rm rd : Nat) (s : State) : Option State :=
  let a := s.read rd
  let b := s.read rm
  let amount := b.toNat % 256
  match op with
  | .and => s.result rd (a &&& b)
  | .eor => s.result rd (a ^^^ b)
  | .lsl => s.shifted rd a .lsl amount
  | .lsr => s.shifted rd a .lsr amount
  | .asr => s.shifted rd a .asr amount
  | .adc => s.sum rd a b s.c
  | .sbc => s.sum rd a (~~~b) s.c
  | .ror => s.shifted rd a .ror amount
  | .tst => some (s.setNz (a &&& b)).next
  | .rsb => s.sum rd (~~~b) 0 true
  | .cmp => some (s.setAdd a (~~~b) true).next
  | .cmn => some (s.setAdd a b false).next
  | .orr => s.result rd (a ||| b)
  | .mul => s.result rd (a * b)
  | .bic => s.result rd (a &&& ~~~b)
  | .mvn => s.result rd (~~~b)

/-- The operation of an instruction. -/
def exec (i : Insn) (s : State) : Option State :=
  match i with
  | .shiftImm t imm5 rm rd => s.shifted rd (s.read rm) t (immShift t imm5)
  | .add x rn rd => s.sum rd (s.read rn) (s.operand x) false
  | .sub x rn rd => s.sum rd (s.read rn) (~~~s.operand x) true
  | .movImm rd imm8 => s.result rd (BitVec.ofNat 32 imm8)
  | .cmpImm rn imm8 => some (s.setAdd (s.read rn) (~~~BitVec.ofNat 32 imm8) true).next
  | .alu op rm rd => execAlu op rm rd s
  | .addHigh rd rm =>
    if rd = 15 ∧ rm = 15 then none else s.write rd (addC (s.read rd) (s.read rm) false)
  | .cmpHigh rn rm =>
    if (rn < 8 ∧ rm < 8) ∨ rn = 15 ∨ rm = 15 then none
    else some (s.setAdd (s.read rn) (~~~s.read rm) true).next
  | .movHigh rd rm => s.write rd (s.read rm)
  | .adr rd imm => s.write rd ((s.read 15 &&& ~~~3) + BitVec.ofNat 32 imm)
  | .addSp rd imm => s.write rd (addC (s.read 13) (BitVec.ofNat 32 imm) false)
  | .subSp imm => s.write 13 (addC (s.read 13) (~~~BitVec.ofNat 32 imm) true)

end Embedded.Sim.Arch
