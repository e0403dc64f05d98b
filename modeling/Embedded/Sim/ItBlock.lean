import Embedded.Sim.DataProcessing

/-! # IT blocks

The operands of `it` say under which condition each instruction of the block is executed, and in a block data
processing leaves the flags alone while comparisons set them. The simulator keeps the rest of the block in
`it_state`, and puts the flags back after every 16-bit instruction in a block, comparisons included. -/

namespace Embedded.Sim

/-- The conditions of the instructions in the block of `it` with this condition and mask: the lowest bit of the
mask ends the block, and each bit above it is the last bit of a condition. -/
def itConds (cond mask : Nat) : List Nat :=
  (List.range (4 - ((List.range 4).find? mask.testBit).getD 4)).map fun i =>
    if i = 0 then cond else cond / 2 * 2 + mask / 2 ^ (4 - i) % 2

/-- Data processing that does not compare. -/
def IsQuiet (insn : Nat) : Prop :=
  insn / 2048 < 8 ∧ insn / 2048 ≠ 5 ∨
    insn / 1024 = 16 ∧ insn / 64 % 16 ≠ 8 ∧ insn / 64 % 16 ≠ 10 ∧ insn / 64 % 16 ≠ 11

instance (insn : Nat) : Decidable (IsQuiet insn) := inferInstanceAs (Decidable (_ ∨ _))

section Block

variable {σ : Type} (m : Machine σ)

/-- An instruction in a block, as the architecture has it. -/
def itExec (cond : Nat) (c : Cpu) (bus : Bus σ) : Option (Cpu × Bus σ) :=
  let f := membusRead16 m bus (c.r REG_PC)
  if condCheck c.xpsr cond then
    (dispatch m f.1.toNat (c.r REG_PC) (fetched c) f.2).map
      (done16 (decide (IsQuiet f.1.toNat)) (c.xpsr &&& FLAGS))
  else some (fetched c, f.2)

def itBlock : List Nat → Cpu → Bus σ → Option (Cpu × Bus σ)
  | [], c, bus => some (c, bus)
  | cond :: conds, c, bus => (itExec m cond c bus).bind fun s => itBlock conds s.1 s.2

def steps : Nat → Cpu → Bus σ → Option (Cpu × Bus σ)
  | 0, c, bus => some (c, bus)
  | n + 1, c, bus => (armv7mCpuStep m c bus).bind fun s => steps n s.1 s.2

/-- The instructions of the block have 16 bits. Those that are executed leave the IT state alone, and the flags
too unless they are data processing. -/
def Plain : List Nat → Cpu → Bus σ → Prop
  | [], _, _ => True
  | cond :: conds, c, bus =>
    let insn := (membusRead16 m bus (c.r REG_PC)).1.toNat
    ¬ (insn / 8192 = 7 ∧ insn / 2048 % 4 ≠ 0) ∧
      ∀ s, itExec m cond c bus = some s → s.1.itState = advanceIt c.itState ∧
        (IsQuiet insn ∨ s.1.xpsr &&& FLAGS = c.xpsr &&& FLAGS) ∧ Plain conds s.1 s.2

/-- The conditions that the simulator takes from `it_state`. -/
def itSeq : Nat → BitVec 8 → List Nat
  | 0, _ => []
  | n + 1, it => if it = 0 then [] else (it >>> 4).toNat :: itSeq n (advanceIt it)

theorem itSeq_eq : ∀ cond < 16, ∀ mask < 16, mask ≠ 0 →
    itSeq 4 (BitVec.ofNat 8 (16 * cond + mask)) = itConds cond mask := by decide +kernel

variable {m} {c : Cpu} {bus : Bus σ}

/-- **A step in a block** executes the instruction under the condition in `it_state`. -/
theorem armv7mCpuStep_it {cond : Nat} {conds : List Nat} (hit : c.itState ≠ 0)
    (hcond : cond = (c.itState >>> 4).toNat) (h : Plain m (cond :: conds) c bus) :
    armv7mCpuStep m c bus = itExec m cond c bus := by
  obtain ⟨hshort, hs⟩ := h
  have hin : (c.itState != 0) = true := bne_iff_ne.2 hit
  simp only [itExec] at hs ⊢
  rw [armv7mCpuStep]
  simp only [hin, Bool.true_and, if_neg hshort, ← hcond]
  cases hc : condCheck c.xpsr cond with
  | false => simp
  | true => ?_
  simp only [hc, if_true] at hs
  simp only [Bool.not_true, Bool.false_eq_true, if_false, if_true]
  generalize dispatch m _ (c.r REG_PC) (fetched c) _ = d at hs ⊢
  cases d with
  | none => rfl
  | some s => ?_
  obtain ⟨-, hq, -⟩ := hs _ rfl
  by_cases hquiet : IsQuiet (membusRead16 m bus (c.r REG_PC)).1.toNat
  · rw [decide_eq_true hquiet]
    rfl
  -- a comparison that does not change the flags: putting them back does nothing
  have hflags := hq.resolve_left hquiet
  rw [decide_eq_false hquiet] at hflags ⊢
  have hkeep : s.1.xpsr &&& ~~~FLAGS ||| (fetched c).xpsr &&& FLAGS = s.1.xpsr := by
    rw [show (fetched c).xpsr = c.xpsr from rfl, ← hflags]
    exact (BitVec.and_or_distrib_left ..).symm.trans BitVec.and_allOnes
  simp only [Option.map_some, done16, if_true, Bool.false_eq_true, if_false, hkeep]

theorem steps_eq_itBlock {conds : List Nat} (n : Nat) (hseq : itSeq n c.itState = conds)
    (h : Plain m conds c bus) : steps m conds.length c bus = itBlock m conds c bus := by
  induction conds generalizing n c bus with
  | nil => rfl
  | cons cond conds ih => ?_
  cases n with
  | zero => cases hseq
  | succ n => ?_
  rw [itSeq] at hseq
  split at hseq
  · cases hseq
  next hit =>
  obtain ⟨hcond, hseq⟩ := List.cons.inj hseq
  rw [List.length_cons, steps, itBlock, armv7mCpuStep_it hit hcond.symm h]
  cases hx : itExec m cond c bus with
  | none => rfl
  | some s =>
    obtain ⟨hnext, -, hplain⟩ := h.2 s hx
    exact ih n (hnext ▸ hseq) hplain

end Block

/-- In a block whose first instruction is executed if the last result was zero. -/
def cpuInIt (r0 : BitVec 32) (it : BitVec 8) : Cpu := { cpuWith r0 0 (FLAG_T ||| FLAG_Z) with itState := it }

end Embedded.Sim
