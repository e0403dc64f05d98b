import Embedded.Lib.Signed

/-! # The ARM instructions that code generation for division uses

The data-processing subset that `gen_div32_const` emits, on the four scratch registers and the two
flags it looks at. Registers hold 32-bit words. -/

namespace Embedded.Toolchain

inductive Reg
  | r0 | r1 | r2 | r3
deriving DecidableEq, Repr

/-- Condition suffixes: always, unsigned `>=` and `<`, equal and not equal. -/
inductive Cond
  | al | hs | lo | eq | ne
deriving DecidableEq, Repr

inductive Instr
  | mov (d s : Reg)
  | movImm (cond : Cond) (d : Reg) (v : Nat)
  | movw (d : Reg) (v : Nat)
  | movt (d : Reg) (v : Nat)
  | lsr (d s : Reg) (k : Nat)
  | asr (d s : Reg) (k : Nat)
  | ubfx (d s : Reg) (lsb width : Nat)
  | umull (lo hi a b : Reg)
  | smull (lo hi a b : Reg)
  | add (d a b : Reg)
  /-- `add d, a, b, lsr #k`. -/
  | addLsr (d a b : Reg) (k : Nat)
  | sub (d a b : Reg)
  /-- `rsb d, a, #v`. -/
  | rsb (d a : Reg) (v : Nat)
  | cmp (a b : Reg)
  | cmpImm (a : Reg) (v : Nat)
  /-- `mls d, a, b, c`: `c - a * b`. -/
  | mls (d a b c : Reg)
deriving DecidableEq, Repr

structure Cpu where
  regs : Reg → Nat
  z : Bool
  c : Bool

def Cpu.set (s : Cpu) (r : Reg) (v : Nat) : Cpu := { s with regs := Function.update s.regs r v }

/-- Does the condition hold? -/
def Cpu.holds (s : Cpu) : Cond → Bool
  | .al => true
  | .hs => s.c
  | .lo => !s.c
  | .eq => s.z
  | .ne => !s.z

/-- The flags after comparing `a` with `b`. -/
def Cpu.compare (s : Cpu) (a b : Nat) : Cpu := { s with z := a == b, c := decide (b ≤ a) }

/-- The arithmetic right shift of a word. -/
def asr32 (x k : Nat) : Nat := ofS (toS x / 2 ^ k)

def exec (s : Cpu) : Instr → Cpu
  | .mov d r => s.set d (s.regs r)
  | .movImm cond d v => if s.holds cond then s.set d v else s
  | .movw d v => s.set d v
  | .movt d v => s.set d (v * 65536 + s.regs d % 65536)
  | .lsr d r k => s.set d (s.regs r / 2 ^ k)
  | .asr d r k => s.set d (asr32 (s.regs r) k)
  | .ubfx d r lsb width => s.set d (s.regs r / 2 ^ lsb % 2 ^ width)
  | .umull lo hi a b =>
    let p := s.regs a * s.regs b
    (s.set lo (p % 4294967296)).set hi (p / 4294967296)
  | .smull lo hi a b =>
    let p := toS (s.regs a) * toS (s.regs b)
    (s.set lo (ofS p)).set hi (ofS (p / 4294967296))
  | .add d a b => s.set d (add32 (s.regs a) (s.regs b))
  | .addLsr d a b k => s.set d (add32 (s.regs a) (s.regs b / 2 ^ k))
  | .sub d a b => s.set d (sub32 (s.regs a) (s.regs b))
  | .rsb d a v => s.set d (sub32 v (s.regs a))
  | .cmp a b => s.compare (s.regs a) (s.regs b)
  | .cmpImm a v => s.compare (s.regs a) v
  | .mls d a b c => s.set d (sub32 (s.regs c) (s.regs a * s.regs b % 4294967296))

/-- Execute a straight-line sequence. -/
def execAll (s : Cpu) (code : List Instr) : Cpu := code.foldl exec s

section

variable (s : Cpu)

theorem execAll_append (xs ys : List Instr) :
    execAll s (xs ++ ys) = execAll (execAll s xs) ys := List.foldl_append ..

@[simp] theorem execAll_nil : execAll s [] = s := rfl

@[simp] theorem execAll_cons (i : Instr) (code : List Instr) :
    execAll s (i :: code) = execAll (exec s i) code := rfl

@[simp] theorem Cpu.set_self (r : Reg) (v : Nat) : (s.set r v).regs r = v := Function.update_self ..

@[simp] theorem Cpu.set_of_ne {r q : Reg} (v : Nat) (h : q ≠ r) :
    (s.set r v).regs q = s.regs q := Function.update_of_ne h ..

@[simp] theorem Cpu.set_z (r : Reg) (v : Nat) : (s.set r v).z = s.z := rfl

@[simp] theorem Cpu.set_c (r : Reg) (v : Nat) : (s.set r v).c = s.c := rfl

end

end Embedded.Toolchain
