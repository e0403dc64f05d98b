import Embedded.Sim.Membus

/-! # The simulated Cortex-M4 (`sim/src/arch/armv7m/armv7m_cpu.c`)

The 16-bit instructions, the entry into an exception and the return from it. The bus is the one of the
chip: flash and RAM stand behind their windows, every other access goes to the devices. The 32-bit
instructions and the semihosting calls are parameters. -/

namespace Embedded.Sim

def REG_SP : Nat := 13
def REG_LR : Nat := 14
def REG_PC : Nat := 15

def FLAG_N : BitVec 32 := 0x80000000
def FLAG_Z : BitVec 32 := 0x40000000
def FLAG_C : BitVec 32 := 0x20000000
def FLAG_V : BitVec 32 := 0x10000000
def FLAG_T : BitVec 32 := 0x01000000

def FLASH_BASE : BitVec 32 := 0x08000000

/-- `struct armv7m_cpu`. -/
structure Cpu where
  r : Nat → BitVec 32
  xpsr : BitVec 32
  primask : BitVec 32
  control : BitVec 32
  msp : BitVec 32
  psp : BitVec 32
  inHandler : Bool
  irqShadow : Bool
  itState : BitVec 8
  cycleCount : BitVec 64

/-- Write a register. -/
def Cpu.set (c : Cpu) (i : Nat) (v : BitVec 32) : Cpu := { c with r := Function.update c.r i v }

/-! ## The bus -/

/-- The memories behind the two windows, by address, and the state of everything else. -/
structure Bus (σ : Type) where
  flash : BitVec 32 → BitVec 8
  ram : BitVec 32 → BitVec 8
  dev : σ

/-- What is not modelled: the accesses that go to the regions of the bus (by their width in bytes), the
32-bit instructions and the semihosting call. -/
structure Machine (σ : Type) where
  read : Nat → σ → BitVec 32 → BitVec 32 × σ
  write : Nat → σ → BitVec 32 → BitVec 32 → σ
  execThumb32 : BitVec 32 → Cpu → Bus σ → Option (Cpu × Bus σ)
  semihost : Cpu → Bus σ → Option (Cpu × Bus σ)

/-- The little-endian word at an address. -/
def getWord (mem : BitVec 32 → BitVec 8) (a : BitVec 32) : BitVec 32 :=
  mem (a + 3) ++ mem (a + 2) ++ mem (a + 1) ++ mem a

def getHalf (mem : BitVec 32 → BitVec 8) (a : BitVec 32) : BitVec 32 :=
  (mem (a + 1) ++ mem a : BitVec 16).setWidth 32

/-- Store the low `n` bytes of a word. -/
def putBytes (n : Nat) (mem : BitVec 32 → BitVec 8) (a v : BitVec 32) : BitVec 32 → BitVec 8 := fun x =>
  if (x - a).toNat < n then v.extractLsb' (8 * (x - a).toNat) 8 else mem x

section Access

variable {σ : Type} (m : Machine σ) (bus : Bus σ) (addr : BitVec 32)

/-- `membus_read32`. -/
def membusRead32 : BitVec 32 × Bus σ :=
  if inRam addr.toNat then (getWord bus.ram addr, bus)
  else if inFlash addr.toNat then (getWord bus.flash addr, bus)
  else ((m.read 4 bus.dev addr).1, { bus with dev := (m.read 4 bus.dev addr).2 })

/-- `membus_read16`. -/
def membusRead16 : BitVec 32 × Bus σ :=
  if inRam addr.toNat then (getHalf bus.ram addr, bus)
  else if inFlash addr.toNat then (getHalf bus.flash addr, bus)
  else ((m.read 2 bus.dev addr).1 &&& 0xFFFF, { bus with dev := (m.read 2 bus.dev addr).2 })

/-- `membus_read8`. -/
def membusRead8 : BitVec 32 × Bus σ :=
  if inRam addr.toNat then ((bus.ram addr).setWidth 32, bus)
  else if inFlash addr.toNat then ((bus.flash addr).setWidth 32, bus)
  else ((m.read 1 bus.dev addr).1 &&& 0xFF, { bus with dev := (m.read 1 bus.dev addr).2 })

/-- `membus_write32`, `membus_write16` and `membus_write8`, by the number of bytes. -/
def membusWriteN (n : Nat) (v : BitVec 32) : Bus σ :=
  if inRam addr.toNat then { bus with ram := putBytes n bus.ram addr v }
  else { bus with dev := m.write n bus.dev addr v }

def membusWrite32 (v : BitVec 32) : Bus σ := membusWriteN m bus addr 4 v

def membusWrite16 (v : BitVec 32) : Bus σ := membusWriteN m bus addr 2 v

def membusWrite8 (v : BitVec 32) : Bus σ := membusWriteN m bus addr 1 v

end Access

/-! ## Flags -/

/-- Set or clear a flag. -/
def putFlag (xpsr flag : BitVec 32) (b : Bool) : BitVec 32 :=
  if b then xpsr ||| flag else xpsr &&& ~~~flag

/-- `set_nz`. -/
def setNz (xpsr result : BitVec 32) : BitVec 32 :=
  let xpsr := xpsr &&& ~~~(FLAG_N ||| FLAG_Z)
  let xpsr := if result = 0 then xpsr ||| FLAG_Z else xpsr
  if result &&& 0x80000000 ≠ 0 then xpsr ||| FLAG_N else xpsr

/-- `set_nzcv_add`. -/
def setNzcvAdd (xpsr a b : BitVec 32) (result : BitVec 64) : BitVec 32 :=
  let r := result.setWidth 32
  let xpsr := setNz xpsr r
  let xpsr := putFlag xpsr FLAG_C (decide (0xFFFFFFFF < result.toNat))
  putFlag xpsr FLAG_V (((a ^^^ ~~~b) &&& (a ^^^ r)) &&& 0x80000000 != 0)

/-- `set_nzcv_sub`. -/
def setNzcvSub (xpsr a b : BitVec 32) (result : BitVec 64) : BitVec 32 :=
  let r := result.setWidth 32
  let xpsr := setNz xpsr r
  let xpsr := putFlag xpsr FLAG_C (decide (b.toNat ≤ a.toNat))
  putFlag xpsr FLAG_V (((a ^^^ b) &&& (a ^^^ r)) &&& 0x80000000 != 0)

/-- `cond_check`. -/
def condCheck (xpsr : BitVec 32) (cond : Nat) : Bool :=
  let n := xpsr.getLsbD 31
  let z := xpsr.getLsbD 30
  let cv := xpsr.getLsbD 29
  let v := xpsr.getLsbD 28
  match cond with
  | 0 => z
  | 1 => !z
  | 2 => cv
  | 3 => !cv
  | 4 => n
  | 5 => !n
  | 6 => v
  | 7 => !v
  | 8 => cv && !z
  | 9 => !cv || z
  | 10 => n == v
  | 11 => n != v
  | 12 => !z && n == v
  | 13 => z || n != v
  | _ => true

/-- `(xpsr >> 29) & 1`. -/
def carryBit (xpsr : BitVec 32) : BitVec 32 := (xpsr >>> 29) &&& 1

/-! ## Entry into an exception and return from it -/

/-- The bits of `xPSR` that hold the IT state while it is saved. -/
def IT_BITS : BitVec 32 := (3 <<< 25) ||| (0x3F <<< 10)

/-- `saved_xpsr`. -/
def savedXpsr (c : Cpu) : BitVec 32 :=
  let it := c.itState.setWidth 32
  if c.itState ≠ 0 then c.xpsr ||| (((it >>> 6) &&& 3) <<< 25) ||| ((it &&& 0x3F) <<< 10) else c.xpsr

section Exceptions

variable {σ : Type} (m : Machine σ)

/-- The frame that the entry pushes, word by word. -/
def pushFrame (c : Cpu) (bus : Bus σ) (sp : BitVec 32) : Bus σ :=
  let bus := membusWrite32 m bus (sp + 0) (c.r 0)
  let bus := membusWrite32 m bus (sp + 4) (c.r 1)
  let bus := membusWrite32 m bus (sp + 8) (c.r 2)
  let bus := membusWrite32 m bus (sp + 12) (c.r 3)
  let bus := membusWrite32 m bus (sp + 16) (c.r 12)
  let bus := membusWrite32 m bus (sp + 20) (c.r REG_LR)
  let bus := membusWrite32 m bus (sp + 24) (c.r REG_PC ||| 1)
  membusWrite32 m bus (sp + 28) (savedXpsr c)

/-- `armv7m_take_interrupt`. -/
def armv7mTakeInterrupt (c : Cpu) (bus : Bus σ) (vectorNum : BitVec 32) : Cpu × Bus σ :=
  let onPsp := c.control &&& 2 ≠ 0
  let sp := c.r REG_SP - 32
  let bus := pushFrame m c bus sp
  let c := if onPsp then { c with psp := sp } else { c with msp := sp }
  let c := { c with itState := 0 }
  let c := c.set REG_LR (if onPsp then 0xFFFFFFFD else 0xFFFFFFF9)
  let c := c.set REG_SP c.msp
  let c := { c with
    inHandler := true
    xpsr := (c.xpsr &&& ~~~0x1FF) ||| (vectorNum &&& 0x1FF) }
  let handler := membusRead32 m bus (FLASH_BASE + vectorNum * 4)
  (c.set REG_PC (handler.1 &&& ~~~1), handler.2)

/-- `exc_return`. -/
def excReturn (excRet : BitVec 32) (c : Cpu) (bus : Bus σ) : Cpu × Bus σ :=
  let toPsp := excRet &&& 4 ≠ 0
  let sp := if toPsp then c.psp else c.msp
  let r0 := membusRead32 m bus (sp + 0)
  let r1 := membusRead32 m r0.2 (sp + 4)
  let r2 := membusRead32 m r1.2 (sp + 8)
  let r3 := membusRead32 m r2.2 (sp + 12)
  let r12 := membusRead32 m r3.2 (sp + 16)
  let lr := membusRead32 m r12.2 (sp + 20)
  let pc := membusRead32 m lr.2 (sp + 24)
  let xpsr := membusRead32 m pc.2 (sp + 28)
  let c := (((c.set 0 r0.1).set 1 r1.1).set 2 r2.1).set 3 r3.1
  let c := ((c.set 12 r12.1).set REG_LR lr.1).set REG_PC (pc.1 &&& ~~~1)
  let restored := xpsr.1 ||| FLAG_T
  let c := { c with
    itState := ((((restored >>> 25) &&& 3) <<< 6) ||| ((restored >>> 10) &&& 0x3F)).setWidth 8
    xpsr := restored &&& ~~~IT_BITS }
  let c :=
    if toPsp then { (c.set REG_SP (sp + 32)) with psp := sp + 32, control := c.control ||| 2 }
    else { (c.set REG_SP (sp + 32)) with msp := sp + 32 }
  ({ c with inHandler := false, xpsr := c.xpsr &&& ~~~0x1FF }, xpsr.2)

end Exceptions

/-! ## Data processing

Each function is one target of the dispatch table; `insn` is the 16-bit instruction. -/

/-- Write a result and set N and Z from it. -/
def Cpu.putNz (c : Cpu) (rd : Nat) (v : BitVec 32) : Cpu := { c.set rd v with xpsr := setNz c.xpsr v }

def lslImm (insn : Nat) (c : Cpu) : Cpu :=
  let imm5 := insn / 64 % 32
  let rm := insn / 8 % 8
  c.putNz (insn % 8) (if imm5 = 0 then c.r rm else c.r rm <<< imm5)

def lsrImm (insn : Nat) (c : Cpu) : Cpu :=
  let imm5 := insn / 64 % 32
  let rm := insn / 8 % 8
  c.putNz (insn % 8) (if imm5 = 0 then 0 else c.r rm >>> imm5)

def asrImm (insn : Nat) (c : Cpu) : Cpu :=
  let imm5 := insn / 64 % 32
  let rm := insn / 8 % 8
  c.putNz (insn % 8) (if imm5 = 0 then (c.r rm).sshiftRight 31 else (c.r rm).sshiftRight imm5)

/-- `a - b` in 64 bits, written to `rd` with its flags. -/
def Cpu.putSub (c : Cpu) (rd : Nat) (a b : BitVec 32) : Cpu :=
  let result := a.setWidth 64 - b.setWidth 64
  { c.set rd (result.setWidth 32) with xpsr := setNzcvSub c.xpsr a b result }

/-- The flags of `a - b` only. -/
def Cpu.cmp (c : Cpu) (a b : BitVec 32) : Cpu :=
  { c with xpsr := setNzcvSub c.xpsr a b (a.setWidth 64 - b.setWidth 64) }

/-- `a + b` in 64 bits, written to `rd` with its flags. -/
def Cpu.putAdd (c : Cpu) (rd : Nat) (a b : BitVec 32) : Cpu :=
  let result := a.setWidth 64 + b.setWidth 64
  { c.set rd (result.setWidth 32) with xpsr := setNzcvAdd c.xpsr a b result }

def addSub (insn : Nat) (c : Cpu) : Cpu :=
  let rd := insn % 8
  let rn := insn / 8 % 8
  let operand := if insn / 1024 % 2 = 1 then BitVec.ofNat 32 (insn / 64 % 8) else c.r (insn / 64 % 8)
  if insn / 512 % 2 = 1 then c.putSub rd (c.r rn) operand else c.putAdd rd (c.r rn) operand

def movImm (insn : Nat) (c : Cpu) : Cpu := c.putNz (insn / 256 % 8) (BitVec.ofNat 32 (insn % 256))

def cmpImm (insn : Nat) (c : Cpu) : Cpu := c.cmp (c.r (insn / 256 % 8)) (BitVec.ofNat 32 (insn % 256))

def addImm8 (insn : Nat) (c : Cpu) : Cpu :=
  c.putAdd (insn / 256 % 8) (c.r (insn / 256 % 8)) (BitVec.ofNat 32 (insn % 256))

def subImm8 (insn : Nat) (c : Cpu) : Cpu :=
  c.putSub (insn / 256 % 8) (c.r (insn / 256 % 8)) (BitVec.ofNat 32 (insn % 256))

/-- The data processing half of `alu_special`. -/
def aluOps (insn : Nat) (c : Cpu) : Cpu :=
  let rd := insn % 8
  let a := c.r rd
  let b := c.r (insn / 8 % 8)
  let s := b.toNat % 32
  match insn / 64 % 16 with
  | 0x0 => c.putNz rd (a &&& b)
  | 0x1 => c.putNz rd (a ^^^ b)
  | 0x2 => c.putNz rd (a <<< s)
  | 0x3 => c.putNz rd (a >>> s)
  | 0x4 => c.putNz rd (a.sshiftRight s)
  | 0x5 =>
    let r := a.setWidth 64 + b.setWidth 64 + (carryBit c.xpsr).setWidth 64
    { c.set rd (r.setWidth 32) with xpsr := setNzcvAdd c.xpsr a (b + carryBit c.xpsr) r }
  | 0x6 =>
    let r := a.setWidth 64 - b.setWidth 64 - (carryBit c.xpsr ^^^ 1).setWidth 64
    { c.set rd (r.setWidth 32) with xpsr := setNzcvSub c.xpsr a b r }
  | 0x7 => c.putNz rd (if s ≠ 0 then (a >>> s) ||| (a <<< (32 - s)) else a)
  | 0x8 => { c with xpsr := setNz c.xpsr (a &&& b) }
  | 0x9 => c.putSub rd 0 b
  | 0xA => c.cmp a b
  | 0xB => { c with xpsr := setNzcvAdd c.xpsr a b (a.setWidth 64 + b.setWidth 64) }
  | 0xC => c.putNz rd (a ||| b)
  | 0xD => c.putNz rd (a * b)
  | 0xE => c.putNz rd (a &&& ~~~b)
  | _ => c.putNz rd (~~~b)

/-- `if (rd == REG_PC) c->r[REG_PC] &= ~1u`. -/
def Cpu.evenPc (c : Cpu) (rd : Nat) : Cpu :=
  if rd = REG_PC then c.set REG_PC (c.r REG_PC &&& ~~~1) else c

/-- The special data and branch exchange half of `alu_special`. -/
def specialOps {σ : Type} (m : Machine σ) (insn : Nat) (c : Cpu) (bus : Bus σ) : Cpu × Bus σ :=
  let rm := insn / 8 % 16
  let rd := insn % 8 + 8 * (insn / 128 % 2)
  match insn / 256 % 4 with
  | 0 => ((c.set rd (c.r rd + c.r rm)).evenPc rd, bus)
  | 1 => (c.cmp (c.r rd) (c.r rm), bus)
  | 2 => ((c.set rd (c.r rm)).evenPc rd, bus)
  | _ =>
    let c := if insn / 128 % 2 = 1 then c.set REG_LR (c.r REG_PC ||| 1) else c
    if c.r rm &&& 0xFFFFFFF0 = 0xFFFFFFF0 then excReturn m (c.r rm) c bus
    else (c.set REG_PC (c.r rm &&& ~~~1), bus)

/-! ## Loads, stores and branches -/

section LoadStore

variable {σ : Type} (m : Machine σ)

/-- Load a register with what a read returned. -/
def load (rt : Nat) (c : Cpu) (v : BitVec 32 × Bus σ) : Cpu × Bus σ := (c.set rt v.1, v.2)

def lsReg (insn : Nat) (c : Cpu) (bus : Bus σ) : Cpu × Bus σ :=
  let rt := insn % 8
  let addr := c.r (insn / 8 % 8) + c.r (insn / 64 % 8)
  match insn / 512 % 8 with
  | 0 => (c, membusWrite32 m bus addr (c.r rt))
  | 1 => (c, membusWrite16 m bus addr (c.r rt))
  | 2 => (c, membusWrite8 m bus addr (c.r rt))
  | 3 =>
    let v := membusRead8 m bus addr
    load rt c ((v.1.setWidth 8).signExtend 32, v.2)
  | 4 => load rt c (membusRead32 m bus addr)
  | 5 => load rt c (membusRead16 m bus addr)
  | 6 => load rt c (membusRead8 m bus addr)
  | _ =>
    let v := membusRead16 m bus addr
    load rt c ((v.1.setWidth 16).signExtend 32, v.2)

/-- `str_imm`, `ldr_imm`, `strb_imm`, `ldrb_imm`, `strh_imm` and `ldrh_imm`, by their group. -/
def lsImm (group insn : Nat) (c : Cpu) (bus : Bus σ) : Cpu × Bus σ :=
  let rt := insn % 8
  let imm5 := insn / 64 % 32
  let base := c.r (insn / 8 % 8)
  match group with
  | 12 => (c, membusWrite32 m bus (base + BitVec.ofNat 32 (imm5 * 4)) (c.r rt))
  | 13 => load rt c (membusRead32 m bus (base + BitVec.ofNat 32 (imm5 * 4)))
  | 14 => (c, membusWrite8 m bus (base + BitVec.ofNat 32 imm5) (c.r rt))
  | 15 => load rt c (membusRead8 m bus (base + BitVec.ofNat 32 imm5))
  | 16 => (c, membusWrite16 m bus (base + BitVec.ofNat 32 (imm5 * 2)) (c.r rt))
  | _ => load rt c (membusRead16 m bus (base + BitVec.ofNat 32 (imm5 * 2)))

/-- One register of a push. -/
def pushOne (i : Nat) (s : Cpu × Bus σ) : Cpu × Bus σ :=
  let c := s.1.set REG_SP (s.1.r REG_SP - 4)
  (c, membusWrite32 m s.2 (c.r REG_SP) (c.r i))

/-- One register of a pop. -/
def popOne (i : Nat) (s : Cpu × Bus σ) : Cpu × Bus σ :=
  let v := membusRead32 m s.2 (s.1.r REG_SP)
  let c := s.1.set i v.1
  (c.set REG_SP (c.r REG_SP + 4), v.2)

/-- The low registers of a list that has them as bits. -/
def regList (regs : Nat) : List Nat := (List.range 8).filter (regs.testBit ·)

def push (insn : Nat) (c : Cpu) (bus : Bus σ) : Cpu × Bus σ :=
  let s := if insn / 256 % 2 = 1 then pushOne m REG_LR (c, bus) else (c, bus)
  (regList (insn % 256)).reverse.foldl (fun s i => pushOne m i s) s

def pop (insn : Nat) (c : Cpu) (bus : Bus σ) : Cpu × Bus σ :=
  let s := (regList (insn % 256)).foldl (fun s i => popOne m i s) (c, bus)
  if insn / 256 % 2 = 1 then
    let v := membusRead32 m s.2 (s.1.r REG_SP)
    let c := s.1.set REG_SP (s.1.r REG_SP + 4)
    if v.1 &&& 0xFFFFFFF0 = 0xFFFFFFF0 then excReturn m v.1 c v.2
    else (c.set REG_PC (v.1 &&& ~~~1), v.2)
  else s

def stm (insn : Nat) (c : Cpu) (bus : Bus σ) : Cpu × Bus σ :=
  let rn := insn / 256 % 8
  let s := (regList (insn % 256)).foldl
    (fun (s : BitVec 32 × Bus σ) i => (s.1 + 4, membusWrite32 m s.2 s.1 (c.r i))) (c.r rn, bus)
  (c.set rn s.1, s.2)

def ldm (insn : Nat) (c : Cpu) (bus : Bus σ) : Cpu × Bus σ :=
  let rn := insn / 256 % 8
  let s := (regList (insn % 256)).foldl
    (fun (s : BitVec 32 × Cpu × Bus σ) i => (s.1 + 4, load i s.2.1 (membusRead32 m s.2.2 s.1))) (c.r rn, c, bus)
  (s.2.1.set rn s.1, s.2.2)

/-- `v & 0xFF…` rearranged by the two byte reversals. -/
def rev (v : BitVec 32) : BitVec 32 :=
  ((v >>> 24) &&& 0xFF) ||| ((v >>> 8) &&& 0xFF00) ||| ((v <<< 8) &&& 0xFF0000) ||| ((v <<< 24) &&& 0xFF000000)

def rev16 (v : BitVec 32) : BitVec 32 := ((v &&& 0xFF00FF00) >>> 8) ||| ((v &&& 0x00FF00FF) <<< 8)

/-- `misc`; `none` is an exit of the semihosting call. -/
def misc (insn : Nat) (pc : BitVec 32) (c : Cpu) (bus : Bus σ) : Option (Cpu × Bus σ) :=
  let low := c.r (insn / 8 % 8)
  if insn / 256 = 0xB0 then
    let imm7 := BitVec.ofNat 32 (insn % 128 * 4)
    some (c.set REG_SP (if insn / 128 % 2 = 1 then c.r REG_SP - imm7 else c.r REG_SP + imm7), bus)
  else if insn / 512 = 0x5A then some (push m insn c bus)
  else if insn / 512 = 0x5E then some (pop m insn c bus)
  else if insn = 0xB672 then some ({ c with primask := 1 }, bus)
  else if insn = 0xB662 then some ({ c with primask := 0, irqShadow := true }, bus)
  else if insn / 256 = 0xBF then
    if insn % 16 = 0 then some (c, bus)
    else some ({ c with itState := BitVec.ofNat 8 (insn / 16 % 16 * 16 + insn % 16) }, bus)
  else if insn / 4096 = 0xB ∧ insn / 1024 % 2 = 0 ∧ insn / 256 % 2 = 1 then
    let imm := BitVec.ofNat 32 (insn / 8 % 32 * 2 + insn / 512 % 2 * 64)
    let taken := if insn / 2048 % 2 = 1 then c.r (insn % 8) ≠ 0 else c.r (insn % 8) = 0
    some (if taken then c.set REG_PC (pc + 4 + imm) else c, bus)
  else if insn / 64 = 0x2C8 then some (c.set (insn % 8) ((low.setWidth 16).signExtend 32), bus)
  else if insn / 64 = 0x2C9 then some (c.set (insn % 8) ((low.setWidth 8).signExtend 32), bus)
  else if insn / 64 = 0x2CA then some (c.set (insn % 8) (low &&& 0xFFFF), bus)
  else if insn / 64 = 0x2CB then some (c.set (insn % 8) (low &&& 0xFF), bus)
  else if insn / 64 = 0x2E8 then some (c.set (insn % 8) (rev low), bus)
  else if insn / 64 = 0x2E9 then some (c.set (insn % 8) (rev16 low), bus)
  else if insn = 0xBE00 then some (c.set REG_PC (c.r REG_PC - 2), bus)
  else if insn = 0xBEAB then m.semihost c bus
  else some (c, bus)

def condBranch (insn : Nat) (pc : BitVec 32) (c : Cpu) : Cpu :=
  let cond := insn / 256 % 16
  if 0xE ≤ cond then c
  else if condCheck c.xpsr cond then
    c.set REG_PC (pc + 4 + (((BitVec.ofNat 8 (insn % 256)).signExtend 32) <<< 1))
  else c

def branch (insn : Nat) (pc : BitVec 32) (c : Cpu) : Cpu :=
  c.set REG_PC (pc + 4 + (((BitVec.ofNat 11 (insn % 2048)).signExtend 32) <<< 1))

/-- The dispatch on `insn >> 11`; `none` is the exit at an unknown instruction. -/
def dispatch (insn : Nat) (pc : BitVec 32) (c : Cpu) (bus : Bus σ) : Option (Cpu × Bus σ) :=
  let imm8 := BitVec.ofNat 32 (insn % 256 * 4)
  match insn / 2048 with
  | 0 => some (lslImm insn c, bus)
  | 1 => some (lsrImm insn c, bus)
  | 2 => some (asrImm insn c, bus)
  | 3 => some (addSub insn c, bus)
  | 4 => some (movImm insn c, bus)
  | 5 => some (cmpImm insn c, bus)
  | 6 => some (addImm8 insn c, bus)
  | 7 => some (subImm8 insn c, bus)
  | 8 => some (if insn / 1024 = 0x10 then (aluOps insn c, bus) else specialOps m insn c bus)
  | 9 => some (load (insn / 256 % 8) c (membusRead32 m bus (((pc + 4) &&& ~~~3) + imm8)))
  | 10 => some (lsReg m insn c bus)
  | 11 => some (lsReg m insn c bus)
  | 18 => some (c, membusWrite32 m bus (c.r REG_SP + imm8) (c.r (insn / 256 % 8)))
  | 19 => some (load (insn / 256 % 8) c (membusRead32 m bus (c.r REG_SP + imm8)))
  | 20 => some (c.set (insn / 256 % 8) (((pc + 4) &&& ~~~3) + imm8), bus)
  | 21 => some (c.set (insn / 256 % 8) (c.r REG_SP + imm8), bus)
  | 22 => misc m insn pc c bus
  | 23 => misc m insn pc c bus
  | 24 => some (stm m insn c bus)
  | 25 => some (ldm m insn c bus)
  | 26 => some (condBranch insn pc c, bus)
  | 27 => some (condBranch insn pc c, bus)
  | 28 => some (branch insn pc c, bus)
  | 29 => none
  | 30 => none
  | 31 => none
  | group => some (lsImm m group insn c bus)

/-- The IT state after one instruction. -/
def advanceIt (it : BitVec 8) : BitVec 8 :=
  let mask := it &&& 0xF
  if mask &&& 0x7 = 0 then 0 else (it &&& 0xE0) ||| ((mask <<< 1) &&& 0x1F)

def FLAGS : BitVec 32 := FLAG_N ||| FLAG_Z ||| FLAG_C ||| FLAG_V

/-- The end of a 16-bit instruction, `done_16`: in an IT block the flags stay as they were. -/
def done16 (inIt : Bool) (savedFlags : BitVec 32) (s : Cpu × Bus σ) : Cpu × Bus σ :=
  if inIt then ({ s.1 with xpsr := (s.1.xpsr &&& ~~~FLAGS) ||| savedFlags }, s.2) else s

/-- The state in which an instruction is executed: behind it, with the IT state advanced. -/
def fetched (c : Cpu) : Cpu :=
  { c.set REG_PC (c.r REG_PC + 2) with
    cycleCount := c.cycleCount + 1
    irqShadow := false
    itState := if c.itState ≠ 0 then advanceIt c.itState else c.itState }

/-- `armv7m_cpu_step`, without its return code. -/
def armv7mCpuStep (c : Cpu) (bus : Bus σ) : Option (Cpu × Bus σ) :=
  let pc := c.r REG_PC
  let f := membusRead16 m bus pc
  let insn := f.1.toNat
  let inIt := c.itState != 0
  let itSkip := inIt && !condCheck c.xpsr (c.itState >>> 4).toNat
  let c := fetched c
  if insn / 8192 = 7 ∧ insn / 2048 % 4 ≠ 0 then
    let f2 := membusRead16 m f.2 (pc + 2)
    let c := c.set REG_PC (pc + 4)
    if itSkip then some (c, f2.2) else m.execThumb32 ((f.1 <<< 16) ||| f2.1) c f2.2
  else if itSkip then some (c, f.2)
  else (dispatch m insn pc c f.2).map (done16 inIt (c.xpsr &&& FLAGS))

end LoadStore

end Embedded.Sim
