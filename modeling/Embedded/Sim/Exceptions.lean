import Embedded.Sim.DataProcessing

/-! # Exceptions of the simulated CPU are transparent

A handler whose first instruction is the exception return: the state of the interrupted thread is restored
and memory has changed only in the frame below its stack pointer. -/

namespace Embedded.Sim

open List

variable {d k : BitVec 32}

/-! ## Words in memory -/

variable (mem : BitVec 32 → BitVec 8)

theorem getWord_putBytes_self (a v : BitVec 32) : getWord (putBytes 4 mem a v) a = v := by
  have h : ∀ k : BitVec 32, k.toNat < 4 → putBytes 4 mem a v (a + k) = v.extractLsb' (8 * k.toNat) 8 := by
    intro k hk
    have hsub : a + k - a = k := by rw [BitVec.add_comm, BitVec.add_sub_cancel]
    rw [putBytes, hsub, if_pos hk]
  have h0 := h 0#32 (by decide)
  rw [BitVec.add_zero] at h0
  rw [getWord, h 3 (by decide), h 2 (by decide), h 1 (by decide), h0]
  apply BitVec.eq_of_getLsbD_eq
  intro i hi
  simp only [BitVec.getLsbD_append, BitVec.getLsbD_extractLsb']
  by_cases h0 : i < 8
  · simp [h0]
  by_cases h1 : i < 16
  · simp [h0, show i - 8 < 8 by omega, show 8 + (i - 8) = i by omega]
  by_cases h2 : i < 24
  · simp [h0, show ¬ i - 8 < 8 by omega, show i - 8 - 8 < 8 by omega, show 16 + (i - 8 - 8) = i by omega]
  simp [h0, show ¬ i - 8 < 8 by omega, show ¬ i - 8 - 8 < 8 by omega, show i - 8 - 8 - 8 < 8 by omega,
    show 24 + (i - 8 - 8 - 8) = i by omega]

variable {sp x : BitVec 32} {c : Cpu}

variable {mem} in
theorem putBytes_of_le {a v : BitVec 32} (h : 4 ≤ (x - a).toNat) : putBytes 4 mem a v x = mem x := by
  rw [putBytes, if_neg (by omega)]

theorem getWord_putBytes_apart (sp v : BitVec 32) {e : BitVec 32}
    (h : 4 ≤ (e - d).toNat) (h' : (e - d).toNat ≤ 4294967292) :
    getWord (putBytes 4 mem (sp + d) v) (sp + e) = getWord mem (sp + e) := by
  have hk : ∀ k : BitVec 32, k.toNat < 4 → putBytes 4 mem (sp + d) v (sp + e + k) = mem (sp + e + k) := by
    intro k hk
    apply putBytes_of_le
    have hsub : sp + e + k - (sp + d) = (e - d) + k := by bv_omega
    rw [hsub, BitVec.toNat_add]
    omega
  have h0 := hk 0#32 (by decide)
  rw [BitVec.add_zero] at h0
  rw [getWord, getWord, hk 3 (by decide), hk 2 (by decide), hk 1 (by decide), h0]

/-! ## The saved status word -/

/-- What holds of the status register in thread mode: no exception number, the Thumb bit, and no bit of the IT
state, which is kept apart. -/
structure ThreadXpsr (x : BitVec 32) : Prop where
  ipsr : x &&& 0x1FF = 0
  thumb : x &&& FLAG_T = FLAG_T
  it : x &&& IT_BITS = 0

/-- The IT state in its bits of the status register. -/
def itBits (it : BitVec 8) : BitVec 32 :=
  (((it.setWidth 32 >>> 6) &&& 3) <<< 25) ||| ((it.setWidth 32 &&& 0x3F) <<< 10)

theorem savedXpsr_eq (c : Cpu) : savedXpsr c = c.xpsr ||| itBits c.itState := by
  unfold savedXpsr itBits
  split
  · rw [BitVec.or_assoc]
  next h =>
  rw [Decidable.of_not_not h]
  simp

theorem itBits_and (it : BitVec 8) : itBits it &&& ~~~IT_BITS = 0 := by
  revert it
  decide +kernel

theorem itBits_restored (it : BitVec 8) :
    ((((itBits it >>> 25) &&& 3) <<< 6) ||| ((itBits it >>> 10) &&& 0x3F)).setWidth 8 = it := by
  revert it
  decide +kernel

/-- Only the IT bits of a word matter for the IT state that is read from it. -/
theorem restoredIt_and (x : BitVec 32) : ((((x >>> 25) &&& 3) <<< 6) ||| ((x >>> 10) &&& 0x3F) : BitVec 32) =
      ((((x &&& IT_BITS) >>> 25) &&& 3) <<< 6) ||| (((x &&& IT_BITS) >>> 10) &&& 0x3F) := by
  have h25 : (IT_BITS >>> 25) &&& 3 = 3 := by decide
  have h10 : (IT_BITS >>> 10) &&& 0x3F = 0x3F := by decide
  rw [BitVec.ushiftRight_and_distrib, BitVec.ushiftRight_and_distrib, BitVec.and_assoc, BitVec.and_assoc, h25, h10]

theorem and_not_of_and_eq_zero (h : x &&& k = 0) : x &&& ~~~k = x := by
  apply BitVec.eq_of_getLsbD_eq
  intro i hi
  have hbit := congrArg (BitVec.getLsbD · i) h
  simp only [BitVec.getLsbD_and, BitVec.getLsbD_not, hi, decide_true, Bool.true_and] at hbit ⊢
  cases hx : x.getLsbD i <;> simp_all

theorem or_of_and_eq (h : x &&& k = k) : x ||| k = x := by
  apply BitVec.eq_of_getLsbD_eq
  intro i hi
  have hbit := congrArg (BitVec.getLsbD · i) h
  simp only [BitVec.getLsbD_and, BitVec.getLsbD_or] at hbit ⊢
  cases hx : x.getLsbD i <;> simp_all

/-- The word that the return works on is the saved one. -/
theorem savedXpsr_or_thumb (h : ThreadXpsr c.xpsr) :
    savedXpsr c ||| FLAG_T = c.xpsr ||| itBits c.itState := by
  rw [savedXpsr_eq, BitVec.or_assoc, BitVec.or_comm (itBits _), ← BitVec.or_assoc, or_of_and_eq h.thumb]

theorem restored_xpsr (h : ThreadXpsr c.xpsr) :
    (c.xpsr ||| itBits c.itState) &&& ~~~IT_BITS &&& ~~~0x1FF = c.xpsr := by
  rw [BitVec.and_comm (_ ||| _), BitVec.and_or_distrib_left, BitVec.and_comm _ c.xpsr,
    BitVec.and_comm _ (itBits _), itBits_and, and_not_of_and_eq_zero h.it]
  show (c.xpsr ||| 0#32) &&& ~~~0x1FF = c.xpsr
  rw [BitVec.or_zero, and_not_of_and_eq_zero h.ipsr]

theorem restored_it (h : ThreadXpsr c.xpsr) : (((((c.xpsr ||| itBits c.itState) >>> 25) &&& 3) <<< 6) |||
      (((c.xpsr ||| itBits c.itState) >>> 10) &&& 0x3F)).setWidth 8 = c.itState := by
  have hand : (c.xpsr ||| itBits c.itState) &&& IT_BITS = itBits c.itState &&& IT_BITS := by
    rw [BitVec.and_comm, BitVec.and_or_distrib_left, BitVec.and_comm _ c.xpsr, h.it, BitVec.and_comm]
    show 0#32 ||| _ = _
    rw [BitVec.zero_or]
  rw [restoredIt_and, hand, ← restoredIt_and, itBits_restored]

/-! ## The frame -/

/-- The frame below a stack pointer lies in the RAM. -/
def FrameInRam (sp : BitVec 32) : Prop := 0x20000020 ≤ sp.toNat ∧ sp.toNat ≤ 0x20020000

theorem inRam_of_le {a : BitVec 32} (h : 0x20000000 ≤ a.toNat) (h' : a.toNat < 0x20020000) :
    inRam a.toNat = true := by
  unfold inRam MEMBUS_RAM_BASE MEMBUS_RAM_SIZE
  rw [Bool.and_eq_true, decide_eq_true_iff, decide_eq_true_iff]
  omega

theorem FrameInRam.word (h : FrameInRam sp) (hd : d.toNat ≤ 28) : inRam (sp - 32 + d).toNat = true := by
  obtain ⟨h1, h2⟩ := h
  have hval : (sp - 32 + d).toNat = sp.toNat - 32 + d.toNat := by bv_omega
  apply inRam_of_le <;> omega

section Frame

variable {σ : Type} (m : Machine σ)

/-- The RAM with the frame of an exception. -/
def frameRam (c : Cpu) (ram : BitVec 32 → BitVec 8) (sp : BitVec 32) : BitVec 32 → BitVec 8 :=
  putBytes 4 (putBytes 4 (putBytes 4 (putBytes 4 (putBytes 4 (putBytes 4 (putBytes 4 (putBytes 4 ram
    (sp + 0) (c.r 0)) (sp + 4) (c.r 1)) (sp + 8) (c.r 2)) (sp + 12) (c.r 3)) (sp + 16) (c.r 12))
    (sp + 20) (c.r REG_LR)) (sp + 24) (c.r REG_PC ||| 1)) (sp + 28) (savedXpsr c)

theorem pushFrame_eq (c : Cpu) (bus : Bus σ) (h : FrameInRam sp) :
    pushFrame m c bus (sp - 32) = { bus with ram := frameRam c bus.ram (sp - 32) } := by
  have hw : ∀ (b : Bus σ) (d v : BitVec 32), d.toNat ≤ 28 →
      membusWrite32 m b (sp - 32 + d) v = { b with ram := putBytes 4 b.ram (sp - 32 + d) v } := by
    intro b d v hd
    rw [membusWrite32, membusWriteN, if_pos (h.word hd)]
  simp only [pushFrame, hw _ 0 _ (by decide), hw _ 4 _ (by decide), hw _ 8 _ (by decide), hw _ 12 _ (by decide),
    hw _ 16 _ (by decide), hw _ 20 _ (by decide), hw _ 24 _ (by decide), hw _ 28 _ (by decide)]
  rfl

theorem frameRam_outside (c : Cpu) (ram : BitVec 32 → BitVec 8) (h : 32 ≤ (x - (sp - 32)).toNat) :
    frameRam c ram (sp - 32) x = ram x := by
  have hle : ∀ d : BitVec 32, d.toNat ≤ 28 → 4 ≤ (x - (sp - 32 + d)).toNat := by
    intro d hd
    have hsub : x - (sp - 32 + d) = (x - (sp - 32)) - d := by bv_omega
    rw [hsub, BitVec.toNat_sub]
    omega
  unfold frameRam
  rw [putBytes_of_le (hle 28 (by decide)), putBytes_of_le (hle 24 (by decide)), putBytes_of_le (hle 20 (by decide)),
    putBytes_of_le (hle 16 (by decide)), putBytes_of_le (hle 12 (by decide)), putBytes_of_le (hle 8 (by decide)),
    putBytes_of_le (hle 4 (by decide)), putBytes_of_le (hle 0 (by decide))]

theorem getWord_frameRam (c : Cpu) (ram : BitVec 32 → BitVec 8) (sp : BitVec 32) :
    getWord (frameRam c ram sp) (sp + 0) = c.r 0 ∧ getWord (frameRam c ram sp) (sp + 4) = c.r 1 ∧
      getWord (frameRam c ram sp) (sp + 8) = c.r 2 ∧ getWord (frameRam c ram sp) (sp + 12) = c.r 3 ∧
      getWord (frameRam c ram sp) (sp + 16) = c.r 12 ∧ getWord (frameRam c ram sp) (sp + 20) = c.r REG_LR ∧
      getWord (frameRam c ram sp) (sp + 24) = c.r REG_PC ||| 1 ∧
      getWord (frameRam c ram sp) (sp + 28) = savedXpsr c := by
  unfold frameRam
  refine ⟨?_, ?_, ?_, ?_, ?_, ?_, ?_, ?_⟩ <;>
    simp (disch := decide) only [getWord_putBytes_apart, getWord_putBytes_self]

end Frame

/-! ## Entry and return -/

/-- The stack pointers: the one in use is `r[SP]`, its field is only brought up to date by an entry. -/
def mainSp (c : Cpu) : BitVec 32 := if c.control &&& 2 ≠ 0 then c.msp else c.r REG_SP

def processSp (c : Cpu) : BitVec 32 := if c.control &&& 2 ≠ 0 then c.r REG_SP else c.psp

/-- What an entry into an exception makes of the CPU. -/
structure Entered (c c1 : Cpu) : Prop where
  r : ∀ i, i ≠ 13 → i ≠ 14 → i ≠ 15 → c1.r i = c.r i
  lr : c1.r 14 = if c.control &&& 2 ≠ 0 then 0xFFFFFFFD else 0xFFFFFFF9
  psp : c1.psp = if c.control &&& 2 ≠ 0 then c.r REG_SP - 32 else c.psp
  msp : c1.msp = if c.control &&& 2 ≠ 0 then c.msp else c.r REG_SP - 32
  control : c1.control = c.control
  primask : c1.primask = c.primask
  it : c1.itState = 0

/-- What a return makes of the CPU, from the words of a frame that ends at `top`. -/
structure Returned (c c' : Cpu) (toPsp : Prop) [Decidable toPsp] (word : BitVec 32 → BitVec 32) (top : BitVec 32) :
    Prop where
  r : ∀ i, i ∉ [0, 1, 2, 3, 12, 13, 14, 15] → c'.r i = c.r i
  r0 : c'.r 0 = word 0
  r1 : c'.r 1 = word 4
  r2 : c'.r 2 = word 8
  r3 : c'.r 3 = word 12
  r12 : c'.r 12 = word 16
  lr : c'.r 14 = word 20
  pc : c'.r 15 = word 24 &&& ~~~1
  sp : c'.r 13 = top
  psp : c'.psp = if toPsp then top else c.psp
  msp : c'.msp = if toPsp then c.msp else top
  control : c'.control = if toPsp then c.control ||| 2 else c.control
  primask : c'.primask = c.primask
  inHandler : c'.inHandler = false
  it : c'.itState = (((((word 28 ||| FLAG_T) >>> 25) &&& 3) <<< 6) |||
    (((word 28 ||| FLAG_T) >>> 10) &&& 0x3F)).setWidth 8
  xpsr : c'.xpsr = (word 28 ||| FLAG_T) &&& ~~~IT_BITS &&& ~~~0x1FF

section Round

variable {σ : Type} (m : Machine σ)

theorem membusRead32_memory (bus : Bus σ) (a : BitVec 32) :
    (membusRead32 m bus a).2.ram = bus.ram ∧ (membusRead32 m bus a).2.flash = bus.flash := by
  unfold membusRead32
  split
  · exact ⟨rfl, rfl⟩
  · split <;> exact ⟨rfl, rfl⟩

theorem membusRead16_memory (bus : Bus σ) (a : BitVec 32) :
    (membusRead16 m bus a).2.ram = bus.ram ∧ (membusRead16 m bus a).2.flash = bus.flash := by
  unfold membusRead16
  split
  · exact ⟨rfl, rfl⟩
  · split <;> exact ⟨rfl, rfl⟩

theorem armv7mTakeInterrupt_entered (c : Cpu) (bus : Bus σ) (v : BitVec 32) :
    Entered c (armv7mTakeInterrupt m c bus v).1 := by
  unfold armv7mTakeInterrupt
  simp only [Cpu.set, REG_SP, REG_LR, REG_PC]
  by_cases h : c.control &&& 2 ≠ 0
  · simp only [if_pos h]
    refine ⟨fun i h13 h14 h15 => ?_, ?_, (if_pos h).symm, (if_pos h).symm, rfl, rfl, rfl⟩
    · simp [h13, h14, h15]
    rw [if_pos h]
    simp
  simp only [if_neg h]
  refine ⟨fun i h13 h14 h15 => ?_, ?_, (if_neg h).symm, (if_neg h).symm, rfl, rfl, rfl⟩
  · simp [h13, h14, h15]
  rw [if_neg h]
  simp

theorem armv7mTakeInterrupt_memory (c : Cpu) (bus : Bus σ) (v : BitVec 32) (h : FrameInRam (c.r REG_SP)) :
    (armv7mTakeInterrupt m c bus v).2.ram = frameRam c bus.ram (c.r REG_SP - 32) ∧
      (armv7mTakeInterrupt m c bus v).2.flash = bus.flash := by
  have hbus : (armv7mTakeInterrupt m c bus v).2 =
      (membusRead32 m (pushFrame m c bus (c.r REG_SP - 32)) (FLASH_BASE + v * 4)).2 := by
    simp only [armv7mTakeInterrupt]
  obtain ⟨hram, hflash⟩ := membusRead32_memory m (pushFrame m c bus (c.r REG_SP - 32)) (FLASH_BASE + v * 4)
  rw [hbus, hram, hflash, pushFrame_eq m c bus h]
  exact ⟨rfl, rfl⟩

theorem excReturn_frame (excRet : BitVec 32) (c : Cpu) (bus : Bus σ) (h : FrameInRam sp)
    (hsp : (if excRet &&& 4 ≠ 0 then c.psp else c.msp) = sp - 32) :
    (excReturn m excRet c bus).2 = bus ∧
      Returned c (excReturn m excRet c bus).1 (excRet &&& 4 ≠ 0) (fun d => getWord bus.ram (sp - 32 + d)) sp := by
  have hr : ∀ d : BitVec 32, d.toNat ≤ 28 →
      membusRead32 m bus (sp - 32 + d) = (getWord bus.ram (sp - 32 + d), bus) := by
    intro d hd
    rw [membusRead32, if_pos (h.word hd)]
  have h32 : sp - 32 + 32 = sp := BitVec.sub_add_cancel sp 32
  simp only [excReturn, hsp, hr 0 (by decide), hr 4 (by decide), hr 8 (by decide), hr 12 (by decide),
    hr 16 (by decide), hr 20 (by decide), hr 24 (by decide), hr 28 (by decide), h32, Cpu.set, REG_SP, REG_LR, REG_PC]
  refine ⟨trivial, ?_⟩
  by_cases ht : excRet &&& 4 ≠ 0
  · simp only [if_pos ht]
    constructor
    case r =>
      intro i hi
      simp only [mem_cons, not_mem_nil, or_false, not_or] at hi
      simp [hi]
    all_goals first | exact (if_pos ht).symm | rfl
  simp only [if_neg ht]
  constructor
  case r =>
    intro i hi
    simp only [mem_cons, not_mem_nil, or_false, not_or] at hi
    simp [hi]
  all_goals first | exact (if_neg ht).symm | rfl

/-- A state of the simulator in thread mode. -/
structure ThreadMode (c : Cpu) : Prop where
  inHandler : c.inHandler = false
  xpsr : ThreadXpsr c.xpsr
  pc : c.r REG_PC &&& 1 = 0

/-- `c'` is the state `c` of a thread: its registers, flags, IT state and both stack pointers, and what else
belongs to it. -/
structure Restored (c c' : Cpu) : Prop where
  r : c'.r = c.r
  xpsr : c'.xpsr = c.xpsr
  it : c'.itState = c.itState
  mainSp : mainSp c' = mainSp c
  processSp : processSp c' = processSp c
  control : c'.control = c.control
  primask : c'.primask = c.primask
  inHandler : c'.inHandler = c.inHandler

/-- `bx lr` right after an entry is the exception return. -/
theorem bxLr_step (c : Cpu) (bus : Bus σ) (hit : c.itState = 0)
    (hret : (membusRead16 m bus (c.r REG_PC)).1 = 0x4770) (hlr : c.r 14 &&& 0xFFFFFFF0 = 0xFFFFFFF0) :
    armv7mCpuStep m c bus = some (excReturn m (c.r 14) (fetched c) (membusRead16 m bus (c.r REG_PC)).2) := by
  have hlr' : (fetched c).r 14 = c.r 14 := fetched_r c (by decide)
  have hgroup : (membusRead16 m bus (c.r REG_PC)).1.toNat / 2048 ≤ 22 := by
    rw [hret]
    decide
  rw [armv7mCpuStep_eq m c bus hit hgroup, hret]
  show some (if (fetched c).r 14 &&& 0xFFFFFFF0 = 0xFFFFFFF0
    then excReturn m ((fetched c).r 14) (fetched c) (membusRead16 m bus (c.r REG_PC)).2 else _) = _
  rw [hlr', if_pos hlr]

theorem or_two (h : x &&& 2 ≠ 0) : x ||| 2 = x := by
  apply or_of_and_eq
  have hbit : x &&& 2 = if x.getLsbD 1 then 2 else 0 := BitVec.and_twoPow x 1
  split at hbit
  · exact hbit
  · exact absurd hbit h

theorem or_one_and_not {pc : BitVec 32} (h : pc &&& 1 = 0) : (pc ||| 1) &&& ~~~1 = pc := by
  rw [BitVec.and_comm, BitVec.and_or_distrib_left, BitVec.and_comm _ pc, and_not_of_and_eq_zero h]
  show pc ||| 0#32 = pc
  rw [BitVec.or_zero]

theorem Returned.restored {c c1 c' : Cpu} {ram : BitVec 32 → BitVec 8} (ht : ThreadMode c) (he : Entered c c1)
    (hr : Returned (fetched c1) c' (c.control &&& 2 ≠ 0)
      (fun d => getWord (frameRam c ram (c.r REG_SP - 32)) (c.r REG_SP - 32 + d)) (c.r REG_SP)) :
    Restored c c' := by
  obtain ⟨w0, w1, w2, w3, w12, wlr, wpc, wxpsr⟩ := getWord_frameRam c ram (c.r REG_SP - 32)
  have hreg : c'.r = c.r := by
    funext i
    by_cases hi : i ∈ [0, 1, 2, 3, 12, 13, 14, 15]
    · simp only [mem_cons, not_mem_nil, or_false] at hi
      rcases hi with rfl | rfl | rfl | rfl | rfl | rfl | rfl | rfl
      · exact hr.r0.trans w0
      · exact hr.r1.trans w1
      · exact hr.r2.trans w2
      · exact hr.r3.trans w3
      · exact hr.r12.trans w12
      · exact hr.sp
      · exact hr.lr.trans wlr
      rw [hr.pc, wpc]
      exact or_one_and_not ht.pc
    rw [hr.r i hi]
    simp only [mem_cons, not_mem_nil, or_false, not_or] at hi
    exact (Function.update_of_ne hi.2.2.2.2.2.2.2 _ _).trans
      (he.r i hi.2.2.2.2.2.1 hi.2.2.2.2.2.2.1 hi.2.2.2.2.2.2.2)
  have hcontrol : c'.control = c.control := by
    have hc := hr.control
    have hc1 : (fetched c1).control = c.control := he.control
    rw [hc1] at hc
    by_cases hp : c.control &&& 2 ≠ 0
    · rw [if_pos hp] at hc
      exact hc.trans (or_two hp)
    rwa [if_neg hp] at hc
  have hxpsr := savedXpsr_or_thumb ht.xpsr
  refine ⟨hreg, ?_, ?_, ?_, ?_, hcontrol, hr.primask.trans he.primask, ?_⟩
  · rw [hr.xpsr, wxpsr, hxpsr, restored_xpsr ht.xpsr]
  · rw [hr.it, wxpsr, hxpsr, restored_it ht.xpsr]
  · rw [mainSp, mainSp, hcontrol, hreg, hr.msp]
    split
    next hp => exact he.msp.trans (if_pos hp)
    · rfl
  · rw [processSp, processSp, hcontrol, hreg, hr.psp]
    split
    · rfl
    next hp => exact he.psp.trans (if_neg hp)
  rw [hr.inHandler, ht.inHandler]

/-- **Interrupts are transparent**: from every thread-mode state whose exception frame lies in the RAM, for
every vector whose handler starts with the exception return, the entry and that one instruction restore the
registers, the flags, the IT state and both stack pointers, and change memory only in the frame below the
stack pointer. -/
theorem exception_transparent (c : Cpu) (bus : Bus σ) (v : BitVec 32) (ht : ThreadMode c)
    (hf : FrameInRam (c.r REG_SP))
    (hret : (membusRead16 m (armv7mTakeInterrupt m c bus v).2 ((armv7mTakeInterrupt m c bus v).1.r REG_PC)).1 =
      0x4770) :
    ∃ c' bus', armv7mCpuStep m (armv7mTakeInterrupt m c bus v).1 (armv7mTakeInterrupt m c bus v).2 =
        some (c', bus') ∧
      Restored c c' ∧ bus'.flash = bus.flash ∧
      ∀ x : BitVec 32, x.toNat < (c.r REG_SP).toNat - 32 ∨ (c.r REG_SP).toNat ≤ x.toNat →
        bus'.ram x = bus.ram x := by
  have he := armv7mTakeInterrupt_entered m c bus v
  obtain ⟨hram, hflash⟩ := armv7mTakeInterrupt_memory m c bus v hf
  generalize armv7mTakeInterrupt m c bus v = s at he hram hflash hret
  obtain ⟨hram', hflash'⟩ := membusRead16_memory m s.2 (s.1.r REG_PC)
  -- the value in LR says which stack the frame is on
  have hlr : s.1.r 14 &&& 0xFFFFFFF0 = 0xFFFFFFF0 ∧ (s.1.r 14 &&& 4 ≠ 0 ↔ c.control &&& 2 ≠ 0) := by
    rw [he.lr]
    split
    next hp => exact ⟨by decide, iff_of_true (by decide) hp⟩
    next hp => exact ⟨by decide, iff_of_false (by decide) hp⟩
  have hsp : (if s.1.r 14 &&& 4 ≠ 0 then (fetched s.1).psp else (fetched s.1).msp) = c.r REG_SP - 32 := by
    simp only [hlr.2]
    split
    next hp => exact he.psp.trans (if_pos hp)
    next hp => exact he.msp.trans (if_neg hp)
  obtain ⟨hbus, hback⟩ := excReturn_frame m (s.1.r 14) (fetched s.1) (membusRead16 m s.2 (s.1.r REG_PC)).2 hf hsp
  have hstep := bxLr_step m s.1 s.2 he.it hret hlr.1
  generalize excReturn m (s.1.r 14) (fetched s.1) (membusRead16 m s.2 (s.1.r REG_PC)).2 = t at hbus hback hstep
  refine ⟨t.1, t.2, hstep, ?_, ?_, ?_⟩
  · rw [hram', hram] at hback
    simp only [hlr.2] at hback
    exact hback.restored ht he
  · rw [hbus, hflash', hflash]
  · intro x hx
    rw [hbus, hram', hram]
    apply frameRam_outside
    obtain ⟨h1, h2⟩ := hf
    bv_omega

end Round

/-- Flash with the handler `bx lr` at 0x08000100 for vector 16. -/
def bxLrFlash : BitVec 32 → BitVec 8 := fun a =>
  if a = 0x08000040 then 1 else if a = 0x08000041 then 1 else if a = 0x08000043 then 8
  else if a = 0x08000100 then 0x70 else if a = 0x08000101 then 0x47 else 0

def bxLrBus : Bus Unit := { flash := bxLrFlash, ram := fun _ => 0, dev := () }

/-- A thread on the process stack, inside an IT block, with N and C set. -/
def threadCpu (sp : BitVec 32) : Cpu :=
  { r := fun i => if i = 13 then sp else if i = 15 then 0x20000100 else 7
    xpsr := 0xA1000000
    primask := 0
    control := 2
    msp := 0x20008000
    psp := 0
    inHandler := false
    irqShadow := false
    itState := 0x5C
    cycleCount := 0 }

theorem threadCpu_threadMode (sp : BitVec 32) : ThreadMode (threadCpu sp) := by
  have hx : ThreadXpsr 0xA1000000 := ⟨by decide, by decide, by decide⟩
  have hpc : (0x20000100 : BitVec 32) &&& 1 = 0 := by decide
  exact ⟨rfl, hx, hpc⟩

theorem exception_transparent_psp :
    ∃ c' bus', armv7mCpuStep bareMachine (armv7mTakeInterrupt bareMachine (threadCpu 0x20001000) bxLrBus 16).1
        (armv7mTakeInterrupt bareMachine (threadCpu 0x20001000) bxLrBus 16).2 = some (c', bus') ∧
      Restored (threadCpu 0x20001000) c' ∧ bus'.ram 0x20001000 = 0 := by
  obtain ⟨c', bus', hstep, hrestored, -, hram⟩ := exception_transparent bareMachine (threadCpu 0x20001000) bxLrBus 16
    (threadCpu_threadMode _) ⟨by decide, by decide⟩ (by decide)
  exact ⟨c', bus', hstep, hrestored, hram 0x20001000 (.inr (by decide))⟩

/-- With less than a frame of RAM below the stack pointer the registers are lost. -/
theorem exception_stack_end : ThreadMode (threadCpu 0x20000010) ∧ (threadCpu 0x20000010).r 0 = 7 ∧
      (armv7mCpuStep bareMachine (armv7mTakeInterrupt bareMachine (threadCpu 0x20000010) bxLrBus 16).1
        (armv7mTakeInterrupt bareMachine (threadCpu 0x20000010) bxLrBus 16).2).map (fun s => s.1.r 0) = some 0 :=
  ⟨threadCpu_threadMode _, rfl, by decide⟩

end Embedded.Sim
