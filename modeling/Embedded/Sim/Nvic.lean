import Embedded.Sim.DataProcessing
import Mathlib

/-! # Interrupt delivery (`sim/src/arch/armv7m/armv7m_nvic.c`, `sim/src/soc/stm32f411.c`)

A tick of the chip consults the interrupt controller only when its flag `needs_update` is set. Over runs of
raised interrupts, register writes, instructions and ticks: when that takes the exceptions that a scan of all
pending interrupts at every tick would take (`lazy_eq_eager`), three ways in which it does not, and that no
vector is taken more often than it was raised. -/

namespace Embedded.Sim

open Function List

variable {v limit offset : Nat} {val : BitVec 32}

def IRQ_VEC_SVC : Nat := 11
def IRQ_VEC_PENDSV : Nat := 14
def IRQ_VEC_SYSTICK : Nat := 15

/-- `struct armv7m_nvic`; the bits of `pending` by their number. -/
structure Nvic where
  pending : Nat → Bool
  scbIcsr : BitVec 32
  scbShpr3 : BitVec 32
  scbVtor : BitVec 32
  scbShcsr : BitVec 32
  iser : Nat → BitVec 32
  needsUpdate : Bool

/-- `armv7m_nvic_init`. -/
def armv7mNvicInit : Nvic := ⟨fun _ => false, 0, 0, 0, 0, fun _ => 0, false⟩

/-- `armv7m_nvic_set_pending`. -/
def armv7mNvicSetPending (n : Nvic) (vector : Nat) : Nvic :=
  { n with pending := Function.update n.pending vector true, needsUpdate := true }

/-- `armv7m_nvic_scb_write`. -/
def armv7mNvicScbWrite (n : Nvic) (offset : Nat) (val : BitVec 32) : Nvic :=
  match offset with
  | 0x04 => { n with scbIcsr := val, needsUpdate := true }
  | 0x08 => { n with scbVtor := val }
  | 0x20 => { n with scbShpr3 := val }
  | 0x24 => { n with scbShcsr := val }
  | _ => n

/-- `armv7m_nvic_iser_write`. -/
def armv7mNvicIserWrite (n : Nvic) (offset : Nat) (val : BitVec 32) : Nvic :=
  if offset / 4 < 3 then { n with iser := Function.update n.iser (offset / 4) (n.iser (offset / 4) ||| val) } else n

/-- `iser[iser_idx] & (1u << iser_bit)` of an external vector. -/
def Nvic.enabled (n : Nvic) (i : Nat) : Bool := (n.iser ((i - 16) / 32)).getLsbD ((i - 16) % 32)

/-- `n->pending != 0`. -/
def Nvic.anyPending (n : Nvic) : Bool := (List.range 64).any n.pending

/-- The pending bit of PendSV is brought over from `ICSR`. -/
def Nvic.merge (n : Nvic) : Nvic :=
  { n with
    pending := if n.scbIcsr.getLsbD 28 then Function.update n.pending IRQ_VEC_PENDSV true else n.pending }

/-- The vector that is taken; the scan of the external ones ends before `limit`. -/
def Nvic.select (limit : Nat) (n : Nvic) : Option Nat :=
  if n.pending IRQ_VEC_SVC then some IRQ_VEC_SVC
  else if n.pending IRQ_VEC_SYSTICK then some IRQ_VEC_SYSTICK
  else if n.pending IRQ_VEC_PENDSV then some IRQ_VEC_PENDSV
  else (List.range' 16 (limit - 16)).find? fun i => n.pending i && n.enabled i

/-- A vector is no longer pending. -/
def Nvic.accept (n : Nvic) (vec : Nat) : Nvic :=
  { n with
    pending := Function.update n.pending vec false
    scbIcsr := if vec = IRQ_VEC_PENDSV then n.scbIcsr &&& ~~~0x10000000 else n.scbIcsr }

/-- The same controller with another flag. -/
def Nvic.withFlag (n : Nvic) (b : Bool) : Nvic := { n with needsUpdate := b }

/-- `cpu->primask || cpu->in_handler || cpu->irq_shadow`. -/
def Cpu.masked (c : Cpu) : Bool := c.primask != 0 || c.inHandler || c.irqShadow

/-- The chip; `taken` are the exceptions taken so far, the last one first. -/
structure Soc (σ : Type) where
  nvic : Nvic
  cpu : Cpu
  bus : Bus σ
  taken : List Nat

section Delivery

variable {σ : Type} (m : Machine σ)

/-- The interrupt that was selected is taken. -/
def Soc.take (s : Soc σ) (vec : Nat) : Soc σ :=
  let e := armv7mTakeInterrupt m s.cpu s.bus (BitVec.ofNat 32 vec)
  { nvic := s.nvic.accept vec, cpu := e.1, bus := e.2, taken := vec :: s.taken }

/-- `armv7m_nvic_update`, with the end of its scan. -/
def armv7mNvicUpdate (limit : Nat) (s : Soc σ) : Soc σ :=
  let n := s.nvic.merge.withFlag false
  if !n.anyPending || s.cpu.masked then { s with nvic := n.withFlag n.anyPending }
  else
    match n.select limit with
    | some vec => Soc.take m { s with nvic := n } vec
    | none => { s with nvic := n }

/-- The end of `stm32f411_tick`. -/
def lazyTick (s : Soc σ) : Soc σ := if s.nvic.needsUpdate then armv7mNvicUpdate m 57 s else s

/-- A tick that scans all pending interrupts. -/
def eagerTick (s : Soc σ) : Soc σ := armv7mNvicUpdate m 64 s

/-- What happens to the chip: a device raises its interrupt, the program writes a register of the controller,
the CPU and the devices do something else (an instruction, a change of the masks, a return from an
exception), and the end of a tick. -/
inductive SocEvent (σ : Type)
  | pend (vector : Nat)
  | scbWrite (offset : Nat) (val : BitVec 32)
  | iserWrite (offset : Nat) (val : BitVec 32)
  | cpu (f : Cpu × Bus σ → Cpu × Bus σ)
  | tick

/-- One event, with the tick of the simulator or with the one that always scans. -/
def socStep (tick : Soc σ → Soc σ) (s : Soc σ) : SocEvent σ → Soc σ
  | .pend vector => { s with nvic := armv7mNvicSetPending s.nvic vector }
  | .scbWrite offset val => { s with nvic := armv7mNvicScbWrite s.nvic offset val }
  | .iserWrite offset val => { s with nvic := armv7mNvicIserWrite s.nvic offset val }
  | .cpu f => { s with cpu := (f (s.cpu, s.bus)).1, bus := (f (s.cpu, s.bus)).2 }
  | .tick => tick s

/-- The chip after its reset. -/
def socInit (cpu : Cpu) (bus : Bus σ) : Soc σ := ⟨armv7mNvicInit, cpu, bus, []⟩

/-! ## Interrupts that could be taken -/

/-- An interrupt that only a mask can hold back: an exception of the core, or an enabled device. -/
def Nvic.Ready (n : Nvic) (v : Nat) : Prop :=
  n.merge.pending v = true ∧
    (v = IRQ_VEC_SVC ∨ v = IRQ_VEC_SYSTICK ∨ v = IRQ_VEC_PENDSV ∨ (16 ≤ v ∧ v < 64 ∧ n.enabled v = true))

theorem merge_pending_of_ne (n : Nvic) (h : v ≠ IRQ_VEC_PENDSV) : n.merge.pending v = n.pending v := by
  show (if n.scbIcsr.getLsbD 28 then update n.pending IRQ_VEC_PENDSV true else n.pending) v = _
  split
  · exact update_of_ne h _ _
  · rfl

variable {n : Nvic}

/-- What `select` finds is pending and may be taken. -/
theorem select_some (hl : limit ≤ 64) (h : n.select limit = some v) : n.pending v = true ∧
      (v = IRQ_VEC_SVC ∨ v = IRQ_VEC_SYSTICK ∨ v = IRQ_VEC_PENDSV ∨ (16 ≤ v ∧ v < 64 ∧ n.enabled v = true)) := by
  unfold Nvic.select at h
  split at h
  next hp =>
    cases h
    exact ⟨hp, .inl rfl⟩
  split at h
  next hp =>
    cases h
    exact ⟨hp, .inr (.inl rfl)⟩
  split at h
  next hp =>
    cases h
    exact ⟨hp, .inr (.inr (.inl rfl))⟩
  have hp := find?_some h
  have hm := mem_of_find?_eq_some h
  rw [mem_range'_1] at hm
  rw [Bool.and_eq_true] at hp
  exact ⟨hp.1, .inr (.inr (.inr ⟨hm.1, by omega, hp.2⟩))⟩

/-- If `select` finds nothing then nothing may be taken. -/
theorem select_none (h : n.select limit = none) :
    n.pending IRQ_VEC_SVC = false ∧ n.pending IRQ_VEC_SYSTICK = false ∧ n.pending IRQ_VEC_PENDSV = false ∧
      ∀ v, 16 ≤ v → v < limit → ¬ (n.pending v = true ∧ n.enabled v = true) := by
  unfold Nvic.select at h
  split at h
  · cases h
  split at h
  · cases h
  split at h
  · cases h
  next h11 h15 h14 =>
  refine ⟨by simpa using h11, by simpa using h15, by simpa using h14, fun v hv hlt hp => ?_⟩
  have hnot := find?_eq_none.1 h v (mem_range'_1.2 ⟨hv, by omega⟩)
  exact hnot (by rw [hp.1, hp.2]; rfl)

/-- Without pending vectors from 57 on, the two scans find the same. -/
theorem select_limit (h : ∀ v, 57 ≤ v → n.pending v = false) : n.select 57 = n.select 64 := by
  have hsplit : range' 16 (64 - 16) = range' 16 (57 - 16) ++ range' 57 7 := by decide
  have htail : (range' 57 7).find? (fun i => n.pending i && n.enabled i) = none := by
    rw [find?_eq_none]
    intro v hv
    rw [h v (mem_range'_1.1 hv).1]
    simp
  unfold Nvic.select
  rw [hsplit, find?_append, htail, Option.or_none]

/-! ## The flag -/

/-- The invariant: no vector from 57 on is pending, and while the flag is clear no interrupt could be taken. -/
structure NvicInv (n : Nvic) : Prop where
  low : ∀ v, 57 ≤ v → n.pending v = false
  quiet : n.needsUpdate = false → ∀ v, ¬ n.Ready v

/-- The same chip with another flag. -/
def Soc.withFlag (s : Soc σ) (b : Bool) : Soc σ := { s with nvic := s.nvic.withFlag b }

theorem update_withFlag (limit : Nat) (s : Soc σ) (b : Bool) :
    armv7mNvicUpdate m limit (s.withFlag b) = armv7mNvicUpdate m limit s := by
  have h : (s.withFlag b).nvic.merge.withFlag false = s.nvic.merge.withFlag false := rfl
  unfold armv7mNvicUpdate
  rw [h]
  rfl

/-- While nothing is ready, `ICSR` brings nothing over. -/
theorem merge_of_quiet (h : ∀ v, ¬ n.Ready v) : n.merge = n := by
  by_cases h28 : n.scbIcsr.getLsbD 28 = true
  · have hp : n.merge.pending IRQ_VEC_PENDSV = true := by simp only [Nvic.merge, if_pos h28, update_self]
    exact absurd ⟨hp, .inr (.inr (.inl rfl))⟩ (h IRQ_VEC_PENDSV)
  simp only [Nvic.merge, if_neg h28]

theorem select_of_quiet (h : ∀ v, ¬ n.Ready v) : n.merge.select 64 = none := by
  by_contra hne
  obtain ⟨v, hv⟩ := Option.ne_none_iff_exists'.1 hne
  exact h v (select_some (Nat.le_refl 64) hv)

variable {s : Soc σ}

/-- While nothing is ready, a scan changes nothing but the flag. -/
theorem update_of_quiet (h : ∀ v, ¬ s.nvic.Ready v) : ∃ b, armv7mNvicUpdate m 64 s = s.withFlag b := by
  have hmerge := merge_of_quiet h
  have hselect := select_of_quiet h
  rw [hmerge] at hselect
  have hselect' : (s.nvic.withFlag false).select 64 = none := hselect
  unfold armv7mNvicUpdate
  rw [hmerge]
  simp only [hselect']
  split
  · exact ⟨_, rfl⟩
  · exact ⟨false, rfl⟩

theorem merge_low (h : ∀ v, 57 ≤ v → n.pending v = false) (v : Nat) (hv : 57 ≤ v) :
    n.merge.pending v = false := by
  rw [merge_pending_of_ne n (by unfold IRQ_VEC_PENDSV; omega), h v hv]

theorem update_limit (h : ∀ v, 57 ≤ v → s.nvic.pending v = false) :
    armv7mNvicUpdate m 57 s = armv7mNvicUpdate m 64 s := by
  have hsel : (s.nvic.merge.withFlag false).select 57 = (s.nvic.merge.withFlag false).select 64 :=
    select_limit (merge_low h)
  unfold armv7mNvicUpdate
  simp only [hsel]

/-! ## Steps -/

/-- The condition on a step: a device raises a vector that the scan reaches; no pending interrupt is enabled
while the flag is clear; and when an interrupt is taken no other one is ready. -/
def SocOk (s : Soc σ) : SocEvent σ → Prop
  | .pend vector => vector < 57
  | .iserWrite offset val =>
    s.nvic.needsUpdate = true ∨
      ∀ v, 16 ≤ v → s.nvic.pending v = true →
        ¬ ((v - 16) / 32 = offset / 4 ∧ val.getLsbD ((v - 16) % 32) = true)
  | .tick => s.cpu.masked = true ∨ ∀ v w, s.nvic.Ready v → s.nvic.Ready w → v = w
  | _ => True

theorem NvicInv.setPending (h : NvicInv n) (hv : v < 57) : NvicInv (armv7mNvicSetPending n v) := by
  refine ⟨fun w hw => ?_, nofun⟩
  exact (update_of_ne (by omega) _ _).trans (h.low w hw)

theorem NvicInv.scbWrite (h : NvicInv n) (offset : Nat) (val : BitVec 32) :
    NvicInv (armv7mNvicScbWrite n offset val) := by
  unfold armv7mNvicScbWrite
  split
  · exact ⟨h.low, nofun⟩
  all_goals exact ⟨h.low, h.quiet⟩

theorem enabled_iserWrite (h : (armv7mNvicIserWrite n offset val).enabled v = true) :
    n.enabled v = true ∨ ((v - 16) / 32 = offset / 4 ∧ val.getLsbD ((v - 16) % 32) = true) := by
  unfold armv7mNvicIserWrite at h
  split at h
  · unfold Nvic.enabled at h ⊢
    simp only at h
    by_cases hi : (v - 16) / 32 = offset / 4
    · rw [hi, update_self, BitVec.getLsbD_or, Bool.or_eq_true] at h
      rw [hi]
      exact h.imp id fun hbit => ⟨rfl, hbit⟩
    rw [update_of_ne hi] at h
    exact .inl h
  exact .inl h

theorem iserWrite_merge_pending (n : Nvic) (offset : Nat) (val : BitVec 32) :
    (armv7mNvicIserWrite n offset val).merge.pending = n.merge.pending ∧
      (armv7mNvicIserWrite n offset val).needsUpdate = n.needsUpdate ∧
      (armv7mNvicIserWrite n offset val).pending = n.pending := by
  unfold armv7mNvicIserWrite
  split
  · exact ⟨rfl, rfl, rfl⟩
  · exact ⟨rfl, rfl, rfl⟩

theorem NvicInv.iserWrite (h : NvicInv n)
    (hok : n.needsUpdate = true ∨ ∀ v, 16 ≤ v → n.pending v = true →
      ¬ ((v - 16) / 32 = offset / 4 ∧ val.getLsbD ((v - 16) % 32) = true)) :
    NvicInv (armv7mNvicIserWrite n offset val) := by
  obtain ⟨hmerge, hflag, hpend⟩ := iserWrite_merge_pending n offset val
  refine ⟨fun v hv => by rw [hpend]; exact h.low v hv, fun hclear v hready => ?_⟩
  rw [hflag] at hclear
  obtain ⟨hp, hwhat⟩ := hready
  rw [hmerge] at hp
  refine h.quiet hclear v ⟨hp, ?_⟩
  rcases hwhat with h11 | h15 | h14 | ⟨hge, hlt, hen⟩
  · exact .inl h11
  · exact .inr (.inl h15)
  · exact .inr (.inr (.inl h14))
  rcases enabled_iserWrite hen with hold | hnew
  · exact .inr (.inr (.inr ⟨hge, hlt, hold⟩))
  rw [hclear] at hok
  rw [merge_pending_of_ne n (by unfold IRQ_VEC_PENDSV; omega)] at hp
  exact absurd hnew (hok.resolve_left (by decide) v hge hp)

/-- Bits above 63 do not exist: without a pending one nothing is ready. -/
theorem not_ready_of_anyPending (h : n.merge.anyPending = false) (v : Nat) : ¬ n.Ready v := by
  rintro ⟨hp, hwhat⟩
  have hv : v < 64 := by
    unfold IRQ_VEC_SVC IRQ_VEC_SYSTICK IRQ_VEC_PENDSV at hwhat
    omega
  have hall := any_eq_false.1 h v (mem_range.2 hv)
  exact hall hp

theorem ready_merge {b : Bool} (h : (n.merge.withFlag b).Ready v) : n.Ready v := by
  obtain ⟨hp, hwhat⟩ := h
  refine ⟨?_, hwhat⟩
  by_cases h28 : n.scbIcsr.getLsbD 28 = true
  · simpa only [Nvic.merge, Nvic.withFlag, if_pos h28, update_idem] using hp
  · simpa only [Nvic.merge, Nvic.withFlag, if_neg h28] using hp

/-- An interrupt that is ready after another one was taken was ready before. -/
theorem ready_of_accept {w : Nat} (h : ((n.merge.withFlag false).accept v).Ready w) :
    n.Ready w ∧ w ≠ v := by
  obtain ⟨hp, hwhat⟩ := h
  have hstill : update n.merge.pending v false w = true → n.merge.pending w = true ∧ w ≠ v := by
    intro hup
    by_cases hwv : w = v
    · rw [hwv, update_self] at hup
      cases hup
    rw [update_of_ne hwv] at hup
    exact ⟨hup, hwv⟩
  have hboth : n.merge.pending w = true ∧ w ≠ v := by
    by_cases h28 : ((n.merge.withFlag false).accept v).scbIcsr.getLsbD 28 = true
    · -- the bit in ICSR is still set, so another vector than PendSV was taken
      have hv : v ≠ IRQ_VEC_PENDSV := by
        rintro rfl
        simp [Nvic.accept] at h28
      have h28' : n.scbIcsr.getLsbD 28 = true := by
        simp only [Nvic.accept, if_neg hv] at h28
        exact h28
      by_cases hw : w = IRQ_VEC_PENDSV
      · rw [hw]
        exact ⟨by simp only [Nvic.merge, if_pos h28', update_self], hv.symm⟩
      rw [merge_pending_of_ne _ hw] at hp
      exact hstill hp
    rw [Nvic.merge, if_neg h28] at hp
    exact hstill hp
  exact ⟨⟨hboth.1, hwhat⟩, hboth.2⟩

/-- If the scan of all external vectors finds nothing then nothing is ready. -/
theorem not_ready_of_select (h : n.merge.select 64 = none) (v : Nat) : ¬ n.Ready v := by
  obtain ⟨h11, h15, h14, hext⟩ := select_none h
  rintro ⟨hp, rfl | rfl | rfl | ⟨hge, hlt, hen⟩⟩
  · rw [h11] at hp
    cases hp
  · rw [h15] at hp
    cases hp
  · rw [h14] at hp
    cases hp
  exact hext v hge hlt ⟨hp, hen⟩

/-- An update keeps the invariant if it takes the only interrupt that is ready. -/
theorem NvicInv.update (h : NvicInv s.nvic)
    (hok : s.cpu.masked = true ∨ ∀ v w, s.nvic.Ready v → s.nvic.Ready w → v = w) :
    NvicInv (armv7mNvicUpdate m 57 s).nvic := by
  have hlow := merge_low h.low
  unfold armv7mNvicUpdate
  simp only
  split
  next hheld =>
    exact ⟨hlow, fun hclear v hv => not_ready_of_anyPending hclear v (ready_merge hv)⟩
  next hheld =>
  rw [Bool.not_eq_true, Bool.or_eq_false_iff] at hheld
  have hone := hok.resolve_left (by rw [hheld.2]; decide)
  split
  next vec hvec =>
    have hready : s.nvic.Ready vec := select_some (by decide) hvec
    refine ⟨fun v hv => ?_, fun _ w hw => ?_⟩
    · show Function.update s.nvic.merge.pending vec false v = false
      by_cases hvv : v = vec
      · rw [hvv, update_self]
      rw [update_of_ne hvv]
      exact hlow v hv
    obtain ⟨hw', hne⟩ := ready_of_accept hw
    exact hne (hone w vec hw' hready)
  next hnone =>
  have hnone' : s.nvic.merge.select 64 = none := (select_limit hlow).symm.trans hnone
  exact ⟨hlow, fun _ v hv => not_ready_of_select hnone' v (ready_merge hv)⟩

theorem socStep_inv (h : NvicInv s.nvic) {e : SocEvent σ} (hok : SocOk s e) :
    NvicInv (socStep (lazyTick m) s e).nvic := by
  cases e with
  | pend vector => exact h.setPending hok
  | scbWrite offset val => exact h.scbWrite offset val
  | iserWrite offset val => exact h.iserWrite hok
  | cpu f => exact h
  | tick => ?_
  show NvicInv (lazyTick m s).nvic
  unfold lazyTick
  split
  · exact h.update m hok
  · exact h

theorem socStep_agree (h : NvicInv s.nvic) (e : SocEvent σ) (b : Bool) :
    ∃ b', socStep (eagerTick m) (s.withFlag b) e = (socStep (lazyTick m) s e).withFlag b' := by
  cases e with
  | pend vector => exact ⟨true, rfl⟩
  | scbWrite offset val =>
    simp only [socStep, Soc.withFlag, armv7mNvicScbWrite]
    split
    · exact ⟨true, rfl⟩
    all_goals exact ⟨b, rfl⟩
  | iserWrite offset val =>
    simp only [socStep, Soc.withFlag, armv7mNvicIserWrite]
    split
    · exact ⟨b, rfl⟩
    exact ⟨b, rfl⟩
  | cpu f => exact ⟨b, rfl⟩
  | tick => ?_
  show ∃ b', armv7mNvicUpdate m 64 (s.withFlag b) = (lazyTick m s).withFlag b'
  rw [update_withFlag, lazyTick]
  by_cases hflag : s.nvic.needsUpdate = true
  · rw [if_pos hflag, update_limit m h.low]
    exact ⟨_, rfl⟩
  rw [if_neg hflag]
  exact update_of_quiet m (h.quiet (by simpa using hflag))

theorem runFrom_agree (es : List (SocEvent σ)) (h : NvicInv s.nvic) (b : Bool)
    (hok : AllOk (socStep (lazyTick m)) SocOk s es) :
    NvicInv (runFrom (socStep (lazyTick m)) s es).nvic ∧
      ∃ b', runFrom (socStep (eagerTick m)) (s.withFlag b) es =
        (runFrom (socStep (lazyTick m)) s es).withFlag b' := by
  induction es generalizing s b with
  | nil => exact ⟨h, b, rfl⟩
  | cons e es ih =>
    obtain ⟨b', hb'⟩ := socStep_agree m h e b
    rw [runFrom, runFrom, hb']
    exact ih (socStep_inv m h hok.1) b' hok.2

theorem armv7mNvicInit_inv : NvicInv armv7mNvicInit := by
  refine ⟨fun _ _ => rfl, fun _ v hv => ?_⟩
  have hp : armv7mNvicInit.merge.pending v = false := rfl
  rw [hv.1] at hp
  cases hp

/-- **Lazy delivery**: in every run whose steps all meet `SocOk`, the chip that consults the controller only when
the flag is set takes the exceptions that the chip that always scans takes, in the same order, with the same
CPU and memory; and while the flag is clear no interrupt is ready. -/
theorem lazy_eq_eager (cpu : Cpu) (bus : Bus σ) (es : List (SocEvent σ))
    (hok : AllOk (socStep (lazyTick m)) SocOk (socInit cpu bus) es) :
    let s := runFrom (socStep (lazyTick m)) (socInit cpu bus) es
    let t := runFrom (socStep (eagerTick m)) (socInit cpu bus) es
    s.taken = t.taken ∧ s.cpu = t.cpu ∧ s.bus = t.bus ∧
      (s.nvic.needsUpdate = false → ∀ v, ¬ s.nvic.Ready v) := by
  intro s t
  obtain ⟨hinv, b, hb⟩ := runFrom_agree m es armv7mNvicInit_inv false hok
  have ht : t = s.withFlag b := hb
  rw [ht]
  exact ⟨rfl, rfl, rfl, hinv.quiet⟩

/-! ## Counting -/

/-- The event raises the vector: PendSV also by a bit of `ICSR`. -/
def SocEvent.raises (v : Nat) : SocEvent σ → Bool
  | .pend vector => vector == v
  | .scbWrite offset val => offset == 4 && val.getLsbD 28 && v == IRQ_VEC_PENDSV
  | _ => false

/-- How often a vector was taken, and once more while it is pending. -/
def Soc.load (s : Soc σ) (v : Nat) : Nat := s.taken.count v + if s.nvic.merge.pending v then 1 else 0

theorem merge_pending (n : Nvic) (v : Nat) :
    n.merge.pending v = (n.pending v || n.scbIcsr.getLsbD 28 && v == IRQ_VEC_PENDSV) := by
  unfold Nvic.merge
  grind

theorem update_load : (armv7mNvicUpdate m 57 s).load v ≤ s.load v := by
  have hsame (b : Bool) : (s.nvic.merge.withFlag b).merge.pending v = s.nvic.merge.pending v := by
    have := merge_pending s.nvic v
    rw [merge_pending]
    grind [Nvic.withFlag, Nvic.merge]
  unfold armv7mNvicUpdate Soc.load
  simp only
  split
  · exact Nat.add_le_add_left (hsame _ ▸ le_rfl) _
  split
  next vec hvec =>
    -- the vector that is counted is no longer pending
    have hp : s.nvic.merge.pending vec = true := (select_some (by decide) hvec).1
    have hicsr : s.nvic.merge.scbIcsr = s.nvic.scbIcsr := rfl
    have := merge_pending s.nvic v
    simp only [Soc.take, merge_pending (Nvic.accept _ _), count_cons]
    simp only [Nvic.accept, Nvic.withFlag]
    grind
  · exact Nat.add_le_add_left (hsame _ ▸ le_rfl) _

theorem socStep_load (e : SocEvent σ) :
    (socStep (lazyTick m) s e).load v ≤ s.load v + if e.raises v then 1 else 0 := by
  cases e with
  | pend w =>
    simp only [Soc.load, merge_pending, socStep, SocEvent.raises, armv7mNvicSetPending]
    grind
  | scbWrite offset val =>
    simp only [Soc.load, merge_pending, socStep, SocEvent.raises]
    unfold armv7mNvicScbWrite
    split <;> grind
  | iserWrite offset val =>
    rw [socStep, Soc.load, (iserWrite_merge_pending s.nvic offset val).1]
    exact Nat.le_add_right _ _
  | cpu f => exact Nat.le_add_right _ _
  | tick =>
    rw [socStep, lazyTick]
    split
    · exact update_load m
    exact le_rfl

/-- **No interrupt is made up or taken twice**: in every run each vector is taken at most as often as it was
raised. -/
theorem taken_le_raised (cpu : Cpu) (bus : Bus σ) (es : List (SocEvent σ)) (v : Nat) :
    (runFrom (socStep (lazyTick m)) (socInit cpu bus) es).taken.count v ≤ es.countP (·.raises v) := by
  have hrun : ∀ s : Soc σ,
      (runFrom (socStep (lazyTick m)) s es).load v ≤ s.load v + es.countP (·.raises v) := by
    induction es with
    | nil => exact fun s => le_rfl
    | cons e es ih =>
      intro s
      have hstep := socStep_load m e (s := s) (v := v)
      have hrest := ih (socStep (lazyTick m) s e)
      rw [runFrom, countP_cons]
      omega
  have hinit : (socInit cpu bus).load v = 0 := by simp [Soc.load, socInit, Nvic.merge, armv7mNvicInit]
  have := hrun (socInit cpu bus)
  rw [hinit, Soc.load] at this
  omega

end Delivery

/-- One device interrupt, enabled before it is raised. -/
def oneInterrupt : List (SocEvent Unit) := [.iserWrite 0 1, .pend 16, .tick]

example : (runFrom (socStep (lazyTick bareMachine)) (socInit (cpuWith 0 0 FLAG_T) (busWith 0))
      (oneInterrupt ++ [.tick])).taken.count 16 = 1 ∧
    oneInterrupt.countP (·.raises 16) = 1 := by decide +kernel

theorem lazy_eq_eager_one :
    (runFrom (socStep (lazyTick bareMachine)) (socInit (cpuWith 0 0 FLAG_T) (busWith 0)) oneInterrupt).taken = [16] ∧
    (runFrom (socStep (lazyTick bareMachine)) (socInit (cpuWith 0 0 FLAG_T) (busWith 0)) oneInterrupt).taken =
      (runFrom (socStep (eagerTick bareMachine)) (socInit (cpuWith 0 0 FLAG_T) (busWith 0)) oneInterrupt).taken := by
  refine ⟨by decide +kernel, (lazy_eq_eager bareMachine (cpuWith 0 0 FLAG_T) (busWith 0) oneInterrupt ?_).1⟩
  refine ⟨.inr fun v _ hv => absurd hv Bool.false_ne_true, show 16 < 57 by decide, .inr fun v w hv hw => ?_, trivial⟩
  have honly : ∀ x, update (fun _ => false) 16 true x = true → x = 16 := by
    intro x hx
    by_contra hne
    rw [update_of_ne hne] at hx
    cases hx
  rw [honly v hv.1, honly w hw.1]

/-- The return from a handler. -/
def backInThread (s : Cpu × Bus Unit) : Cpu × Bus Unit := ({ s.1 with inHandler := false }, s.2)

/-- Three runs in which an enabled, pending and unmasked interrupt is left untaken: two interrupts at once, one
that is enabled after it was raised, and the vector of stream 7 of the DMA. -/
theorem lazy_leaves_untaken :
    let lazy := fun es => (runFrom (socStep (lazyTick bareMachine)) (socInit (cpuWith 0 0 FLAG_T) (busWith 0)) es).taken
    let eager := fun es => (runFrom (socStep (eagerTick bareMachine)) (socInit (cpuWith 0 0 FLAG_T) (busWith 0)) es).taken
    let both : List (SocEvent Unit) := [.iserWrite 0 3, .pend 16, .pend 17, .tick, .cpu backInThread, .tick]
    let late : List (SocEvent Unit) := [.pend 16, .tick, .iserWrite 0 1, .tick]
    let stream7 : List (SocEvent Unit) := [.iserWrite 4 0x8000, .pend 63, .tick]
    (lazy both = [16] ∧ eager both = [17, 16]) ∧ (lazy late = [] ∧ eager late = [16]) ∧
      (lazy stream7 = [] ∧ eager stream7 = [63]) := by decide +kernel

end Embedded.Sim
