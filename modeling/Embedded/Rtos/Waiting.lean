import Embedded.Rtos.Sync
import Embedded.Lib.Run
import Mathlib.Data.Finset.Card

/-! # Mutual exclusion and wakeups on one core

Any number of tasks that lock and unlock mutexes and take and give semaphores, with PendSV between any
two sections. A mutex is seen as an object with one unit or none, a semaphore as one with as many
units as its count. The queue of an object never holds more units than there are tasks that have been
woken for it and have not tried again, as long as somebody waits: that is what rules out a lost
wakeup. The mask of waiters has 32 bits, so all this is for at most 32 tasks. -/

namespace Embedded.Rtos

open Finset
open Function (update update_self update_of_ne)

variable {i n : Nat} {o' : Obj} {x : Semaphore}

/-! ## Steps -/

inductive Obj
  | mutex (m : Nat)
  | sem (i : Nat)
deriving DecidableEq

/-- Where a task is: outside of the blocking calls, or in the loop of one. -/
inductive Phase
  | out
  | wait (o : Obj)
deriving DecidableEq

/-- The core, with what the tasks are doing. `woken` says that a task has been taken out of a queue by
`sched_wake` and has not tried again; `holds` that it is between lock and unlock. The code keeps
neither. -/
structure Uni where
  sched : Sched
  now : Nat
  pend : Bool
  mutexes : Nat → Mutex
  sems : Nat → Semaphore
  phase : Nat → Phase
  woken : Nat → Bool
  holds : Nat → Nat → Bool

namespace Uni

/-- The task that runs. -/
def cur (k : Uni) : Nat := k.sched.current 0

/-- The waiters of an object. -/
def waiters (k : Uni) : Obj → BitVec 32
  | .mutex m => (k.mutexes m).waiters
  | .sem i => (k.sems i).waiters

/-- How often the object can be taken. -/
def avail (k : Uni) : Obj → Nat
  | .mutex m => if (k.mutexes m).owner < 0 then 1 else 0
  | .sem i => (k.sems i).count.toNat

/-- The task is in the queue of the object. -/
def Queued (k : Uni) (o : Obj) (t : Nat) : Prop := (k.waiters o).getLsbD t = true

/-- The outcome of a try of the current task: it is through, or it waits and yields. -/
def tried (k : Uni) (o : Obj) (ok : Bool) : Uni :=
  { k with
    pend := !ok
    phase := update k.phase k.cur (if ok then .out else .wait o)
    woken := update k.woken k.cur false }

/-- The task that a wakeup takes out of a queue is noted. -/
def noteWoken (k : Uni) (w : BitVec 32) : Nat → Bool :=
  match if w = 0 then none else firstWaiter k.sched w with
  | some i => update k.woken i true
  | none => k.woken

end Uni

inductive UniAct
  | tick
  | yield
  | preempt (oldSp : Nat)
  | lock (m : Nat)
  | unlock (m : Nat)
  | take (i : Nat)
  | tryTake (i : Nat)
  | give (i : Nat)

namespace Uni

def step (k : Uni) : UniAct → Uni
  | .tick => { k with now := add32 k.now 1, pend := true }
  | .yield => { k with pend := true }
  | .preempt oldSp => { k with sched := (schedPreempt k.sched 0 oldSp k.now).2, pend := false }
  | .lock m =>
    let r := mutexTry k.sched 0 (k.mutexes m)
    let k' := k.tried (.mutex m) r.1
    { k' with
      sched := r.2.1
      mutexes := update k.mutexes m r.2.2
      holds := if r.1 then update k.holds k.cur (update (k.holds k.cur) m true)
        else k.holds }
  | .unlock m =>
    let r := mutexUnlock k.sched (k.mutexes m)
    { k with
      sched := r.1
      mutexes := update k.mutexes m r.2
      woken := k.noteWoken (k.mutexes m).waiters
      holds := update k.holds k.cur (update (k.holds k.cur) m false) }
  | .take i =>
    let r := semTry k.sched 0 (k.sems i)
    { k.tried (.sem i) r.1 with
      sched := r.2.1
      sems := update k.sems i r.2.2 }
  | .tryTake i => { k with sems := update k.sems i (semTryTake (k.sems i)).2 }
  | .give i =>
    let r := semGive k.sched (k.sems i)
    { k with
      sched := r.1
      sems := update k.sems i r.2
      woken := k.noteWoken (k.sems i).waiters }

/-- The current task acts when PendSV is not pending. In the loop of a blocking call it can only try
again; a holder unlocks what it holds, and counts stay within their type. -/
def Enabled (k : Uni) : UniAct → Prop
  | .tick => True
  | .preempt _ => True
  | .yield => k.pend = false
  | .lock m => k.pend = false ∧ (k.phase k.cur = .out ∨ k.phase k.cur = .wait (.mutex m))
  | .unlock m => k.pend = false ∧ k.phase k.cur = .out ∧ k.holds k.cur m = true
  | .take i => k.pend = false ∧ (k.phase k.cur = .out ∨ k.phase k.cur = .wait (.sem i))
  | .tryTake _ => k.pend = false ∧ k.phase k.cur = .out
  | .give i => k.pend = false ∧ k.phase k.cur = .out ∧ (k.sems i).count < 32767

instance (k : Uni) : (a : UniAct) → Decidable (k.Enabled a)
  | .tick => isTrue trivial
  | .preempt _ => isTrue trivial
  | .yield => inferInstanceAs (Decidable (_ = _))
  | .lock _ => inferInstanceAs (Decidable (_ ∧ _))
  | .unlock _ => inferInstanceAs (Decidable (_ ∧ _))
  | .take _ => inferInstanceAs (Decidable (_ ∧ _))
  | .tryTake _ => inferInstanceAs (Decidable (_ ∧ _))
  | .give _ => inferInstanceAs (Decidable (_ ∧ _))

/-- After `sched_start`: one task runs, the others are ready; mutexes are free, semaphores have any
count, and nobody waits. -/
structure Init (k : Uni) : Prop where
  cur_lt : k.cur < k.sched.numTasks
  running : (k.sched.tasks k.cur).state = .running
  ready : ∀ t, t < k.sched.numTasks → t ≠ k.cur → (k.sched.tasks t).state = .ready
  onCore : ∀ t, t < k.sched.numTasks → (k.sched.tasks t).elsewhere 0 = false
  mutexes : ∀ m, (k.mutexes m).owner = -1 ∧ (k.mutexes m).waiters = 0
  sems : ∀ i, 0 ≤ (k.sems i).count ∧ (k.sems i).waiters = 0
  phase : ∀ t, k.phase t = .out
  woken : ∀ t, k.woken t = false
  holds : ∀ t m, k.holds t m = false

/-! ## The invariant -/

/-- The tasks that have been woken for an object and have not tried again. -/
def wakers (k : Uni) (o : Obj) : Finset Nat :=
  (Finset.range k.sched.numTasks).filter fun t => k.phase t = .wait o ∧ k.woken t = true

variable {t : Nat} {w : BitVec 32} {k : Uni}

theorem mem_wakers {o : Obj} : t ∈ k.wakers o ↔
    t < k.sched.numTasks ∧ k.phase t = .wait o ∧ k.woken t = true := by
  rw [wakers, mem_filter, mem_range]

/-- The queues, the states of the tasks and the units fit together. A task can be in a queue and run
only when nothing else can: `pick_next` then keeps the current task although it is blocked. -/
structure Inv (k : Uni) : Prop where
  few : k.sched.numTasks ≤ 32
  cur_lt : k.cur < k.sched.numTasks
  states : ∀ t, t < k.sched.numTasks → (k.sched.tasks t).elsewhere 0 = false ∧
    ((k.sched.tasks t).state = .ready ∨ (k.sched.tasks t).state = .blocked ∨
      t = k.cur ∧ (k.sched.tasks t).state = .running)
  queued : ∀ o t, k.Queued o t → t < k.sched.numTasks ∧ k.phase t = .wait o ∧ k.woken t = false ∧
    (t ≠ k.cur → (k.sched.tasks t).state = .blocked)
  queued_cur : ∀ o, k.Queued o k.cur → k.avail o = 0 ∧
    ((k.sched.tasks k.cur).state = .blocked ∧ k.pend = true ∨
      ∀ t, t < k.sched.numTasks → t ≠ k.cur → (k.sched.tasks t).state = .blocked)
  blocked : ∀ t, t < k.sched.numTasks → (k.sched.tasks t).state = .blocked →
    ∃ o, k.phase t = .wait o ∧ k.Queued o t
  units : ∀ o, (∃ t, k.Queued o t) → k.avail o ≤ (k.wakers o).card
  counts : ∀ i, 0 ≤ (k.sems i).count

/-! ## The mask -/

theorem waitBit_getLsbD (hi : i < 32) : (waitBit i).getLsbD t = decide (t = i) := by
  unfold waitBit
  rw [BitVec.getLsbD_shiftLeft, BitVec.getLsbD_one]
  by_cases ht : t = i
  · subst ht
    simp [hi]
  rw [decide_eq_false ht]
  by_cases hlt : t < i
  · simp [hlt]
  have : ¬ t - i = 0 := by omega
  simp [this]

theorem or_waitBit (hi : i < 32) : (w ||| waitBit i).getLsbD t = true ↔ w.getLsbD t = true ∨ t = i := by
  rw [BitVec.getLsbD_or, waitBit_getLsbD hi, Bool.or_eq_true, decide_eq_true_eq]

theorem clear_waitBit (hi : i < 32) :
    (w &&& ~~~ waitBit i).getLsbD t = true ↔ w.getLsbD t = true ∧ t ≠ i := by
  rw [BitVec.getLsbD_and, BitVec.getLsbD_not, waitBit_getLsbD hi, Bool.and_eq_true,
    Bool.and_eq_true, decide_eq_true_eq, Bool.not_eq_true', decide_eq_false_iff_not]
  refine ⟨fun h => ⟨h.1, h.2.2⟩, fun h => ⟨h.1, ?_, h.2⟩⟩
  by_contra hge
  rw [BitVec.getLsbD_of_ge w t (by omega)] at h
  exact Bool.false_ne_true h.1

theorem exists_getLsbD_of_ne_zero (h : w ≠ 0) : ∃ t, w.getLsbD t = true := by
  by_contra hno
  refine h (BitVec.eq_of_getLsbD_eq fun t _ => ?_)
  cases hb : w.getLsbD t with
  | true => exact absurd ⟨t, hb⟩ hno
  | false => simp

theorem and_waitBit (hi : i < 32) : w &&& waitBit i ≠ 0 ↔ w.getLsbD i = true := by
  constructor
  · intro h
    obtain ⟨t, ht⟩ := exists_getLsbD_of_ne_zero h
    rw [BitVec.getLsbD_and, waitBit_getLsbD hi, Bool.and_eq_true, decide_eq_true_eq] at ht
    exact ht.2 ▸ ht.1
  intro h hzero
  have hbit : (w &&& waitBit i).getLsbD i = (0 : BitVec 32).getLsbD i := by rw [hzero]
  rw [BitVec.getLsbD_and, waitBit_getLsbD hi, h] at hbit
  simp at hbit

theorem firstWaiter_spec {s : Sched} (hn : s.numTasks ≤ 32) (ht : t < s.numTasks) (hw : w.getLsbD t = true) :
    ∃ i, firstWaiter s w = some i ∧ i < s.numTasks ∧ w.getLsbD i = true := by
  cases hf : firstWaiter s w with
  | none =>
    have := List.find?_eq_none.1 hf t (List.mem_range.2 ht)
    rw [decide_eq_true_eq, and_waitBit (by omega)] at this
    exact absurd hw this
  | some i => ?_
  have hi := List.mem_range.1 (List.mem_of_find?_eq_some hf)
  have hbit := List.find?_some hf
  simp only [decide_eq_true_eq] at hbit
  exact ⟨i, rfl, hi, (and_waitBit (by omega)).1 hbit⟩

/-! ## Tries -/

section Tries

variable {k l : Uni} {o : Obj}

/-- Everything about an object except `o` is as before. -/
def SameBut (k l : Uni) (o : Obj) : Prop := ∀ o', o' ≠ o → l.waiters o' = k.waiters o' ∧ l.avail o' = k.avail o'

theorem SameBut.waiters (h : k.SameBut l o) (ho : l.waiters o = k.waiters o) (o' : Obj) :
    l.waiters o' = k.waiters o' := by
  by_cases heq : o' = o
  · rw [heq, ho]
  exact (h o' heq).1

theorem SameBut.avail (h : k.SameBut l o) (ho : l.avail o = k.avail o) (o' : Obj) : l.avail o' = k.avail o' := by
  by_cases heq : o' = o
  · rw [heq, ho]
  exact (h o' heq).2

section Acting

variable (hphase : k.phase k.cur = .out ∨ k.phase k.cur = .wait o)
include hphase

theorem wait_eq (h : k.phase k.cur = .wait o') : o' = o := by
  rcases hphase with hout | hsame
  · exact absurd (hout.symm.trans h) (by simp)
  exact (Phase.wait.inj (hsame.symm.trans h)).symm

/-- A task that acts is in no queue but that of what it waits for. -/
theorem Inv.queued_eq (inv : k.Inv) (h : k.Queued o' k.cur) : o' = o :=
  wait_eq hphase (inv.queued o' k.cur h).2.1

/-- Nor has it been woken for anything else. -/
theorem wakers_subset {p : Phase} (hnum : l.sched.numTasks = k.sched.numTasks)
    (hp : l.phase = update k.phase k.cur p) (hw : l.woken = update k.woken k.cur false) (ho : o' ≠ o) :
    k.wakers o' ⊆ l.wakers o' := by
  intro u hu
  rw [mem_wakers] at hu ⊢
  have huc : u ≠ k.cur := fun h => ho (wait_eq hphase (h ▸ hu.2.1))
  rw [hnum, hp, hw, update_of_ne huc, update_of_ne huc]
  exact hu

/-- The current task takes a unit. -/
theorem Inv.try_ok (inv : k.Inv) (hs : l.sched = k.sched)
    (hp : l.phase = update k.phase k.cur .out) (hw : l.woken = update k.woken k.cur false)
    (hq : l.waiters o = k.waiters o) (hav : l.avail o + 1 = k.avail o) (hrest : k.SameBut l o)
    (hcount : ∀ i, 0 ≤ (l.sems i).count) : l.Inv := by
  have hcur : l.cur = k.cur := by rw [cur, hs, cur]
  have hqu : ∀ o' t, l.Queued o' t ↔ k.Queued o' t := fun o' t => by rw [Queued, Queued, hrest.waiters hq]
  -- with a unit there, the current task is in no queue
  have hnone : ∀ o', ¬ k.Queued o' k.cur := by
    intro o' h
    obtain rfl := inv.queued_eq hphase h
    have := (inv.queued_cur o' h).1
    omega
  have hne : ∀ {o' t}, k.Queued o' t → t ≠ k.cur := fun h heq => hnone _ (heq ▸ h)
  refine ⟨by rw [hs]; exact inv.few, by rw [hs, hcur]; exact inv.cur_lt, fun t ht => ?_,
    fun o' t h => ?_, fun o' h => ?_, fun t ht h => ?_, fun o' h => ?_, hcount⟩
  · rw [hs, hcur]
    exact inv.states t (hs ▸ ht)
  · rw [hqu] at h
    rw [hs, hp, hw, update_of_ne (hne h), update_of_ne (hne h), hcur]
    exact inv.queued o' t h
  · rw [hqu, hcur] at h
    exact absurd h (hnone o')
  · rw [hs] at ht h
    obtain ⟨o', h1, h2⟩ := inv.blocked t ht h
    refine ⟨o', ?_, (hqu o' t).2 h2⟩
    rw [hp, update_of_ne (hne h2)]
    exact h1
  obtain ⟨t, ht⟩ := h
  have hunits := inv.units o' ⟨t, (hqu o' t).1 ht⟩
  by_cases ho : o' = o
  · subst ho
    have hsub : k.wakers o' ⊆ insert k.cur (l.wakers o') := by
      intro u hu
      rw [mem_wakers] at hu
      by_cases huc : u = k.cur
      · rw [huc]
        exact mem_insert_self _ _
      refine mem_insert_of_mem (mem_wakers.2 ?_)
      rw [hs, hp, hw, update_of_ne huc, update_of_ne huc]
      exact hu
    have := (card_le_card hsub).trans (card_insert_le _ _)
    omega
  rw [(hrest o' ho).2]
  exact hunits.trans (card_le_card (wakers_subset hphase (by rw [hs]) hp hw ho))

/-- The current task finds no unit and goes into the queue. -/
theorem Inv.try_fail (inv : k.Inv) (hs : l.sched = k.sched.modify k.cur (Task.leave .blocked)) (hpend : l.pend = true)
    (hp : l.phase = update k.phase k.cur (.wait o))
    (hw : l.woken = update k.woken k.cur false)
    (hq : l.waiters o = k.waiters o ||| waitBit k.cur)
    (hzero : k.avail o = 0) (hav : l.avail o = k.avail o) (hrest : k.SameBut l o)
    (hcount : ∀ i, 0 ≤ (l.sems i).count) : l.Inv := by
  have hlt : k.cur < 32 := lt_of_lt_of_le inv.cur_lt inv.few
  have hcur : l.cur = k.cur := by
    rw [cur, hs]
    rfl
  have hnum : l.sched.numTasks = k.sched.numTasks := by rw [hs]; rfl
  have hself : l.sched.tasks k.cur = Task.leave .blocked (k.sched.tasks k.cur) := by
    rw [hs, Sched.modify_self]
  have hother : ∀ t, t ≠ k.cur → l.sched.tasks t = k.sched.tasks t := by
    intro t ht
    rw [hs, Sched.modify_of_ne ht]
  have hqu : ∀ o' t, l.Queued o' t ↔ k.Queued o' t ∨ (o' = o ∧ t = k.cur) := by
    intro o' t
    by_cases ho : o' = o
    · subst ho
      rw [Queued, hq, or_waitBit hlt]
      simp [Queued]
    rw [Queued, (hrest o' ho).1]
    simp [Queued, ho]
  have hqcur : ∀ {o'}, l.Queued o' k.cur → o' = o := fun h =>
    ((hqu _ _).1 h).elim (inv.queued_eq hphase) And.left
  refine ⟨by rw [hnum]; exact inv.few, by rw [hnum, hcur]; exact inv.cur_lt, fun t ht => ?_,
    fun o' t h => ?_, fun o' h => ?_, fun t ht h => ?_, fun o' h => ?_, hcount⟩
  · rw [hnum] at ht
    by_cases htc : t = k.cur
    · rw [htc, hself]
      exact ⟨rfl, .inr (.inl rfl)⟩
    rw [hother t htc, hcur]
    exact inv.states t ht
  · by_cases htc : t = k.cur
    · obtain rfl := hqcur (htc ▸ h)
      rw [hnum, htc, hp, hw, update_self, update_self, hcur]
      exact ⟨inv.cur_lt, rfl, rfl, fun hne => absurd rfl hne⟩
    rw [hnum, hp, hw, update_of_ne htc, update_of_ne htc, hother t htc, hcur]
    exact inv.queued o' t (((hqu o' t).1 h).resolve_right fun h => htc h.2)
  · rw [hcur] at h
    obtain rfl := hqcur h
    rw [hrest.avail hav, hcur, hself]
    exact ⟨hzero, .inl ⟨rfl, hpend⟩⟩
  · rw [hnum] at ht
    by_cases htc : t = k.cur
    · refine ⟨o, ?_, (hqu o t).2 (.inr ⟨rfl, htc⟩)⟩
      rw [hp, htc, update_self]
    rw [hother t htc] at h
    obtain ⟨o', h1, h2⟩ := inv.blocked t ht h
    refine ⟨o', ?_, (hqu o' t).2 (.inl h2)⟩
    rw [hp, update_of_ne htc]
    exact h1
  rw [hrest.avail hav]
  by_cases ho : o' = o
  · subst ho
    rw [hzero]
    exact Nat.zero_le _
  obtain ⟨t, ht⟩ := h
  have hunits := inv.units o' ⟨t, ((hqu o' t).1 ht).resolve_right fun h => ho h.1⟩
  exact hunits.trans (card_le_card (wakers_subset hphase hnum hp hw ho))

end Acting

/-- Units can go without harm, and come where nobody waits. -/
theorem Inv.of_fewer (inv : k.Inv) (hs : l.sched = k.sched) (hpend : k.pend = true → l.pend = true)
    (hp : l.phase = k.phase) (hw : l.woken = k.woken) (hq : ∀ o, l.waiters o = k.waiters o)
    (hav : ∀ o t, k.Queued o t → l.avail o ≤ k.avail o) (hcount : ∀ i, 0 ≤ (l.sems i).count) : l.Inv := by
  have hcur : l.cur = k.cur := by rw [cur, hs, cur]
  have hqu : ∀ o t, l.Queued o t ↔ k.Queued o t := by
    intro o t
    rw [Queued, Queued, hq]
  have hwakers : ∀ o, l.wakers o = k.wakers o := by
    intro o
    rw [wakers, wakers, hs, hp, hw]
  refine ⟨by rw [hs]; exact inv.few, by rw [hs, hcur]; exact inv.cur_lt, fun t ht => ?_,
    fun o' t h => ?_, fun o' h => ?_, fun t ht h => ?_, fun o' h => ?_, hcount⟩
  · rw [hs, hcur]
    exact inv.states t (hs ▸ ht)
  · rw [hqu] at h
    rw [hs, hp, hw, hcur]
    exact inv.queued o' t h
  · rw [hqu, hcur] at h
    obtain ⟨h1, h2⟩ := inv.queued_cur o' h
    rw [hs, hcur]
    refine ⟨Nat.le_zero.1 (h1 ▸ hav o' _ h), ?_⟩
    rcases h2 with h2 | h2
    · exact .inl ⟨h2.1, hpend h2.2⟩
    exact .inr h2
  · rw [hs] at ht h
    obtain ⟨o', h1, h2⟩ := inv.blocked t ht h
    exact ⟨o', by rw [hp]; exact h1, (hqu o' t).2 h2⟩
  obtain ⟨t, ht⟩ := h
  rw [hqu] at ht
  rw [hwakers]
  exact (hav o' t ht).trans (inv.units o' ⟨t, ht⟩)

/-! ## Releases -/

/-- The current task, which waits for nothing, gives a unit back and wakes a waiter. -/
theorem Inv.release (inv : k.Inv) (hphase : k.phase k.cur = .out)
    (hs : l.sched = (schedWake k.sched (k.waiters o)).1) (hp : l.phase = k.phase)
    (hw : l.woken = k.noteWoken (k.waiters o))
    (hq : l.waiters o = (schedWake k.sched (k.waiters o)).2)
    (hav : l.avail o ≤ k.avail o + 1) (hrest : k.SameBut l o) (hpend : k.pend = true → l.pend = true)
    (hcount : ∀ i, 0 ≤ (l.sems i).count) : l.Inv := by
  have hnone : ∀ o', ¬ k.Queued o' k.cur := fun o' h =>
    absurd (hphase.symm.trans (inv.queued o' _ h).2.1) (by simp)
  by_cases hzero : k.waiters o = 0
  · -- nobody waits: only the units change
    refine inv.of_fewer (by rw [hs, schedWake, if_pos hzero]) hpend hp (by rw [hw, noteWoken, if_pos hzero])
      (hrest.waiters (by rw [hq, schedWake, if_pos hzero])) (fun o' t ht => ?_) hcount
    have ho : o' ≠ o := by
      rintro rfl
      rw [Queued, hzero] at ht
      simp at ht
    exact le_of_eq (hrest o' ho).2
  -- a waiter is woken: one more unit, one more that has still to try
  obtain ⟨t0, ht0⟩ := exists_getLsbD_of_ne_zero hzero
  obtain ⟨i, hfirst, hi, hbit⟩ := firstWaiter_spec inv.few (inv.queued o t0 ht0).1 ht0
  have hi32 : i < 32 := lt_of_lt_of_le hi inv.few
  have hwake : schedWake k.sched (k.waiters o) =
      (k.sched.modify i Task.wake, k.waiters o &&& ~~~ waitBit i) := by
    rw [schedWake, if_neg hzero, hfirst]
  rw [hwake] at hs hq
  have hw' : l.woken = update k.woken i true := by rw [hw, noteWoken, if_neg hzero, hfirst]
  obtain ⟨-, hiphase, hiwoken, hiblocked⟩ := inv.queued o i hbit
  have hcur : l.cur = k.cur := by
    rw [cur, hs]
    rfl
  have hnum : l.sched.numTasks = k.sched.numTasks := by rw [hs]; rfl
  have hself : l.sched.tasks i = Task.wake (k.sched.tasks i) := by rw [hs, Sched.modify_self]
  have hother : ∀ t, t ≠ i → l.sched.tasks t = k.sched.tasks t := by
    intro t ht
    rw [hs, Sched.modify_of_ne ht]
  have hqu : ∀ o' t, l.Queued o' t ↔ k.Queued o' t ∧ t ≠ i := by
    intro o' t
    by_cases ho : o' = o
    · subst ho
      rw [Queued, hq, clear_waitBit hi32]
      rfl
    rw [Queued, (hrest o' ho).1]
    refine ⟨fun h => ⟨h, ?_⟩, fun h => h.1⟩
    rintro rfl
    have := (inv.queued o' t h).2.1.symm.trans hiphase
    cases this
    exact ho rfl
  refine ⟨by rw [hnum]; exact inv.few, by rw [hnum, hcur]; exact inv.cur_lt, fun t ht => ?_,
    fun o' t h => ?_, fun o' h => ?_, fun t ht h => ?_, fun o' h => ?_, hcount⟩
  · rw [hnum] at ht
    by_cases hti : t = i
    · rw [hti, hself]
      exact ⟨(inv.states i hi).1, .inl rfl⟩
    rw [hother t hti, hcur]
    exact inv.states t ht
  · obtain ⟨hk, hti⟩ := (hqu o' t).1 h
    rw [hnum, hp, hw', update_of_ne hti, hother t hti, hcur]
    exact inv.queued o' t hk
  · rw [hcur] at h
    exact absurd ((hqu o' _).1 h).1 (hnone o')
  · rw [hnum] at ht
    have hti : t ≠ i := by
      rintro rfl
      rw [hself] at h
      simp [Task.wake] at h
    rw [hother t hti] at h
    obtain ⟨o', h1, h2⟩ := inv.blocked t ht h
    exact ⟨o', by rw [hp]; exact h1, (hqu o' t).2 ⟨h2, hti⟩⟩
  obtain ⟨t, ht⟩ := h
  have hunits := inv.units o' ⟨t, ((hqu o' t).1 ht).1⟩
  have hnot : i ∉ k.wakers o' := fun hmem =>
    Bool.false_ne_true (hiwoken.symm.trans (mem_wakers.1 hmem).2.2)
  have hsub : k.wakers o' ⊆ l.wakers o' := fun u hu => by
    have hui : u ≠ i := fun h => hnot (h ▸ hu)
    rw [mem_wakers] at hu ⊢
    rw [hnum, hp, hw', update_of_ne hui]
    exact hu
  by_cases ho : o' = o
  · subst ho
    have hi' : i ∈ l.wakers o' := mem_wakers.2
      ⟨hnum ▸ hi, by rw [hp]; exact hiphase, by rw [hw', update_self]⟩
    have hcard := card_le_card (insert_subset_iff.2 ⟨hi', hsub⟩)
    rw [card_insert_of_notMem hnot] at hcard
    omega
  rw [(hrest o' ho).2]
  exact hunits.trans (card_le_card hsub)

end Tries

/-! ## PendSV -/

section Preempt

variable {k : Uni} {oldSp : Nat}

/-- The saved task is ready if it ran; otherwise nothing has changed. -/
theorem Inv.saved (inv : k.Inv) (oldSp : Nat) (ht : t < k.sched.numTasks) :
    ((savedTable k.sched 0 oldSp k.now).tasks t).elsewhere 0 = false ∧ ((k.sched.tasks t).state = .blocked ∧
          ((savedTable k.sched 0 oldSp k.now).tasks t).state = .blocked ∨
        (k.sched.tasks t).state ≠ .blocked ∧
          ((savedTable k.sched 0 oldSp k.now).tasks t).state = .ready) := by
  obtain ⟨hon, hst⟩ := inv.states t ht
  by_cases htc : t = k.cur
  · subst htc
    have hself : (savedTable k.sched 0 oldSp k.now).tasks k.cur =
        saveOld oldSp k.now (k.sched.tasks k.cur) := Sched.modify_self ..
    rw [hself, saveOld]
    rcases hst with h | h | ⟨-, h⟩
    · rw [if_neg (by simp [h])]
      exact ⟨hon, .inr ⟨by simp [h], h⟩⟩
    · rw [if_neg (by simp [h])]
      exact ⟨hon, .inl ⟨h, h⟩⟩
    rw [if_pos h]
    exact ⟨rfl, .inr ⟨by simp [h], rfl⟩⟩
  have hother : (savedTable k.sched 0 oldSp k.now).tasks t = k.sched.tasks t := Sched.modify_of_ne htc _
  rw [hother]
  refine ⟨hon, ?_⟩
  rcases hst with h | h | h
  · exact .inr ⟨by simp [h], h⟩
  · exact .inl ⟨h, h⟩
  exact absurd h.1 htc

theorem Inv.picked_tasks (inv : k.Inv) (ht : t < k.sched.numTasks) :
    (pickNext (savedTable k.sched 0 oldSp k.now) 0 k.now).2.tasks t =
      (savedTable k.sched 0 oldSp k.now).tasks t := by
  have hne : ((savedTable k.sched 0 oldSp k.now).tasks t).state ≠ .sleeping := by
    rcases (inv.saved oldSp ht).2 with h | h <;> simp [h.2]
  rcases pickNext_tasks t with h | h
  · exact h
  rw [h, wakeDue_of_ne hne]

/-- The next task is one that is not blocked, unless all are. -/
theorem Inv.next (inv : k.Inv) (oldSp : Nat) : nextTask k.sched 0 oldSp k.now < k.sched.numTasks ∧
    ((k.sched.tasks (nextTask k.sched 0 oldSp k.now)).state ≠ .blocked ∨
      nextTask k.sched 0 oldSp k.now = k.cur ∧
        ∀ t, t < k.sched.numTasks → (k.sched.tasks t).state = .blocked) := by
  have heligible : ∀ t, t < k.sched.numTasks →
      (Eligible 0 k.now ((savedTable k.sched 0 oldSp k.now).tasks t) ↔
        (k.sched.tasks t).state ≠ .blocked) := by
    intro t ht
    obtain ⟨hon, h | h⟩ := inv.saved oldSp ht
    · rw [Eligible, wakeDue_of_ne (by rw [h.2]; decide), h.1, h.2]
      simp
    rw [Eligible, wakeDue_of_ne (by rw [h.2]; decide)]
    exact ⟨fun _ => h.1, fun _ => ⟨h.2, hon⟩⟩
  by_cases hex : ∃ t < k.sched.numTasks, (k.sched.tasks t).state ≠ .blocked
  · obtain ⟨t, ht, hst⟩ := hex
    obtain ⟨h1, h2, -⟩ := @pickNext_eligible (savedTable k.sched 0 oldSp k.now) 0 k.now inv.cur_lt
      ⟨t, ht, (heligible t ht).2 hst⟩
    exact ⟨h1, .inl ((heligible _ h1).1 h2)⟩
  have hall : ∀ t, t < k.sched.numTasks → (k.sched.tasks t).state = .blocked := by
    intro t ht
    by_contra hne
    exact hex ⟨t, ht, hne⟩
  have hlt : nextTask k.sched 0 oldSp k.now < k.sched.numTasks := pickNext_lt inv.cur_lt
  refine ⟨hlt, .inr ⟨?_, hall⟩⟩
  rcases pickNext_cases with h | h
  · exact absurd (hall _ hlt) ((heligible _ hlt).1 h)
  exact h

theorem Inv.preempt (inv : k.Inv) : (k.step (.preempt oldSp)).Inv := by
  obtain ⟨hlt, hnext⟩ := inv.next oldSp
  generalize hl : k.step (.preempt oldSp) = l
  have hs : l.sched = (schedPreempt k.sched 0 oldSp k.now).2 := by rw [← hl]; rfl
  have hnum : l.sched.numTasks = k.sched.numTasks := by rw [hs, schedPreempt_numTasks]
  have hcur : l.cur = nextTask k.sched 0 oldSp k.now := by
    rw [cur, hs, schedPreempt_current, update_self]
  have hself : l.sched.tasks l.cur = switchIn 0 k.now
      ((pickNext (savedTable k.sched 0 oldSp k.now) 0 k.now).2.tasks l.cur) := by
    rw [hcur, hs, schedPreempt_next]
  have hother : ∀ t, t < k.sched.numTasks → t ≠ l.cur →
      l.sched.tasks t = (savedTable k.sched 0 oldSp k.now).tasks t := by
    intro t ht hne
    rw [hcur] at hne
    rw [hs, schedPreempt_other hne, inv.picked_tasks ht]
  -- apart from the next task, who is blocked does not change
  have hblocked : ∀ t, t < k.sched.numTasks → t ≠ l.cur →
      ((l.sched.tasks t).state = .blocked ↔ (k.sched.tasks t).state = .blocked) := by
    intro t ht hne
    rw [hother t ht hne]
    rcases (inv.saved oldSp ht).2 with h | h <;> simp [h]
  have hqu : ∀ o t, l.Queued o t ↔ k.Queued o t := by
    intro o t
    rw [← hl]
    cases o <;> rfl
  have havail : ∀ o, l.avail o = k.avail o := by
    intro o
    rw [← hl]
    cases o <;> rfl
  have hphase : l.phase = k.phase := by rw [← hl]; rfl
  have hwoken : l.woken = k.woken := by rw [← hl]; rfl
  rw [← hcur] at hlt hnext
  refine ⟨by rw [hnum]; exact inv.few, by rw [hnum]; exact hlt, fun t ht => ?_,
    fun o t h => ?_, fun o h => ?_, fun t ht h => ?_, fun o h => ?_, ?_⟩
  · by_cases htn : t = l.cur
    · rw [htn, hself]
      exact ⟨rfl, .inr (.inr ⟨rfl, rfl⟩)⟩
    rw [hnum] at ht
    rw [hother t ht htn]
    obtain ⟨hon, h | h⟩ := inv.saved oldSp ht
    · exact ⟨hon, .inr (.inl h.2)⟩
    exact ⟨hon, .inl h.2⟩
  · rw [hqu] at h
    obtain ⟨h1, h2, h3, h4⟩ := inv.queued o t h
    rw [hnum, hphase, hwoken]
    refine ⟨h1, h2, h3, fun hne => (hblocked t h1 hne).2 ?_⟩
    by_cases htc : t = k.cur
    · subst htc
      rcases (inv.queued_cur o h).2 with hb | hall
      · exact hb.1
      -- only the current task could run, so it would be the next one
      by_contra hrun
      rcases hnext with hn | hn
      · exact hn (hall _ hlt (Ne.symm hne))
      exact hne hn.1.symm
    exact h4 htc
  · rw [hqu] at h
    have hsame : l.cur = k.cur := by
      by_contra hne
      rcases hnext with hn | hn
      · exact hn ((inv.queued o _ h).2.2.2 hne)
      exact hne hn.1
    rw [hsame] at h
    obtain ⟨h1, h2⟩ := inv.queued_cur o h
    rw [havail, hnum]
    refine ⟨h1, .inr fun t ht hne => (hblocked t ht hne).2 ?_⟩
    rw [hsame] at hne
    rcases h2 with hb | hall
    · rcases hnext with hn | hn
      · exact absurd (hsame ▸ hb.1) hn
      exact hn.2 t ht
    exact hall t ht hne
  · rw [hnum] at ht
    have htn : t ≠ l.cur := by
      intro htn
      rw [htn, hself] at h
      exact TaskState.noConfusion h
    obtain ⟨o, h1, h2⟩ := inv.blocked t ht ((hblocked t ht htn).1 h)
    exact ⟨o, by rw [hphase]; exact h1, (hqu o t).2 h2⟩
  · obtain ⟨t, ht⟩ := h
    have hwakers : l.wakers o = k.wakers o := by rw [wakers, wakers, hnum, hphase, hwoken]
    rw [havail, hwakers]
    exact inv.units o ⟨t, (hqu o t).1 ht⟩
  rw [← hl]
  exact inv.counts

end Preempt

/-! ## Runs -/

theorem toInt8_of_lt (h : n < 32) : toInt8 n = n := by
  unfold toInt8
  omega

section Calls

variable {k l : Uni} {m i : Nat}

theorem sameBut_mutex {x : Mutex} (hm : l.mutexes = update k.mutexes m x) (hs : l.sems = k.sems) :
    k.SameBut l (.mutex m) := by
  intro o ho
  cases o with
  | mutex n =>
    have hn : n ≠ m := fun h => ho (h ▸ rfl)
    rw [waiters, waiters, avail, avail, hm, update_of_ne hn]
    exact ⟨rfl, rfl⟩
  | sem i =>
    rw [waiters, waiters, avail, avail, hs]
    exact ⟨rfl, rfl⟩

theorem sameBut_sem (hs : l.sems = update k.sems i x) (hm : l.mutexes = k.mutexes) :
    k.SameBut l (.sem i) := by
  intro o ho
  cases o with
  | sem j =>
    have hj : j ≠ i := fun h => ho (h ▸ rfl)
    rw [waiters, waiters, avail, avail, hs, update_of_ne hj]
    exact ⟨rfl, rfl⟩
  | mutex n =>
    rw [waiters, waiters, avail, avail, hm]
    exact ⟨rfl, rfl⟩

/-- The object that a section has changed. -/
theorem at_mutex (x : Mutex) (hm : l.mutexes = update k.mutexes m x) :
    l.waiters (.mutex m) = x.waiters ∧ l.avail (.mutex m) = if x.owner < 0 then 1 else 0 := by
  rw [waiters, avail, hm, update_self]
  exact ⟨rfl, rfl⟩

theorem at_sem (x : Semaphore) (hs : l.sems = update k.sems i x) :
    l.waiters (.sem i) = x.waiters ∧ l.avail (.sem i) = x.count.toNat := by
  rw [waiters, avail, hs, update_self]
  exact ⟨rfl, rfl⟩

variable (inv : k.Inv)
include inv

theorem Inv.counts_update (hs : l.sems = update k.sems i x) (hx : 0 ≤ x.count) (j : Nat) :
    0 ≤ (l.sems j).count := by
  rw [hs]
  by_cases hj : j = i
  · rw [hj, update_self]
    exact hx
  rw [update_of_ne hj]
  exact inv.counts j

theorem Inv.lock (h : k.Enabled (.lock m)) : (k.step (.lock m)).Inv := by
  by_cases hfree : (k.mutexes m).owner < 0
  · have hlt : k.cur < 32 := lt_of_lt_of_le inv.cur_lt inv.few
    rw [step, mutexTry, if_pos hfree]
    refine inv.try_ok h.2 rfl rfl rfl (at_mutex ⟨toInt8 k.cur, _⟩ rfl).1
      ((congrArg (· + 1) (at_mutex ⟨toInt8 k.cur, _⟩ rfl).2).trans ?_) (sameBut_mutex rfl rfl) inv.counts
    rw [avail, if_pos hfree, toInt8_of_lt hlt, if_neg (show ¬ (k.cur : Int) < 0 by omega)]
  rw [step, mutexTry, if_neg hfree]
  exact inv.try_fail h.2 rfl rfl rfl rfl (at_mutex ⟨(k.mutexes m).owner, _⟩ rfl).1 (if_neg hfree)
    (at_mutex ⟨(k.mutexes m).owner, (schedBlock k.sched 0 _).2⟩ rfl).2 (sameBut_mutex rfl rfl) inv.counts

theorem Inv.unlock (h : k.Enabled (.unlock m)) : (k.step (.unlock m)).Inv := by
  obtain ⟨hq, hav⟩ := at_mutex (k := k) (l := k.step (.unlock m)) ⟨-1, _⟩ rfl
  refine inv.release h.2.1 rfl rfl rfl hq ?_ (sameBut_mutex rfl rfl) id inv.counts
  rw [hav, if_pos (show (-1 : Int) < 0 by decide)]
  omega

theorem Inv.take (h : k.Enabled (.take i)) : (k.step (.take i)).Inv := by
  by_cases hpos : 0 < (k.sems i).count
  · rw [step, semTry, if_pos hpos]
    refine inv.try_ok h.2 rfl rfl rfl (at_sem ⟨(k.sems i).count - 1, _⟩ rfl).1
      ((congrArg (· + 1) (at_sem ⟨(k.sems i).count - 1, _⟩ rfl).2).trans ?_) (sameBut_sem rfl rfl)
      (inv.counts_update rfl (by simp only; omega))
    rw [avail]
    simp only
    omega
  rw [step, semTry, if_neg hpos]
  refine inv.try_fail h.2 rfl rfl rfl rfl (at_sem ⟨(k.sems i).count, _⟩ rfl).1 ?_
    (at_sem ⟨(k.sems i).count, (schedBlock k.sched 0 _).2⟩ rfl).2 (sameBut_sem rfl rfl)
    (inv.counts_update rfl (inv.counts i))
  rw [avail]
  omega

theorem Inv.tryTake : (k.step (.tryTake i)).Inv := by
  have htake : (semTryTake (k.sems i)).2.waiters = (k.sems i).waiters ∧
      (semTryTake (k.sems i)).2.count.toNat ≤ (k.sems i).count.toNat ∧
      0 ≤ (semTryTake (k.sems i)).2.count := by
    have := inv.counts i
    unfold semTryTake
    split
    · exact ⟨rfl, by simp only; omega, by simp only; omega⟩
    exact ⟨rfl, le_rfl, this⟩
  have hrest : k.SameBut (k.step (.tryTake i)) (.sem i) := sameBut_sem rfl rfl
  obtain ⟨hq, hav⟩ := at_sem (k := k) (l := k.step (.tryTake i)) _ rfl
  refine inv.of_fewer rfl id rfl rfl (hrest.waiters (hq.trans htake.1)) (fun o t _ => ?_)
    (inv.counts_update rfl htake.2.2)
  by_cases ho : o = .sem i
  · rw [ho, hav]
    exact htake.2.1
  exact le_of_eq (hrest o ho).2

theorem Inv.give (h : k.Enabled (.give i)) : (k.step (.give i)).Inv := by
  have h0 := inv.counts i
  have hcount : (semGive k.sched (k.sems i)).2.count = (k.sems i).count + 1 := by
    have h1 := h.2.2
    show toInt16 _ = _
    unfold toInt16
    omega
  obtain ⟨hq, hav⟩ := at_sem (k := k) (l := k.step (.give i)) _ rfl
  refine inv.release h.2.1 rfl rfl rfl hq ?_ (sameBut_sem rfl rfl) id
    (inv.counts_update rfl (by rw [hcount]; omega))
  rw [hav, avail, hcount]
  omega

end Calls

theorem Inv.pended (inv : k.Inv) (now : Nat) : ({ k with now := now, pend := true } : Uni).Inv :=
  inv.of_fewer rfl (fun _ => rfl) rfl rfl (fun o => by cases o <;> rfl)
    (fun o _ _ => le_of_eq (by cases o <;> rfl)) inv.counts

theorem Inv.step (inv : k.Inv) (a : UniAct) (h : k.Enabled a) : (k.step a).Inv := by
  cases a with
  | tick => exact inv.pended _
  | yield => exact inv.pended k.now
  | preempt oldSp => exact inv.preempt
  | lock m => exact inv.lock h
  | unlock m => exact inv.unlock h
  | take i => exact inv.take h
  | tryTake i => exact inv.tryTake
  | give i => exact inv.give h

theorem Init.inv (h : k.Init) (hn : k.sched.numTasks ≤ 32) : k.Inv := by
  have hqu : ∀ o t, ¬ k.Queued o t := by
    intro o t hq
    have hw : k.waiters o = 0 := by
      cases o with
      | mutex m => exact (h.mutexes m).2
      | sem i => exact (h.sems i).2
    rw [Queued, hw] at hq
    simp at hq
  refine ⟨hn, h.cur_lt, fun t ht => ⟨h.onCore t ht, ?_⟩, fun o t hq => absurd hq (hqu o t),
    fun o hq => absurd hq (hqu o _), fun t ht hb => ?_, fun o hq => ?_, fun i => (h.sems i).1⟩
  · by_cases htc : t = k.cur
    · exact .inr (.inr ⟨htc, htc ▸ h.running⟩)
    exact .inl (h.ready t ht htc)
  · by_cases htc : t = k.cur
    · rw [htc, h.running] at hb
      exact TaskState.noConfusion hb
    rw [h.ready t ht htc] at hb
    exact TaskState.noConfusion hb
  obtain ⟨t, ht⟩ := hq
  exact absurd ht (hqu o t)

/-- Who is between lock and unlock is the owner. -/
def Held (k : Uni) : Prop := ∀ t m, k.holds t m = true → (k.mutexes m).owner = t

/-- A section that changes one mutex, and who holds it. -/
theorem Held.set {l : Uni} {m : Nat} {x : Mutex} (hh : k.Held) (hm : l.mutexes = update k.mutexes m x)
    (hother : ∀ t n, n ≠ m → l.holds t n = k.holds t n) (hself : ∀ t, l.holds t m = true → x.owner = t) :
    l.Held := by
  intro t n hold
  rw [hm]
  by_cases hnm : n = m
  · subst hnm
    rw [update_self]
    exact hself t hold
  rw [update_of_ne hnm]
  exact hh t n (hother t n hnm ▸ hold)

theorem holds_update (k : Uni) (c m : Nat) (b : Bool) (t n : Nat) (hnm : n ≠ m) :
    update k.holds c (update (k.holds c) m b) t n = k.holds t n := by
  by_cases htc : t = c
  · rw [htc, update_self, update_of_ne hnm]
  rw [update_of_ne htc]

theorem Held.step (hh : k.Held) (inv : k.Inv) (a : UniAct) (h : k.Enabled a) : (k.step a).Held := by
  cases a with
  | tick | yield | preempt | take | tryTake | give => exact hh
  | lock m =>
    by_cases hfree : (k.mutexes m).owner < 0
    · rw [Uni.step, mutexTry, if_pos hfree]
      refine hh.set rfl (holds_update k k.cur m true) fun t hold => ?_
      by_cases htc : t = k.cur
      · rw [htc]
        exact toInt8_of_lt (lt_of_lt_of_le inv.cur_lt inv.few)
      have hold : update k.holds k.cur _ t m = true := hold
      rw [update_of_ne htc] at hold
      have hown := hh t m hold
      omega
    rw [Uni.step, mutexTry, if_neg hfree]
    exact hh.set rfl (fun _ _ _ => rfl) fun t => hh t m
  | unlock m => ?_
  refine hh.set rfl (holds_update k k.cur m false) fun t hold => ?_
  have hold : update k.holds k.cur (update _ m false) t m = true := hold
  by_cases htc : t = k.cur
  · rw [htc, update_self, update_self] at hold
    exact absurd hold Bool.false_ne_true
  rw [update_of_ne htc] at hold
  have hown := hh t m hold
  have hcur := hh _ m h.2.2
  omega

/-- At most one task is between lock and unlock of a mutex. -/
def OneHolder (k : Uni) : Prop :=
  ∀ m t t', k.holds t m = true → k.holds t' m = true → t = t'

/-- A task that is blocked on something it could take is about to be overtaken: another task has been
woken for it and has not tried again. -/
def NoLostWakeup (k : Uni) : Prop :=
  ∀ o t, t < k.sched.numTasks → (k.sched.tasks t).state = .blocked → k.phase t = .wait o →
    0 < k.avail o → ∃ t', t' < k.sched.numTasks ∧ k.phase t' = .wait o ∧ k.woken t' = true ∧
      (k.sched.tasks t').state ≠ .blocked

theorem Inv.noLostWakeup (inv : k.Inv) : k.NoLostWakeup := by
  intro o t ht hb hp hav
  obtain ⟨o', hp', hq⟩ := inv.blocked t ht hb
  have ho := hp.symm.trans hp'
  cases ho
  have hcard : 0 < (k.wakers o).card := lt_of_lt_of_le hav (inv.units o ⟨t, hq⟩)
  obtain ⟨u, hu⟩ := card_pos.1 hcard
  obtain ⟨hlt, hphase, hwoken⟩ := mem_wakers.1 hu
  refine ⟨u, hlt, hphase, hwoken, fun hub => ?_⟩
  obtain ⟨o', -, hq'⟩ := inv.blocked u hlt hub
  exact Bool.false_ne_true ((inv.queued o' u hq').2.2.1.symm.trans hwoken)

/-- **Mutexes and semaphores on one core.** With at most 32 tasks, in every state of every run there is
one holder of a mutex at most, and no wakeup is lost. -/
theorem oneHolder_noLostWakeup {k : Uni}
    (h : Reachable Uni.step Uni.Enabled (fun k => k.Init ∧ k.sched.numTasks ≤ 32) k) :
    k.OneHolder ∧ k.NoLostWakeup := by
  have hall : k.Inv ∧ k.Held := by
    refine Reachable.invariant (I := fun k => k.Inv ∧ k.Held)
      (fun k hk => ⟨hk.1.inv hk.2, fun t m hold => ?_⟩)
      (fun k a hen inv => ⟨inv.1.step a hen, inv.2.step inv.1 a hen⟩) h
    exact absurd ((hk.1.holds t m).symm.trans hold) Bool.false_ne_true
  refine ⟨fun m t t' ht ht' => ?_, hall.1.noLostWakeup⟩
  have h1 := hall.2 t m ht
  have h2 := hall.2 t' m ht'
  omega

/-- Task 0 of `n` runs; the last task has the highest priority. -/
def started (n : Nat) : Uni where
  sched :=
    { tasks := fun i => ⟨0x20000000 + 0x200 * i, if i = 0 then .running else .ready, 0,
        if i = 0 then some 0 else none, if i = n - 1 then 3 else if i = 0 then 5 else 7, 0, 0⟩
      numTasks := n
      current := fun _ => 0 }
  now := 0
  pend := false
  mutexes := fun _ => ⟨-1, 0⟩
  sems := fun _ => ⟨0, 0⟩
  phase := fun _ => .out
  woken := fun _ => false
  holds := fun _ _ => false

theorem started_init (hn : 0 < n) : (started n).Init where
  cur_lt := hn
  running := rfl
  ready t _ ht := if_neg ht
  onCore t _ := by
    by_cases ht : t = 0
    · subst ht
      rfl
    simp [started, Task.elsewhere, ht]
  mutexes _ := ⟨rfl, rfl⟩
  sems _ := ⟨le_rfl, rfl⟩
  phase _ := rfl
  woken _ := rfl
  holds _ _ := rfl

/-- Task 0 is preempted with the mutex, the last task blocks on it, and task 0 unlocks it. -/
def contended (n : Nat) : List UniAct :=
  [.lock 0, .tick, .preempt 0x1f0, .lock 0, .preempt (0x1f0 + 0x200 * (n - 1)), .unlock 0]

/-- With 32 tasks the last one is woken, and would hold the mutex alone. -/
theorem oneHolder_noLostWakeup_contended : (runFrom Uni.step (started 32) (contended 32)).OneHolder ∧
    (runFrom Uni.step (started 32) (contended 32)).NoLostWakeup ∧
    (runFrom Uni.step (started 32) (contended 32)).woken 31 = true := by
  have hrun := oneHolder_noLostWakeup (k := runFrom Uni.step (started 32) (contended 32))
    (Reachable.runFrom (.init ⟨started_init (by decide), le_rfl⟩) _
      ⟨⟨rfl, .inl rfl⟩, trivial, trivial, by decide +kernel, trivial, by decide +kernel, trivial⟩)
  exact ⟨hrun.1, hrun.2, by decide +kernel⟩

/-- With 33 tasks the last one is in no queue: the mutex is free, and nobody has been woken. -/
theorem wakeup_lost : AllOk Uni.step Uni.Enabled (started 33) (contended 33) ∧ (started 33).Init ∧
    ¬ (runFrom Uni.step (started 33) (contended 33)).NoLostWakeup := by
  refine ⟨⟨⟨rfl, .inl rfl⟩, trivial, trivial, by decide +kernel, trivial, by decide +kernel,
    trivial⟩, started_init (by decide), fun h => ?_⟩
  obtain ⟨t', hlt, -, hwoken, -⟩ := h (.mutex 0) 32 (by decide +kernel) (by decide +kernel)
    (by decide +kernel) (by decide +kernel)
  have hn : (runFrom Uni.step (started 33) (contended 33)).sched.numTasks = 33 := by decide +kernel
  have hnone : ∀ t < 33, (runFrom Uni.step (started 33) (contended 33)).woken t = false := by
    decide +kernel
  exact Bool.false_ne_true ((hnone t' (hn ▸ hlt)).symm.trans hwoken)

end Uni

end Embedded.Rtos
