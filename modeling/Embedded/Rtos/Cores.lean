import Embedded.Rtos.Sync
import Embedded.Lib.Run

/-! # The RTOS scheduler on several cores

The cores take the locked sections of the scheduler and of the mutexes and semaphores as steps, in any
order. A task that blocks, sleeps or exits stays on its core until that core's PendSV switches away
from it, but it is no longer recorded there; if it is woken before that, another core can take it.
`cores_exclusive` says that this, and a second `sched_start`, are the only ways to run a task twice. -/

namespace Embedded.Rtos

open Function (update update_self update_of_ne)

variable {i cpu oldSp maxTasks : Nat}

/-! ## Steps -/

structure Smp where
  sched : Sched
  now : Nat
  /-- The core has been through `sched_start`. -/
  started : Nat → Bool
  /-- PendSV is pending on the core: nothing else of its task runs before it. -/
  pend : Nat → Bool
  mutexes : Nat → Mutex
  sems : Nat → Semaphore

inductive Act
  | create (sp : Nat) (priority : Fin 256)
  | start (cpu : Nat)
  | tick (cpu : Nat)
  | yield (cpu : Nat)
  | preempt (cpu oldSp : Nat)
  | sleep (cpu ms : Nat)
  | exit (cpu : Nat)
  | lock (cpu m : Nat)
  | unlock (cpu m : Nat)
  | take (cpu s : Nat)
  | tryTake (cpu s : Nat)
  /-- `sem_give`, also from an interrupt handler. -/
  | give (cpu s : Nat)

namespace Smp

def setPend (k : Smp) (cpu : Nat) (b : Bool) : Smp := { k with pend := update k.pend cpu b }

def setMutex (k : Smp) (m : Nat) (v : Mutex) : Smp :=
  { k with mutexes := update k.mutexes m v }

def setSem (k : Smp) (i : Nat) (v : Semaphore) : Smp := { k with sems := update k.sems i v }

def step (maxTasks : Nat) (k : Smp) : Act → Smp
  | .create sp priority =>
    match schedCreateTask maxTasks k.sched sp priority with
    | some r => { k with sched := r.2 }
    | none => k
  | .start cpu =>
    if k.sched.numTasks = 0 then k
    else { k with sched := schedStart k.sched cpu, started := update k.started cpu true }
  | .tick cpu => { k with now := add32 k.now 1 }.setPend cpu true
  | .yield cpu => k.setPend cpu true
  | .preempt cpu oldSp =>
    { k with sched := (schedPreempt k.sched cpu oldSp k.now).2 }.setPend cpu false
  | .sleep cpu ms => { k with sched := schedSleepMs k.sched cpu k.now ms }.setPend cpu true
  | .exit cpu => { k with sched := schedTaskExit k.sched cpu }.setPend cpu true
  | .lock cpu m =>
    let r := mutexTry k.sched cpu (k.mutexes m)
    ({ k with sched := r.2.1 }.setMutex m r.2.2).setPend cpu (!r.1)
  | .unlock _ m =>
    let r := mutexUnlock k.sched (k.mutexes m)
    { k with sched := r.1 }.setMutex m r.2
  | .take cpu i =>
    let r := semTry k.sched cpu (k.sems i)
    ({ k with sched := r.2.1 }.setSem i r.2.2).setPend cpu (!r.1)
  | .tryTake _ i => k.setSem i (semTryTake (k.sems i)).2
  | .give _ i =>
    let r := semGive k.sched (k.sems i)
    { k with sched := r.1 }.setSem i r.2

/-- Tasks run on cores that have been started, and not while PendSV is pending there; PendSV and
interrupts come at any time. -/
def Enabled (k : Smp) : Act → Prop
  | .create _ _ => True
  | .start cpu => k.started cpu = false
  | .tick _ => True
  | .preempt cpu _ => k.started cpu = true
  | .give _ _ => True
  | .yield cpu | .sleep cpu _ | .exit cpu | .lock cpu _ | .unlock cpu _ | .take cpu _
  | .tryTake cpu _ => k.started cpu = true ∧ k.pend cpu = false

/-- No core picks a task while another core's current task is ready again, or due, and recorded on no
core; and no core is started while task 0 is on another one. -/
def Safe (k : Smp) : Act → Prop
  | .start cpu => ∀ c, c ≠ cpu → k.started c = true → k.sched.current c ≠ 0
  | .preempt cpu _ => ∀ c, c ≠ cpu → k.started c = true →
      ¬ Eligible cpu k.now (k.sched.tasks (k.sched.current c))
  | _ => True

/-- No core has been started. -/
def Init (k : Smp) : Prop := ∀ c, k.started c = false

/-! ## Exclusivity -/

/-- No task is the running task of two cores. -/
def Exclusive (k : Smp) : Prop :=
  ∀ c d, k.started c = true → k.started d = true → c ≠ d → k.sched.current c ≠ k.sched.current d

/-- The context of the task is in its TCB, not on another core that has still to save it. -/
def Saved (k : Smp) (cpu t : Nat) : Prop :=
  ∀ c, c ≠ cpu → k.started c = true → k.sched.current c ≠ t

/-- The current tasks of the cores that run are different, exist, and are recorded there or nowhere. -/
structure Inv (k : Smp) : Prop where
  exclusive : k.Exclusive
  exists_ : ∀ c, k.started c = true → k.sched.current c < k.sched.numTasks
  recorded : ∀ c, k.started c = true →
    (k.sched.tasks (k.sched.current c)).runningOnCpu = none ∨
      (k.sched.tasks (k.sched.current c)).runningOnCpu = some c

section

variable {k l : Smp} (inv : k.Inv)
include inv

/-- Steps that leave the cores and their current tasks alone and at most forget where a task is. -/
theorem Inv.of_same (hst : l.started = k.started)
    (hcur : l.sched.current = k.sched.current) (hnum : k.sched.numTasks ≤ l.sched.numTasks)
    (hrec : ∀ t < k.sched.numTasks, (l.sched.tasks t).runningOnCpu = (k.sched.tasks t).runningOnCpu ∨
        (l.sched.tasks t).runningOnCpu = none) : l.Inv := by
  refine ⟨?_, fun c hc => ?_, fun c hc => ?_⟩
  · unfold Exclusive
    rw [hst, hcur]
    exact inv.exclusive
  · rw [hst] at hc
    rw [hcur]
    exact lt_of_lt_of_le (inv.exists_ c hc) hnum
  rw [hst] at hc
  rw [hcur]
  rcases hrec _ (inv.exists_ c hc) with h | h
  · rw [h]
    exact inv.recorded c hc
  exact .inl h

/-- The same, for a change of one table entry. -/
theorem Inv.of_modify {f : Task → Task} (hst : l.started = k.started) (hs : l.sched = k.sched.modify i f)
    (hf : ∀ t, (f t).runningOnCpu = t.runningOnCpu ∨ (f t).runningOnCpu = none) : l.Inv := by
  refine inv.of_same hst (by rw [hs]; rfl) (le_of_eq (by rw [hs]; rfl)) fun t _ => ?_
  rw [hs]
  by_cases ht : t = i
  · subst ht
    rw [Sched.modify_self]
    exact hf _
  rw [Sched.modify_of_ne ht]
  exact .inl rfl

theorem Inv.of_try (hst : l.started = k.started)
    (h : l.sched = k.sched ∨ l.sched = k.sched.modify i (Task.leave .blocked)) : l.Inv := by
  rcases h with h | h
  · exact inv.of_same hst (by rw [h]) (by rw [h]) fun t _ => .inl (by rw [h])
  · exact inv.of_modify hst h fun t => .inr rfl

theorem Inv.of_wake {w : BitVec 32} (hst : l.started = k.started)
    (hs : l.sched = (schedWake k.sched w).1) : l.Inv := by
  unfold schedWake at hs
  split at hs
  · exact inv.of_same hst (by rw [hs]) (by rw [hs]) fun t _ => by rw [hs]; exact .inl rfl
  split at hs
  · exact inv.of_modify hst hs fun t => .inl rfl
  · exact inv.of_same hst (by rw [hs]) (by rw [hs]) fun t _ => by rw [hs]; exact .inl rfl

end

end Smp

namespace Smp

section

variable {k : Smp} (inv : k.Inv)
include inv

/-- A pick under the condition takes a task that is on no other core. -/
theorem Inv.next_saved (hst : k.started cpu = true)
    (hsafe : k.Safe (.preempt cpu oldSp)) : k.Saved cpu (nextTask k.sched cpu oldSp k.now) := by
  intro c hne hc heq
  have hold : k.sched.current c ≠ k.sched.current cpu := inv.exclusive c cpu hc hst hne
  rcases pickNext_cases with hel | hcur
  · have htask : (savedTable k.sched cpu oldSp k.now).tasks (k.sched.current c) =
        k.sched.tasks (k.sched.current c) := Sched.modify_of_ne hold _
    rw [nextTask] at heq
    rw [← heq, htask] at hel
    exact hsafe c hne hc hel
  exact hold (heq.trans hcur)

theorem Inv.preempt (hst : k.started cpu = true)
    (hsafe : k.Safe (.preempt cpu oldSp)) : (k.step maxTasks (.preempt cpu oldSp)).Inv := by
  have hsaved := inv.next_saved hst hsafe
  have hcurrent : (k.step maxTasks (.preempt cpu oldSp)).sched.current =
      update k.sched.current cpu (nextTask k.sched cpu oldSp k.now) := schedPreempt_current
  have htasks : (k.step maxTasks (.preempt cpu oldSp)).sched.tasks =
      (schedPreempt k.sched cpu oldSp k.now).2.tasks := rfl
  have hstarted : (k.step maxTasks (.preempt cpu oldSp)).started = k.started := rfl
  have hnum : (k.step maxTasks (.preempt cpu oldSp)).sched.numTasks = k.sched.numTasks :=
    schedPreempt_numTasks
  refine ⟨fun c d hc hd hne => ?_, fun c hc => ?_, fun c hc => ?_⟩
  · rw [hstarted] at hc hd
    rw [hcurrent]
    by_cases hccpu : c = cpu
    · subst hccpu
      rw [update_self, update_of_ne (Ne.symm hne)]
      exact Ne.symm (hsaved d (Ne.symm hne) hd)
    rw [update_of_ne hccpu]
    by_cases hdcpu : d = cpu
    · subst hdcpu
      rw [update_self]
      exact hsaved c hccpu hc
    rw [update_of_ne hdcpu]
    exact inv.exclusive c d hc hd hne
  · rw [hstarted] at hc
    rw [hcurrent, hnum]
    by_cases hccpu : c = cpu
    · subst hccpu
      rw [update_self]
      exact pickNext_lt (inv.exists_ c hc)
    rw [update_of_ne hccpu]
    exact inv.exists_ c hc
  rw [hcurrent, htasks]
  by_cases hccpu : c = cpu
  · subst hccpu
    rw [update_self, schedPreempt_next]
    exact .inr rfl
  -- another core's task is neither the old nor the new one
  rw [update_of_ne hccpu, schedPreempt_other (hsaved c hccpu hc)]
  have htask : (savedTable k.sched cpu oldSp k.now).tasks (k.sched.current c) =
      k.sched.tasks (k.sched.current c) :=
    Sched.modify_of_ne (inv.exclusive c cpu hc hst hccpu) _
  have hrec := inv.recorded c hc
  rcases pickNext_tasks (k.sched.current c) with h | h
  · rw [h, htask]
    exact hrec
  rw [h, htask, wakeDue_runningOnCpu]
  exact hrec

theorem Inv.start (hsafe : k.Safe (.start cpu)) : (k.step maxTasks (.start cpu)).Inv := by
  have hstep : k.step maxTasks (.start cpu) = if k.sched.numTasks = 0 then k else
      { k with sched := schedStart k.sched cpu, started := update k.started cpu true } := rfl
  rw [hstep]
  split
  · exact inv
  next hnum =>
  have hcurrent : (schedStart k.sched cpu).current = update k.sched.current cpu 0 := by
    unfold schedStart
    rw [if_neg hnum]
    rfl
  have hn : (schedStart k.sched cpu).numTasks = k.sched.numTasks := by
    unfold schedStart
    rw [if_neg hnum]
    rfl
  have hother : ∀ t, t ≠ 0 → (schedStart k.sched cpu).tasks t = k.sched.tasks t := by
    intro t ht
    unfold schedStart
    rw [if_neg hnum]
    exact Sched.modify_of_ne ht _
  have hzero : ((schedStart k.sched cpu).tasks 0).runningOnCpu = some cpu := by
    unfold schedStart
    rw [if_neg hnum]
    rw [Sched.modify_self]
  have hstarted : ∀ c, c ≠ cpu → update k.started cpu true c = true → k.started c = true := by
    intro c hc h
    rwa [update_of_ne hc] at h
  refine ⟨fun c d hc hd hne => ?_, fun c hc => ?_, fun c hc => ?_⟩
  · show (schedStart k.sched cpu).current c ≠ (schedStart k.sched cpu).current d
    rw [hcurrent]
    by_cases hccpu : c = cpu
    · subst hccpu
      rw [update_self, update_of_ne (Ne.symm hne)]
      exact Ne.symm (hsafe d (Ne.symm hne) (hstarted d (Ne.symm hne) hd))
    rw [update_of_ne hccpu]
    by_cases hdcpu : d = cpu
    · subst hdcpu
      rw [update_self]
      exact hsafe c hccpu (hstarted c hccpu hc)
    rw [update_of_ne hdcpu]
    exact inv.exclusive c d (hstarted c hccpu hc) (hstarted d hdcpu hd) hne
  · show (schedStart k.sched cpu).current c < (schedStart k.sched cpu).numTasks
    rw [hcurrent, hn]
    by_cases hccpu : c = cpu
    · subst hccpu
      rw [update_self]
      omega
    rw [update_of_ne hccpu]
    exact inv.exists_ c (hstarted c hccpu hc)
  rw [hcurrent]
  by_cases hccpu : c = cpu
  · subst hccpu
    rw [update_self]
    exact .inr hzero
  have hc' := hstarted c hccpu hc
  rw [update_of_ne hccpu, hother _ (hsafe c hccpu hc')]
  exact inv.recorded c hc'

theorem Inv.step (a : Act) (hen : k.Enabled a) (hsafe : k.Safe a) : (k.step maxTasks a).Inv := by
  cases a with
  | create sp priority =>
    rw [Smp.step]
    cases hr : schedCreateTask maxTasks k.sched sp priority with
    | none => exact inv
    | some r => ?_
    unfold schedCreateTask at hr
    split at hr
    · cases hr
    cases hr
    refine inv.of_same rfl rfl (Nat.le_succ _) fun t ht => .inl ?_
    exact congrArg Task.runningOnCpu (update_of_ne (Nat.ne_of_lt ht) _ _)
  | start cpu => exact inv.start hsafe
  | tick cpu | yield cpu => exact inv.of_same rfl rfl le_rfl fun t _ => .inl rfl
  | preempt cpu oldSp => exact inv.preempt hen hsafe
  | sleep cpu ms =>
    refine inv.of_modify (f := fun t => Task.leave .sleeping { t with wakeTick := add32 k.now ms })
      rfl rfl fun t => .inr rfl
  | exit cpu => exact inv.of_modify (f := Task.leave .dead) rfl rfl fun t => .inr rfl
  | lock cpu m => exact inv.of_try rfl (mutexTry_sched ..)
  | unlock cpu m => exact inv.of_wake rfl rfl
  | take cpu i => exact inv.of_try rfl (semTry_sched ..)
  | tryTake cpu i => exact inv.of_same rfl rfl le_rfl fun t _ => .inl rfl
  | give cpu i => exact inv.of_wake rfl rfl

end

/-- **No task on two cores**: in every state reached by steps under the condition, no task is the
running task of two cores, and no core picks one that another core has still to save. -/
theorem cores_exclusive {maxTasks : Nat} {k : Smp}
    (h : Reachable (Smp.step maxTasks) (fun k a => k.Enabled a ∧ k.Safe a) Init k) :
    k.Exclusive ∧ ∀ cpu oldSp, k.Enabled (.preempt cpu oldSp) → k.Safe (.preempt cpu oldSp) →
      k.Saved cpu (nextTask k.sched cpu oldSp k.now) := by
  have hinv : k.Inv := by
    refine h.invariant (fun k hk => ?_) fun k a hok inv => inv.step a hok.1 hok.2
    exact ⟨fun c _ hc => absurd (hc.symm.trans (hk c)) (by decide),
      fun c hc => absurd (hc.symm.trans (hk c)) (by decide),
      fun c hc => absurd (hc.symm.trans (hk c)) (by decide)⟩
  exact ⟨hinv.exclusive, fun cpu oldSp hen hsafe => hinv.next_saved hen hsafe⟩

/-- Tasks 0 and 1 have been created; task 1 has the higher priority. -/
def twoCreated : Smp where
  sched :=
    { tasks := fun i => ⟨0x20000000 + 0x200 * i, .ready, 0, none, if i = 0 then 5 else 3, 0, 0⟩
      numTasks := 2
      current := fun _ => 0 }
  now := 0
  started := fun _ => false
  pend := fun _ => false
  mutexes := fun _ => ⟨-1, 0⟩
  sems := fun _ => ⟨0, 0⟩

theorem started_of_two {a b c : Nat} (h : update (update (fun _ => false) a true) b true c = true) :
    c = a ∨ c = b := by
  by_contra hno
  rw [not_or] at hno
  rw [update_of_ne hno.2, update_of_ne hno.1] at h
  exact Bool.false_ne_true h

/-- A run in which core 1 is started when core 0 has gone on to task 1, and core 0 picks again while
task 0, blocked, is still on core 1. -/
theorem cores_exclusive_run : (runFrom (Smp.step 8) twoCreated
      [.start 0, .preempt 0 0x1f0, .start 1, .take 1 0, .preempt 0 0x3f0]).Exclusive ∧
    (runFrom (Smp.step 8) twoCreated
      [.start 0, .preempt 0 0x1f0, .start 1, .take 1 0, .preempt 0 0x3f0]).sched.current 0 = 1 ∧
    (runFrom (Smp.step 8) twoCreated
      [.start 0, .preempt 0 0x1f0, .start 1, .take 1 0, .preempt 0 0x3f0]).sched.current 1 = 0 := by
  refine ⟨(cores_exclusive (Reachable.runFrom (.init fun _ => rfl) _ ?_)).1,
    by decide +kernel, by decide +kernel⟩
  refine ⟨⟨rfl, fun c _ h => absurd h Bool.false_ne_true⟩, ⟨rfl, fun c hne h => ?_⟩,
    ⟨rfl, fun c hne h => ?_⟩, ⟨⟨rfl, rfl⟩, trivial⟩, ⟨rfl, fun c hne h => ?_⟩, trivial⟩
  · have h' : update (fun _ => false) 0 true c = true := h
    rw [update_of_ne hne] at h'
    exact absurd h' Bool.false_ne_true
  · have h' : update (fun _ => false) 0 true c = true := h
    by_cases hc : c = 0
    · subst hc
      decide +kernel
    · rw [update_of_ne hc] at h'
      exact absurd h' Bool.false_ne_true
  · obtain rfl | rfl := started_of_two h
    · exact absurd rfl hne
    · decide +kernel

/-- Two runs that put task 0 on both cores. In the first one both cores are just started. In the
second one task 0 blocks on core 1 and is woken, and core 0 picks it before core 1 has switched. -/
theorem cores_share_task : (AllOk (Smp.step 8) Smp.Enabled twoCreated [.start 0, .start 1] ∧
      ¬ (runFrom (Smp.step 8) twoCreated [.start 0, .start 1]).Exclusive) ∧
    (AllOk (Smp.step 8) Smp.Enabled twoCreated
        [.start 0, .preempt 0 0x1f0, .start 1, .take 1 0, .give 0 0, .sleep 0 10, .preempt 0 0x3f0] ∧
      ¬ (runFrom (Smp.step 8) twoCreated
        [.start 0, .preempt 0 0x1f0, .start 1, .take 1 0, .give 0 0, .sleep 0 10,
          .preempt 0 0x3f0]).Exclusive) := by
  refine ⟨⟨⟨rfl, rfl, trivial⟩, fun h => ?_⟩,
    ⟨⟨rfl, rfl, rfl, ⟨rfl, rfl⟩, trivial, ⟨rfl, rfl⟩, rfl, trivial⟩, fun h => ?_⟩⟩
  · exact h 0 1 (by decide +kernel) (by decide +kernel) (by decide) (by decide +kernel)
  · exact h 0 1 (by decide +kernel) (by decide +kernel) (by decide) (by decide +kernel)

end Smp

end Embedded.Rtos
