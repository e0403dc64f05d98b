import Embedded.Lib.Run
import Embedded.Rtos.Sched

/-! # Round robin in the RTOS scheduler

One core over a sequence of ticks and yields. `pick_next` scans from the task after the current one
and takes a task that is as good as the best so far, so the last one of the scan wins a tie: the
current task. It keeps the core for as long as no better task is ready, and round robin holds only
where there is nothing to share. -/

namespace Embedded.Rtos

/-! ## Ticks and yields -/

/-- A core's scheduler state and its tick counter. -/
structure Core where
  sched : Sched
  now : Nat

/-- Both end in PendSV, with the stack pointer of the task that is interrupted. -/
inductive Switch
  | tick (oldSp : Nat)
  | yield (oldSp : Nat)

namespace Core

/-- The tick counter when PendSV runs. -/
def timeAt (k : Core) : Switch → Nat
  | .tick _ => add32 k.now 1
  | .yield _ => k.now

def spAt : Switch → Nat
  | .tick sp => sp
  | .yield sp => sp

def step (cpu : Nat) (k : Core) (e : Switch) : Core where
  sched := (schedPreempt k.sched cpu (spAt e) (k.timeAt e)).2
  now := k.timeAt e

/-- The tasks that are selected, one after the other. -/
def picks (cpu : Nat) : Core → List Switch → List Nat
  | _, [] => []
  | k, e :: es => (k.step cpu e).sched.current cpu :: picks cpu (k.step cpu e) es

/-- A task that can be selected: the running one, or one that is ready, or due, and not on another
core. -/
def Ready (k : Core) (cpu now c : Nat) : Prop :=
  c < k.sched.numTasks ∧
    ((c = k.sched.current cpu ∧ (k.sched.tasks c).state = .running) ∨
      Eligible cpu now (k.sched.tasks c))

instance (k : Core) (cpu now c : Nat) : Decidable (k.Ready cpu now c) :=
  inferInstanceAs (Decidable (_ ∧ (_ ∨ _)))

/-- The tasks of priority `p` that are ready at the first switch. -/
def Group (k : Core) (cpu : Nat) (p : Fin 256) : List Switch → Nat → Prop
  | [], _ => False
  | e :: _, c => k.Ready cpu (k.timeAt e) c ∧ (k.sched.tasks c).priority = p

/-- All tasks of the group stay ready at every switch, and no task of higher priority is ready. -/
def Steady (cpu : Nat) (p : Fin 256) (group : Nat → Prop) : Core → List Switch → Prop
  | _, [] => True
  | k, e :: es =>
    (∀ c, group c → k.Ready cpu (k.timeAt e) c) ∧
    (∀ c, k.Ready cpu (k.timeAt e) c → p ≤ (k.sched.tasks c).priority) ∧
    Steady cpu p group (k.step cpu e) es

end Core

/-- No task of the group is selected a second time before each of the others has been selected. -/
def RoundRobin (group : Nat → Prop) (picks : List Nat) : Prop :=
  ∀ i j c : Nat, i < j → picks[i]? = some c → picks[j]? = some c → group c →
    ∀ d, group d → d ≠ c → ∃ k : Nat, i < k ∧ k < j ∧ picks[k]? = some d

/-! ## What is selected -/

namespace Core

variable {k : Core} {cpu : Nat} {e : Switch}

theorem step_current : (k.step cpu e).sched.current cpu =
    nextTask k.sched cpu (spAt e) (k.timeAt e) := by
  show (schedPreempt k.sched cpu (spAt e) (k.timeAt e)).2.current cpu = _
  rw [schedPreempt_current, Function.update_self]

theorem step_priority (c : Nat) :
    ((k.step cpu e).sched.tasks c).priority = (k.sched.tasks c).priority := schedPreempt_priority c

theorem eligible_saved {c : Nat} (hc : c < k.sched.numTasks) :
    Eligible cpu (k.timeAt e) ((savedTable k.sched cpu (spAt e) (k.timeAt e)).tasks c) ↔
      k.Ready cpu (k.timeAt e) c := by
  by_cases hcur : c = k.sched.current cpu
  · subst hcur
    rw [savedTable, Sched.modify_self]
    by_cases hrun : (k.sched.tasks (k.sched.current cpu)).state = .running
    · refine iff_of_true ?_ ⟨hc, .inl ⟨rfl, hrun⟩⟩
      have hsave : (saveOld (spAt e) (k.timeAt e) (k.sched.tasks (k.sched.current cpu))).state = .ready ∧
          (saveOld (spAt e) (k.timeAt e) (k.sched.tasks (k.sched.current cpu))).runningOnCpu =
            none := by
        unfold saveOld
        simp only [hrun, if_true, and_self]
      refine ⟨?_, ?_⟩
      · rw [wakeDue_of_ne (by rw [hsave.1]; decide)]
        exact hsave.1
      rw [Task.elsewhere, hsave.2]
      rfl
    have hsave : Eligible cpu (k.timeAt e)
        (saveOld (spAt e) (k.timeAt e) (k.sched.tasks (k.sched.current cpu))) ↔
        Eligible cpu (k.timeAt e) (k.sched.tasks (k.sched.current cpu)) := by
      unfold saveOld Eligible wakeDue Task.elsewhere
      simp only [hrun, if_false]
      split <;> rfl
    rw [hsave]
    exact ⟨fun h => ⟨hc, .inr h⟩, fun h => h.2.resolve_left fun h => hrun h.2⟩
  rw [savedTable, Sched.modify_of_ne hcur]
  exact ⟨fun h => ⟨hc, .inr h⟩, fun h => h.2.resolve_left fun h => hcur h.1⟩

/-- The selected task is ready and of the best priority. -/
theorem step_best (hcur : k.sched.current cpu < k.sched.numTasks) (h : ∃ c, k.Ready cpu (k.timeAt e) c) :
    k.Ready cpu (k.timeAt e) ((k.step cpu e).sched.current cpu) ∧ ∀ c, k.Ready cpu (k.timeAt e) c →
        (k.sched.tasks ((k.step cpu e).sched.current cpu)).priority ≤ (k.sched.tasks c).priority := by
  obtain ⟨c, hc⟩ := h
  rw [step_current]
  obtain ⟨hlt, hel, hmin⟩ := @pickNext_eligible (savedTable k.sched cpu (spAt e) (k.timeAt e)) cpu
    (k.timeAt e) hcur ⟨c, hc.1, (eligible_saved hc.1).2 hc⟩
  refine ⟨(eligible_saved hlt).1 hel, fun d hd => ?_⟩
  have hle := hmin d hd.1 ((eligible_saved hd.1).2 hd)
  rw [savedTable_priority, savedTable_priority] at hle
  exact hle

theorem step_running : ((k.step cpu e).sched.tasks ((k.step cpu e).sched.current cpu)).state =
    .running := by
  rw [step_current]
  show ((schedPreempt k.sched cpu (spAt e) (k.timeAt e)).2.tasks _).state = .running
  rw [schedPreempt_next]
  rfl

/-- A running task that is as good as any keeps the core. -/
theorem step_keeps (hcur : k.sched.current cpu < k.sched.numTasks)
    (hrun : (k.sched.tasks (k.sched.current cpu)).state = .running)
    (hmin : ∀ c, k.Ready cpu (k.timeAt e) c →
      (k.sched.tasks (k.sched.current cpu)).priority ≤ (k.sched.tasks c).priority) :
    (k.step cpu e).sched.current cpu = k.sched.current cpu := by
  rw [step_current]
  refine pickNext_current_of_best hcur ((eligible_saved hcur).2 ⟨hcur, .inl ⟨rfl, hrun⟩⟩) fun c hc hel => ?_
  rw [savedTable_priority, savedTable_priority]
  exact hmin c ((eligible_saved hc).1 hel)

end Core

/-- **Round robin** among the ready tasks of one priority holds exactly if there are fewer than two
switches or fewer than two such tasks. -/
theorem roundRobin_iff {cpu : Nat} {k : Core} (hcur : k.sched.current cpu < k.sched.numTasks)
    {p : Fin 256} {es : List Switch} (hsteady : Core.Steady cpu p (k.Group cpu p es) k es) :
    RoundRobin (k.Group cpu p es) (Core.picks cpu k es) ↔
      es.length < 2 ∨ ∀ c d, k.Group cpu p es c → k.Group cpu p es d → c = d := by
  constructor
  · intro h
    by_contra hno
    rw [not_or, not_lt] at hno
    obtain ⟨hlen, hno⟩ := hno
    match es, hlen with
    | e :: e' :: es, _ =>
      obtain ⟨-, hfirst, -, hsecond, -⟩ := hsteady
      obtain ⟨c, hc⟩ : ∃ c, k.Group cpu p (e :: e' :: es) c := by
        by_contra hnone
        exact hno fun c d hc _ => absurd ⟨c, hc⟩ hnone
      -- the first choice is one of the group, and the second one is the same
      obtain ⟨hready, hmin⟩ := Core.step_best hcur ⟨c, hc.1⟩
      generalize ha : (k.step cpu e).sched.current cpu = a at hready hmin
      have hprio : (k.sched.tasks a).priority = p := le_antisymm (hc.2 ▸ hmin c hc.1) (hfirst a hready)
      have hagain : ((k.step cpu e).step cpu e').sched.current cpu = a := by
        rw [← ha]
        refine Core.step_keeps ?_ Core.step_running fun d hd => ?_
        · rw [ha]
          show a < (schedPreempt _ _ _ _).2.numTasks
          rw [schedPreempt_numTasks]
          exact hready.1
        · rw [ha, Core.step_priority a, hprio]
          exact hsecond d hd
      have hpicks : Core.picks cpu k (e :: e' :: es) =
          a :: a :: Core.picks cpu ((k.step cpu e).step cpu e') es := by
        rw [Core.picks, Core.picks, ha, hagain]
      rw [hpicks] at h
      refine hno fun c d hc hd => ?_
      have hall : ∀ d, k.Group cpu p (e :: e' :: es) d → d = a := by
        intro d hd
        by_contra hne
        obtain ⟨i, h0, h1, -⟩ := h 0 1 a Nat.one_pos rfl rfl ⟨hready, hprio⟩ d hd hne
        omega
      rw [hall c hc, hall d hd]
  rintro (hlen | hone)
  · -- a single switch repeats nothing
    intro i j c hij hi hj
    match es with
    | [] => simp [Core.picks] at hi
    | [e] =>
      obtain _ | j := j
      · omega
      simp [Core.picks] at hj
    | _ :: _ :: _ =>
      rw [List.length_cons, List.length_cons] at hlen
      omega
  · intro i j c _ _ _ hc d hd hne
    exact absurd (hone d c hd hc) hne

/-- Tasks 0 and 1 with the given priorities right after `sched_start`. -/
def twoTasks (p q : Fin 256) : Core where
  now := 0
  sched := schedStart
    { tasks := fun i => ⟨0x20000000 + 0x200 * i, .ready, 0, none, if i = 0 then p else q, 0, 0⟩
      numTasks := 2
      current := fun _ => 0 } 0

theorem Core.Ready.of_two {k : Core} {cpu now c : Nat} (h : k.Ready cpu now c)
    (hn : k.sched.numTasks = 2) {P : Nat → Prop} (h0 : P 0) (h1 : P 1) : P c := by
  have hlt := h.1
  rcases Nat.lt_or_ge c 1 with hc | hc
  · obtain rfl : c = 0 := by omega
    exact h0
  obtain rfl : c = 1 := by omega
  exact h1

/-- The core switches, or its task sleeps, blocks, wakes another one or exits. -/
inductive CoreOp
  | switch (e : Switch)
  | sleep (ms : Nat)
  | block (waiters : BitVec 32)
  | wake (waiters : BitVec 32)
  | exit

def Core.op (cpu : Nat) (k : Core) : CoreOp → Core
  | .switch e => k.step cpu e
  | .sleep ms => { k with sched := schedSleepMs k.sched cpu k.now ms }
  | .block w => { k with sched := (schedBlock k.sched cpu w).1 }
  | .wake w => { k with sched := (schedWake k.sched w).1 }
  | .exit => { k with sched := schedTaskExit k.sched cpu }

/-- **Strict priority**: whatever the tasks did before, a switch runs a ready task, and no task that is
ready then has a higher priority. -/
theorem best_priority_runs {cpu : Nat} {k : Core} (h : Reachable (Core.op cpu) (fun _ _ => True)
      (fun k => k.sched.current cpu < k.sched.numTasks) k) (e : Switch) {c : Nat}
    (hc : k.Ready cpu (k.timeAt e) c) : let d := (k.step cpu e).sched.current cpu
    k.Ready cpu (k.timeAt e) d ∧ ((k.step cpu e).sched.tasks d).state = .running ∧
      (k.sched.tasks d).priority ≤ (k.sched.tasks c).priority := by
  have hcur : k.sched.current cpu < k.sched.numTasks := by
    refine h.invariant (I := fun k : Core => k.sched.current cpu < k.sched.numTasks) (fun _ h => h)
      fun k op _ hcur => ?_
    cases op with
    | switch e =>
      show _ < (schedPreempt k.sched cpu (Core.spAt e) (k.timeAt e)).2.numTasks
      rw [schedPreempt_numTasks, Core.op, Core.step_current]
      exact @pickNext_lt (savedTable k.sched cpu (Core.spAt e) (k.timeAt e)) cpu (k.timeAt e) hcur
    | wake w =>
      have hwake : (schedWake k.sched w).1.current = k.sched.current ∧
          (schedWake k.sched w).1.numTasks = k.sched.numTasks := by
        unfold schedWake
        grind [Sched.modify]
      rwa [Core.op, hwake.1, hwake.2]
    | _ => exact hcur
  obtain ⟨hready, hmin⟩ := Core.step_best hcur ⟨c, hc⟩
  exact ⟨hready, Core.step_running, hmin c hc⟩

/-- Task 0 sleeps, and task 1 is ready. -/
theorem best_priority_runs_other : let k := Core.op 0 (twoTasks 5 7) (.sleep 9)
    k.Ready 0 1 ((k.step 0 (.tick 0)).sched.current 0) := by
  intro k
  have h : Reachable (Core.op 0) (fun _ _ => True) (fun k => k.sched.current 0 < k.sched.numTasks) k :=
    .step _ (.init (by decide)) trivial
  exact (best_priority_runs h (.tick 0) (c := 1) (by decide +kernel)).1

/-- With two ready tasks of different priorities the first keeps the core, as it should. -/
theorem roundRobin_iff_alone :
    Core.Steady 0 5 ((twoTasks 5 7).Group 0 5 [.tick 0x100, .yield 0x108]) (twoTasks 5 7)
      [.tick 0x100, .yield 0x108] ∧
    RoundRobin ((twoTasks 5 7).Group 0 5 [.tick 0x100, .yield 0x108])
      (Core.picks 0 (twoTasks 5 7) [.tick 0x100, .yield 0x108]) := by
  have hgroup : ∀ c, (twoTasks 5 7).Group 0 5 [.tick 0x100, .yield 0x108] c → c = 0 := by
    intro c hc
    refine hc.1.of_two (P := fun c => ((twoTasks 5 7).sched.tasks c).priority = 5 → c = 0) rfl
      (fun _ => rfl) nofun hc.2
  have hsteady : Core.Steady 0 5 ((twoTasks 5 7).Group 0 5 [.tick 0x100, .yield 0x108])
      (twoTasks 5 7) [.tick 0x100, .yield 0x108] := by
    refine ⟨fun c hc => hc.1, fun c hc => ?_, fun c hc => ?_, fun c hc => ?_, trivial⟩
    · exact hc.of_two (P := fun c => 5 ≤ ((twoTasks 5 7).sched.tasks c).priority) rfl (by decide) (by decide)
    · rw [hgroup c hc]
      decide +kernel
    · exact hc.of_two (P := fun c => 5 ≤ (((twoTasks 5 7).step 0 (.tick 0x100)).sched.tasks
        c).priority) rfl (by decide +kernel) (by decide +kernel)
  refine ⟨hsteady, (roundRobin_iff (by decide) hsteady).2 (.inr fun c d hc hd => ?_)⟩
  rw [hgroup c hc, hgroup d hd]

/-- Two tasks of one priority: the one that runs is selected at both ticks, the other never. -/
theorem picks_repeat_current : (twoTasks 5 5).Group 0 5 [.tick 0x100, .tick 0x100] 0 ∧
    (twoTasks 5 5).Group 0 5 [.tick 0x100, .tick 0x100] 1 ∧
    Core.Steady 0 5 ((twoTasks 5 5).Group 0 5 [.tick 0x100, .tick 0x100]) (twoTasks 5 5)
      [.tick 0x100, .tick 0x100] ∧
    Core.picks 0 (twoTasks 5 5) [.tick 0x100, .tick 0x100] = [0, 0] ∧
    ¬ RoundRobin ((twoTasks 5 5).Group 0 5 [.tick 0x100, .tick 0x100])
      (Core.picks 0 (twoTasks 5 5) [.tick 0x100, .tick 0x100]) := by
  have hg0 : (twoTasks 5 5).Group 0 5 [.tick 0x100, .tick 0x100] 0 := ⟨by decide +kernel, by decide⟩
  have hg1 : (twoTasks 5 5).Group 0 5 [.tick 0x100, .tick 0x100] 1 := ⟨by decide +kernel, by decide⟩
  have hpicks : Core.picks 0 (twoTasks 5 5) [.tick 0x100, .tick 0x100] = [0, 0] := by decide +kernel
  refine ⟨hg0, hg1, ⟨fun c hc => hc.1, fun c hc => ?_, fun c hc => ?_, fun c hc => ?_, trivial⟩,
    hpicks, fun h => ?_⟩
  · exact hc.of_two (P := fun c => 5 ≤ ((twoTasks 5 5).sched.tasks c).priority) rfl (by decide) (by decide)
  · exact hc.1.of_two (P := fun c => ((twoTasks 5 5).step 0 (.tick 0x100)).Ready 0
      (((twoTasks 5 5).step 0 (.tick 0x100)).timeAt (.tick 0x100)) c) rfl (by decide +kernel)
      (by decide +kernel)
  · exact hc.of_two (P := fun c => 5 ≤ (((twoTasks 5 5).step 0 (.tick 0x100)).sched.tasks
      c).priority) rfl (by decide +kernel) (by decide +kernel)
  · rw [hpicks] at h
    obtain ⟨i, h0, h1, -⟩ := h 0 1 0 Nat.one_pos rfl rfl hg0 1 hg1 (by decide)
    omega

end Embedded.Rtos
