import Embedded.Lib.Word
import Mathlib.Algebra.Ring.Nat
import Mathlib.Data.List.Induction
import Mathlib.Order.Fin.Basic

/-! # The RTOS scheduler (`kernel/sched.c`)

The task table and the current task of every core. Each function is one section under the scheduler's
lock (or under the lock of its caller), so one step. `sched_preempt` is what PendSV calls: it saves the
outgoing task, picks the next one with `pick_next` and switches to it. The stack pointers stand for the
saved contexts; names, entry functions and tracing are left out. -/

namespace Embedded.Rtos

open Function (update update_self update_of_ne)
open List

variable {s : Sched} {now cpu : Nat}

inductive TaskState
  | ready
  | running
  | blocked
  | sleeping
  | dead
deriving DecidableEq, Repr

scoped instance prioNeZero : NeZero 256 := ⟨by decide⟩

/-- `struct task_tcb`; `runningOnCpu` is `none` for -1. -/
structure Task where
  sp : Nat
  state : TaskState
  wakeTick : Nat
  runningOnCpu : Option Nat
  priority : Fin 256
  totalTicks : Nat
  lastSwitchIn : Nat
deriving DecidableEq, Repr

/-- `tasks`, `num_tasks` and `current_task_per_cpu`. -/
structure Sched where
  tasks : Nat → Task
  numTasks : Nat
  current : Nat → Nat

namespace Sched

/-- A change of one table entry. -/
def modify (s : Sched) (i : Nat) (f : Task → Task) : Sched :=
  { s with tasks := update s.tasks i (f (s.tasks i)) }

theorem modify_self (s : Sched) (i : Nat) (f : Task → Task) :
    (s.modify i f).tasks i = f (s.tasks i) := update_self ..

theorem modify_of_ne {i j : Nat} (h : j ≠ i) (f : Task → Task) :
    (s.modify i f).tasks j = s.tasks j := update_of_ne h ..

end Sched

/-! ## Tasks -/

/-- `sched_create_task`; the stack of a new task is at `sp`. -/
def schedCreateTask (maxTasks : Nat) (s : Sched) (sp : Nat) (priority : Fin 256) :
    Option (Nat × Sched) :=
  if maxTasks ≤ s.numTasks then none
  else
    let id := s.numTasks
    let new := fun t : Task => { t with
      sp := sp
      state := .ready
      wakeTick := 0
      runningOnCpu := none
      priority := priority }
    some (id, { s.modify id new with numTasks := s.numTasks + 1 })

/-- The task leaves its core in the given state. -/
def Task.leave (state : TaskState) (t : Task) : Task :=
  { t with state := state, runningOnCpu := none }

/-- `sched_task_exit`, up to its yield. -/
def schedTaskExit (s : Sched) (cpu : Nat) : Sched := s.modify (s.current cpu) (Task.leave .dead)

/-- `sched_sleep_ms`, up to its yield. -/
def schedSleepMs (s : Sched) (cpu now ms : Nat) : Sched :=
  s.modify (s.current cpu) fun t => Task.leave .sleeping { t with wakeTick := add32 now ms }

/-- `sched_start`, which runs without the lock. -/
def schedStart (s : Sched) (cpu : Nat) : Sched :=
  if s.numTasks = 0 then s
  else
    let s := { s with current := update s.current cpu 0 }
    s.modify 0 fun t => { t with state := .running, runningOnCpu := some cpu }

/-! ## Choosing a task -/

/-- A sleeping task whose time has come is woken. -/
def wakeDue (now : Nat) (t : Task) : Task :=
  if t.state = .sleeping ∧ t.wakeTick ≤ now then { t with state := .ready, wakeTick := 0 } else t

/-- The task is recorded as running on another core. -/
def Task.elsewhere (t : Task) (cpu : Nat) : Bool := t.runningOnCpu.any fun c => c != cpu

/-- The variables of the loop of `pick_next`. -/
structure Pick where
  tasks : Nat → Task
  best : Option Nat
  bestPrio : Fin 256

/-- One round of the loop of `pick_next`. -/
def pickStep (cpu now : Nat) (p : Pick) (c : Nat) : Pick :=
  let t := wakeDue now (p.tasks c)
  let tasks := update p.tasks c t
  if t.elsewhere cpu then { p with tasks := tasks }
  else if t.state = .ready ∧ t.priority ≤ p.bestPrio then ⟨tasks, some c, t.priority⟩
  else { p with tasks := tasks }

/-- The order of the scan: from the task after the current one around to the current one. -/
def scanOrder (cur n : Nat) : List Nat := (List.range n).map fun i => (cur + 1 + i) % n

/-- The last resort of `pick_next`: any task that is ready and on no core. -/
def anyReady (s : Sched) : Option Nat :=
  (List.range s.numTasks).find? fun i =>
    decide ((s.tasks i).state = .ready) && (s.tasks i).runningOnCpu.isNone

/-- The loop of `pick_next`. -/
def scan (s : Sched) (cpu now : Nat) : Pick :=
  (scanOrder (s.current cpu) s.numTasks).foldl (pickStep cpu now) ⟨s.tasks, none, 255⟩

/-- `pick_next`: the task, and the table with the tasks it woke. -/
def pickNext (s : Sched) (cpu now : Nat) : Nat × Sched :=
  let p := scan s cpu now
  let s := { s with tasks := p.tasks }
  match p.best with
  | some best => (best, s)
  | none =>
    let cur := s.current cpu
    if (s.tasks cur).state = .running ∨ (s.tasks cur).state = .ready then (cur, s)
    else match anyReady s with
      | some i => (i, s)
      | none => (cur, s)

/-- What `sched_preempt` does with the outgoing task. -/
def saveOld (oldSp now : Nat) (t : Task) : Task :=
  let t := { t with totalTicks := add32 t.totalTicks (sub32 now t.lastSwitchIn), sp := oldSp }
  if t.state = .running then { t with state := .ready, runningOnCpu := none } else t

/-- `sched_preempt`: the stack pointer of the next task and the state. -/
def schedPreempt (s : Sched) (cpu oldSp now : Nat) : Nat × Sched :=
  let s := s.modify (s.current cpu) (saveOld oldSp now)
  let r := pickNext s cpu now
  let s := { r.2 with current := update r.2.current cpu r.1 }
  let s := s.modify r.1 fun t =>
    { t with state := .running, runningOnCpu := some cpu, lastSwitchIn := now }
  ((s.tasks r.1).sp, s)

/-! ## Wait queues -/

/-- `1 << id` as the processor computes it: 0 from 32 on. -/
def waitBit (id : Nat) : BitVec 32 := 1#32 <<< id

/-- `sched_block` on a queue with the given waiters. -/
def schedBlock (s : Sched) (cpu : Nat) (waiters : BitVec 32) : Sched × BitVec 32 :=
  (s.modify (s.current cpu) (Task.leave .blocked), waiters ||| waitBit (s.current cpu))

/-- The task `sched_wake` finds in the queue. -/
def firstWaiter (s : Sched) (waiters : BitVec 32) : Option Nat :=
  (List.range s.numTasks).find? fun i => decide (waiters &&& waitBit i ≠ 0)

/-- A waiter becomes ready. -/
def Task.wake (t : Task) : Task := { t with state := .ready }

/-- `sched_wake`. -/
def schedWake (s : Sched) (waiters : BitVec 32) : Sched × BitVec 32 :=
  if waiters = 0 then (s, waiters)
  else match firstWaiter s waiters with
    | some i => (s.modify i Task.wake, waiters &&& ~~~ waitBit i)
    | none => (s, waiters)

/-! ## What is picked

A task is eligible if it is ready, or due, and on no other core. -/

/-- What the scan makes of a task. -/
def Eligible (cpu now : Nat) (t : Task) : Prop :=
  (wakeDue now t).state = .ready ∧ t.elsewhere cpu = false

instance (cpu now : Nat) (t : Task) : Decidable (Eligible cpu now t) :=
  inferInstanceAs (Decidable (_ ∧ _))

@[simp] theorem wakeDue_priority (now : Nat) (t : Task) : (wakeDue now t).priority = t.priority := by
  unfold wakeDue
  split <;> rfl

@[simp] theorem wakeDue_runningOnCpu (now : Nat) (t : Task) :
    (wakeDue now t).runningOnCpu = t.runningOnCpu := by
  unfold wakeDue
  split <;> rfl

theorem wakeDue_elsewhere (now cpu : Nat) (t : Task) : (wakeDue now t).elsewhere cpu = t.elsewhere cpu := by
  unfold Task.elsewhere
  rw [wakeDue_runningOnCpu]

theorem wakeDue_wakeDue (now : Nat) (t : Task) : wakeDue now (wakeDue now t) = wakeDue now t := by
  by_cases h : t.state = .sleeping ∧ t.wakeTick ≤ now
  · have hw : wakeDue now t = { t with state := .ready, wakeTick := 0 } := if_pos h
    rw [hw]
    exact if_neg fun hs => TaskState.noConfusion hs.1
  have hw : wakeDue now t = t := if_neg h
  rw [hw, hw]

theorem wakeDue_of_ne {t : Task} (h : t.state ≠ .sleeping) : wakeDue now t = t :=
  if_neg fun hs => h hs.1

/-- The scan after some of the tasks: each one is as it was or woken, and the best one so far is the
last eligible one of the best priority. -/
structure ScanInv (cpu now : Nat) (tasks : Nat → Task) (cs : List Nat) (p : Pick) : Prop where
  woken : ∀ c, p.tasks c = tasks c ∨ p.tasks c = wakeDue now (tasks c)
  none_iff : p.best = none → ∀ c ∈ cs, ¬ Eligible cpu now (tasks c)
  some_spec : ∀ b, p.best = some b → b ∈ cs ∧ Eligible cpu now (tasks b) ∧
    p.bestPrio = (tasks b).priority ∧
    ∀ c ∈ cs, Eligible cpu now (tasks c) → (tasks b).priority ≤ (tasks c).priority

variable {tasks : Nat → Task} {cs : List Nat} {p : Pick} {c cur n : Nat}

section

variable {cpu now : Nat} (inv : ScanInv cpu now tasks cs p)
include inv

theorem ScanInv.wakeDue_eq (c : Nat) : wakeDue now (p.tasks c) = wakeDue now (tasks c) := by
  rcases inv.woken c with h | h
  · rw [h]
  rw [h, wakeDue_wakeDue]

/-- Whether a round takes the task it looks at. -/
theorem pickStep_eq (c : Nat) :
    pickStep cpu now p c = if Eligible cpu now (tasks c) ∧ (tasks c).priority ≤ p.bestPrio then
        ⟨update p.tasks c (wakeDue now (tasks c)), some c, (tasks c).priority⟩
      else { p with tasks := update p.tasks c (wakeDue now (tasks c)) } := by
  unfold pickStep Eligible
  simp only [inv.wakeDue_eq c, wakeDue_elsewhere, wakeDue_priority]
  by_cases hcpu : (tasks c).elsewhere cpu = true
  · rw [if_pos hcpu, if_neg fun h => Bool.false_ne_true (h.1.2.symm.trans hcpu)]
  rw [if_neg hcpu]
  rw [Bool.not_eq_true] at hcpu
  by_cases htake : (wakeDue now (tasks c)).state = .ready ∧ (tasks c).priority ≤ p.bestPrio
  · rw [if_pos htake, if_pos ⟨⟨htake.1, hcpu⟩, htake.2⟩]
  rw [if_neg htake, if_neg fun h => htake ⟨h.1.1, h.2⟩]

theorem ScanInv.step (hfirst : p.best = none → p.bestPrio = 255) (c : Nat) :
    ScanInv cpu now tasks (cs ++ [c]) (pickStep cpu now p c) := by
  have hwoken : ∀ d, update p.tasks c (wakeDue now (tasks c)) d = tasks d ∨
      update p.tasks c (wakeDue now (tasks c)) d = wakeDue now (tasks d) := by
    intro d
    by_cases hd : d = c
    · subst hd
      exact .inr (update_self ..)
    rw [update_of_ne hd]
    exact inv.woken d
  rw [pickStep_eq inv]
  by_cases htake : Eligible cpu now (tasks c) ∧ (tasks c).priority ≤ p.bestPrio
  · rw [if_pos htake]
    refine ⟨hwoken, nofun, fun b hb => ?_⟩
    obtain rfl : c = b := by simpa using hb
    refine ⟨mem_append_right _ mem_cons_self, htake.1, rfl, fun d hd hel => ?_⟩
    rcases mem_append.1 hd with hd | hd
    · cases hbest : p.best with
      | none => exact absurd hel (inv.none_iff hbest d hd)
      | some b =>
        obtain ⟨-, -, hprio, hmin⟩ := inv.some_spec b hbest
        exact le_trans htake.2 (hprio ▸ hmin d hd hel)
    rw [mem_singleton.1 hd]
  rw [if_neg htake]
  refine ⟨hwoken, fun hnone d hd => ?_, fun b hb => ?_⟩
  · rcases mem_append.1 hd with hd | hd
    · exact inv.none_iff hnone d hd
    rw [mem_singleton.1 hd]
    intro hel
    refine htake ⟨hel, ?_⟩
    rw [hfirst hnone]
    exact Fin.le_last _
  obtain ⟨hmem, hel, hprio, hmin⟩ := inv.some_spec b hb
  refine ⟨mem_append_left _ hmem, hel, hprio, fun d hd held => ?_⟩
  rcases mem_append.1 hd with hd | hd
  · exact hmin d hd held
  rw [mem_singleton.1 hd] at held ⊢
  by_contra hlt
  refine htake ⟨held, ?_⟩
  rw [hprio]
  exact le_of_lt (not_le.1 hlt)

end

theorem pickStep_first (h : p.best = none → p.bestPrio = 255) :
    (pickStep cpu now p c).best = none → (pickStep cpu now p c).bestPrio = 255 := by
  unfold pickStep
  simp only
  split
  · exact h
  split
  · exact nofun
  exact h

theorem scan_spec (cpu now : Nat) (tasks : Nat → Task) (cs : List Nat) :
    ScanInv cpu now tasks cs (cs.foldl (pickStep cpu now) ⟨tasks, none, 255⟩) ∧
      ((cs.foldl (pickStep cpu now) ⟨tasks, none, 255⟩).best = none →
        (cs.foldl (pickStep cpu now) ⟨tasks, none, 255⟩).bestPrio = 255) := by
  induction cs using reverseRecOn with
  | nil =>
    exact ⟨⟨fun c => .inl rfl, fun _ c hc => absurd hc not_mem_nil, fun b hb => nomatch hb⟩, fun _ => rfl⟩
  | append_singleton cs c ih =>
    rw [foldl_append, foldl_cons, foldl_nil]
    exact ⟨ih.1.step ih.2 c, pickStep_first ih.2⟩

theorem mem_scanOrder (h : c ∈ scanOrder cur n) : c < n := by
  obtain ⟨i, hi, rfl⟩ := mem_map.1 h
  exact Nat.mod_lt _ (by have := mem_range.1 hi; omega)

/-- The scan visits every task, the current one last. -/
theorem scanOrder_succ (hcur : cur < n) : ∃ cs, scanOrder cur n = cs ++ [cur] := by
  obtain _ | k := n
  · omega
  refine ⟨(range k).map fun i => (cur + 1 + i) % (k + 1), ?_⟩
  rw [scanOrder, range_succ, map_append, map_singleton,
    show cur + 1 + k = cur + (k + 1) by omega, Nat.add_mod_right, Nat.mod_eq_of_lt hcur]

theorem mem_scanOrder_of_lt (hcur : cur < n) (hc : c < n) : c ∈ scanOrder cur n := by
  refine mem_map.2 ⟨(c + n - (cur + 1)) % n, mem_range.2 (Nat.mod_lt _ (by omega)), ?_⟩
  rcases Nat.lt_or_ge c (cur + 1) with h | h
  · rw [Nat.mod_eq_of_lt (show c + n - (cur + 1) < n by omega),
      show cur + 1 + (c + n - (cur + 1)) = c + n by omega, Nat.add_mod_right, Nat.mod_eq_of_lt hc]
  rw [show c + n - (cur + 1) = (c - (cur + 1)) + n by omega, Nat.add_mod_right,
    Nat.mod_eq_of_lt (show c - (cur + 1) < n by omega),
    show cur + 1 + (c - (cur + 1)) = c by omega, Nat.mod_eq_of_lt hc]

/-! ### `pick_next` as a whole -/

section Pick

variable {s : Sched} {cpu now : Nat}

/-- Whatever is chosen, the table is the one the scan leaves. -/
theorem pickNext_snd : (pickNext s cpu now).2 = { s with tasks := (scan s cpu now).tasks } := by
  unfold pickNext
  simp only
  split
  · rfl
  split
  · rfl
  split <;> rfl

theorem pickNext_of_some {b : Nat} (h : (scan s cpu now).best = some b) : (pickNext s cpu now).1 = b := by
  unfold pickNext
  simp only [h]

theorem scan_inv (s : Sched) (cpu now : Nat) :
    ScanInv cpu now s.tasks (scanOrder (s.current cpu) s.numTasks) (scan s cpu now) :=
  (scan_spec cpu now s.tasks _).1

@[simp] theorem pickNext_numTasks : (pickNext s cpu now).2.numTasks = s.numTasks := by rw [pickNext_snd]

@[simp] theorem pickNext_current : (pickNext s cpu now).2.current = s.current := by rw [pickNext_snd]

theorem pickNext_tasks (c : Nat) : (pickNext s cpu now).2.tasks c = s.tasks c ∨
    (pickNext s cpu now).2.tasks c = wakeDue now (s.tasks c) := by
  rw [pickNext_snd]
  exact (scan_inv s cpu now).woken c

/-- With an eligible task there is a choice, of the best priority. -/
theorem pickNext_eligible (hcur : s.current cpu < s.numTasks)
    (h : ∃ c < s.numTasks, Eligible cpu now (s.tasks c)) :
    (pickNext s cpu now).1 < s.numTasks ∧ Eligible cpu now (s.tasks (pickNext s cpu now).1) ∧
      ∀ c < s.numTasks, Eligible cpu now (s.tasks c) →
        (s.tasks (pickNext s cpu now).1).priority ≤ (s.tasks c).priority := by
  obtain ⟨c, hc, hel⟩ := h
  have hinv := scan_inv s cpu now
  cases hbest : (scan s cpu now).best with
  | none => exact absurd hel (hinv.none_iff hbest c (mem_scanOrder_of_lt hcur hc))
  | some b =>
    obtain ⟨hb, hbel, -, hmin⟩ := hinv.some_spec b hbest
    rw [pickNext_of_some hbest]
    exact ⟨mem_scanOrder hb, hbel, fun d hd hdel => hmin d (mem_scanOrder_of_lt hcur hd) hdel⟩

/-- **Ties go to the current task**: it comes last in the scan, and `<=` lets it win. -/
theorem pickNext_current_of_best (hcur : s.current cpu < s.numTasks)
    (hel : Eligible cpu now (s.tasks (s.current cpu)))
    (hmin : ∀ c < s.numTasks, Eligible cpu now (s.tasks c) →
      (s.tasks (s.current cpu)).priority ≤ (s.tasks c).priority) :
    (pickNext s cpu now).1 = s.current cpu := by
  obtain ⟨cs, hcs⟩ := scanOrder_succ hcur
  obtain ⟨hinv, hfirst⟩ := scan_spec cpu now s.tasks cs
  apply pickNext_of_some
  rw [scan, hcs, foldl_append, foldl_cons, foldl_nil]
  generalize cs.foldl (pickStep cpu now) ⟨s.tasks, none, 255⟩ = p at hinv hfirst
  have hle : (s.tasks (s.current cpu)).priority ≤ p.bestPrio := by
    cases hbest : p.best with
    | none =>
      rw [hfirst hbest]
      exact Fin.le_last _
    | some b => ?_
    obtain ⟨hb, hbel, hprio, -⟩ := hinv.some_spec b hbest
    have hmem : b ∈ scanOrder (s.current cpu) s.numTasks := by
      rw [hcs]
      exact mem_append_left _ hb
    rw [hprio]
    exact hmin b (mem_scanOrder hmem) hbel
  rw [pickStep_eq hinv, if_pos ⟨hel, hle⟩]

/-- The choice: an eligible task, or the current one. -/
theorem pickNext_cases : Eligible cpu now (s.tasks (pickNext s cpu now).1) ∨
    (pickNext s cpu now).1 = s.current cpu := by
  have hinv := scan_inv s cpu now
  cases hbest : (scan s cpu now).best with
  | some b =>
    rw [pickNext_of_some hbest]
    exact .inl (hinv.some_spec b hbest).2.1
  | none => ?_
  unfold pickNext
  simp only [hbest]
  split
  · exact .inr rfl
  cases hany : anyReady { s with tasks := (scan s cpu now).tasks } with
  | none => exact .inr rfl
  | some i => ?_
  -- the table has been gone through: what is ready now was ready or due
  left
  have hi := find?_some hany
  simp only [Bool.and_eq_true, decide_eq_true_eq, Option.isNone_iff_eq_none] at hi
  rcases hinv.woken i with hw | hw
  · rw [hw] at hi
    refine ⟨?_, ?_⟩
    · rw [wakeDue_of_ne (by rw [hi.1]; decide)]
      exact hi.1
    rw [Task.elsewhere, hi.2]
    rfl
  rw [hw] at hi
  refine ⟨hi.1, ?_⟩
  rw [← wakeDue_elsewhere now, Task.elsewhere, hi.2]
  rfl

theorem pickNext_lt (hcur : s.current cpu < s.numTasks) : (pickNext s cpu now).1 < s.numTasks := by
  have hinv := scan_inv s cpu now
  cases hbest : (scan s cpu now).best with
  | some b =>
    rw [pickNext_of_some hbest]
    exact mem_scanOrder (hinv.some_spec b hbest).1
  | none => ?_
  unfold pickNext
  simp only [hbest]
  split
  · exact hcur
  split
  next i hany => exact mem_range.1 (mem_of_find?_eq_some hany)
  · exact hcur

end Pick

/-! ### `sched_preempt` -/

section Preempt

variable {s : Sched} {cpu oldSp now : Nat}

/-- The table in which `pick_next` chooses. -/
def savedTable (s : Sched) (cpu oldSp now : Nat) : Sched :=
  s.modify (s.current cpu) (saveOld oldSp now)

/-- The next task. -/
def nextTask (s : Sched) (cpu oldSp now : Nat) : Nat :=
  (pickNext (savedTable s cpu oldSp now) cpu now).1

@[simp] theorem schedPreempt_numTasks :
    (schedPreempt s cpu oldSp now).2.numTasks = s.numTasks := pickNext_numTasks

theorem schedPreempt_current : (schedPreempt s cpu oldSp now).2.current =
    update s.current cpu (nextTask s cpu oldSp now) := by
  have h := @pickNext_current (savedTable s cpu oldSp now) cpu now
  show update (pickNext (savedTable s cpu oldSp now) cpu now).2.current cpu _ = _
  rw [h]
  rfl

/-- The incoming task. -/
def switchIn (cpu now : Nat) (t : Task) : Task :=
  { t with state := .running, runningOnCpu := some cpu, lastSwitchIn := now }

theorem schedPreempt_tasks : (schedPreempt s cpu oldSp now).2.tasks =
    update (pickNext (savedTable s cpu oldSp now) cpu now).2.tasks (nextTask s cpu oldSp now)
      (switchIn cpu now ((pickNext (savedTable s cpu oldSp now) cpu now).2.tasks
        (nextTask s cpu oldSp now))) := rfl

theorem schedPreempt_next : (schedPreempt s cpu oldSp now).2.tasks (nextTask s cpu oldSp now) =
    switchIn cpu now ((pickNext (savedTable s cpu oldSp now) cpu now).2.tasks
      (nextTask s cpu oldSp now)) := by rw [schedPreempt_tasks, update_self]

theorem schedPreempt_other (h : c ≠ nextTask s cpu oldSp now) : (schedPreempt s cpu oldSp now).2.tasks c =
      (pickNext (savedTable s cpu oldSp now) cpu now).2.tasks c := by
  rw [schedPreempt_tasks, update_of_ne h]

@[simp] theorem saveOld_priority (t : Task) : (saveOld oldSp now t).priority = t.priority := by
  unfold saveOld
  simp only
  split <;> rfl

theorem savedTable_priority (c : Nat) :
    ((savedTable s cpu oldSp now).tasks c).priority = (s.tasks c).priority := by
  by_cases hc : c = s.current cpu
  · subst hc
    rw [savedTable, Sched.modify_self, saveOld_priority]
  rw [savedTable, Sched.modify_of_ne hc]

theorem schedPreempt_priority (c : Nat) :
    ((schedPreempt s cpu oldSp now).2.tasks c).priority = (s.tasks c).priority := by
  have hpick : ((pickNext (savedTable s cpu oldSp now) cpu now).2.tasks c).priority =
      (s.tasks c).priority := by
    rw [← @savedTable_priority s cpu oldSp now c]
    rcases pickNext_tasks c with h | h
    · rw [h]
    rw [h, wakeDue_priority]
  by_cases hc : c = nextTask s cpu oldSp now
  · subst hc
    rw [schedPreempt_next]
    exact hpick
  rw [schedPreempt_other hc]
  exact hpick

end Preempt

end Embedded.Rtos
