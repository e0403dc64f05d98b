import Embedded.Kernel.Sched

/-! # The process table as a machine of its own

A `Table` is what `proc.c` decides by: the process control blocks without registers, memory and
files. `TStep` are the moves a system call, a tick or a fault can make with it, and `Table.Ok` is
the invariant of all of them: pids are unique, the running process is the current one, a parent
pointer leads to the process that forked the child or to init when that one is gone, and nobody
sleeps in `wait` with a dead child or without a child. -/

namespace Embedded.Kernel

open Function (update update_self update_of_ne)

/-- The slot is taken. -/
def Task.inUse (t : Task) : Prop := t.state ≠ .unused

/-- The process in slot `i` sleeps in `wait`: `proc_wait` sleeps on the caller's control block. -/
def Task.waits (t : Task) (i : Slot) : Prop := t.state = .blocked ∧ t.waitChan = some (.proc i)

/-- `t'` is `t`, or `t` woken up. -/
def Task.Awake (t t' : Task) : Prop := t' = t ∨ t.Woken t'

/-- The process table. -/
structure Table where
  tasks : Slot → Task
  cur : Slot
  nextPid : Nat
  halted : Bool

/-- What the table says of a kernel state. -/
def KState.table (k : KState) : Table :=
  { tasks := k.tasks, cur := k.cur, nextPid := k.nextPid, halted := k.halted }

namespace Table

/-- The slot of init, as `reap_current_and_switch` looks for it. -/
def initSlot (t : Table) : Option Slot :=
  (List.finRange 8).find? fun i =>
    decide ((t.tasks i).pid = 1) && decide ((t.tasks i).state ≠ .unused)

/-- Slot `i` holds a child that the dying current process hands over. -/
def Orphan (t : Table) (i : Slot) : Prop :=
  i ≠ t.cur ∧ (t.tasks i).inUse ∧ (t.tasks i).parent = some t.cur

/-- What the death of the current process makes of the table. -/
structure Exited (t t' : Table) : Prop where
  cur : t'.cur = t.cur
  nextPid : t'.nextPid = t.nextPid
  halted : t'.halted = t.halted
  dead : ∃ code sig, t'.tasks t.cur
    = { t.tasks t.cur with state := .zombie, exitCode := code, killedSig := sig }
  /-- A child goes to init, if there is another process that is init. -/
  moved : ∀ i, t.Orphan i → ∀ p, t.initSlot = some p → p ≠ t.cur →
    ({ t.tasks i with parent := some p } : Task).Awake (t'.tasks i)
  kept : ∀ i, i ≠ t.cur → (t.Orphan i → ∀ p, t.initSlot = some p → p = t.cur) →
    (t.tasks i).Awake (t'.tasks i)
  /-- Init is woken for a dead child. -/
  initAwake : ∀ i, t.Orphan i → (t.tasks i).state = .zombie → ∀ p, t.initSlot = some p →
    p ≠ t.cur → ¬ (t'.tasks p).waits p
  /-- The parent is woken. -/
  parentAwake : ∀ p, (t.tasks t.cur).parent = some p → ¬ (t'.tasks p).waits p

/-- Slot `i` has a child, and no dead one. -/
def Waiter (t : Table) (i : Slot) : Prop :=
  (∃ m, (t.tasks m).inUse ∧ (t.tasks m).parent = some i) ∧
    ∀ m, (t.tasks m).state = .zombie → (t.tasks m).parent ≠ some i

/-- The entry `do_fork` makes for the child. -/
def child (t : Table) : Task :=
  { pid := t.nextPid, state := .runnable, parent := some t.cur, creator := (t.tasks t.cur).pid }

/-- `switch_to`. -/
def switch (t : Table) (nx : Slot) : Table :=
  { t with tasks := update t.tasks nx { t.tasks nx with state := .running }, cur := nx }

/-- The current process's entry changes. -/
def setCur (t : Table) (s : Task) : Table := { t with tasks := update t.tasks t.cur s }

end Table

/-- The moves. -/
inductive TStep (t : Table) : Table → Prop
  /-- File calls wake sleepers. -/
  | wake (tasks : Slot → Task) (h : ∀ i, (t.tasks i).Awake (tasks i)) :
      TStep t { t with tasks := tasks }
  /-- `fork` spends a pid and gives the slot back. -/
  | forkFailed (i : Slot) (hi : (t.tasks i).state = .unused) (s : Task) (hs : s.state = .unused) :
      TStep t { t with tasks := update t.tasks i s, nextPid := t.nextPid + 1 }
  /-- `fork` fills a slot. -/
  | fork (i : Slot) (hi : (t.tasks i).state = .unused) :
      TStep t { t with tasks := update t.tasks i t.child, nextPid := t.nextPid + 1 }
  /-- `wait` collects a dead child. -/
  | collect (i : Slot) (hi : (t.tasks i).state = .zombie) (hp : (t.tasks i).parent = some t.cur) :
      TStep t { t with tasks := update t.tasks i { t.tasks i with state := .unused } }
  /-- The caller sleeps; in `wait` only with a child, and none of them dead. -/
  | sleep (c : Chan) (nx : Slot) (hne : nx ≠ t.cur) (hnx : (t.tasks nx).state = .runnable)
      (hwait : ∀ j, c = .proc j → j = t.cur ∧ t.Waiter t.cur) :
      TStep t
        ((t.setCur { t.tasks t.cur with waitChan := some c, state := .blocked }).switch nx)
  /-- A tick. -/
  | preempt (nx : Slot) (hne : nx ≠ t.cur) (hnx : (t.tasks nx).state = .runnable) :
      TStep t ((t.setCur { t.tasks t.cur with state := .runnable }).switch nx)
  /-- The current process dies, another one runs. -/
  | exit (t' : Table) (h : t.Exited t') (nx : Slot) (hnx : (t'.tasks nx).state = .runnable) :
      TStep t (t'.switch nx)
  /-- The current process dies, and there is no other that could run. -/
  | exitLast (t' : Table) (h : t.Exited t') : TStep t { t' with halted := true }
  /-- A fault in the kernel. -/
  | stop : TStep t { t with halted := true }

/-! ## The invariant -/

namespace Table

/-- The process with pid `c` has exited. -/
def Gone (t : Table) (c : Nat) : Prop :=
  ∀ i, (t.tasks i).inUse → (t.tasks i).pid = c → (t.tasks i).state = .zombie

/-- Who is whose parent. Init sits in slot 0. -/
structure Family (t : Table) : Prop where
  pidLt : ∀ i, (t.tasks i).inUse → (t.tasks i).pid < t.nextPid
  creatorLt : ∀ i, (t.tasks i).inUse → (t.tasks i).creator < (t.tasks i).pid
  pidInj : ∀ i j, (t.tasks i).inUse → (t.tasks j).inUse → (t.tasks i).pid = (t.tasks j).pid → i = j
  init : (t.tasks 0).inUse ∧ (t.tasks 0).pid = 1 ∧ (t.tasks 0).parent = none
  parent : ∀ i j, (t.tasks i).inUse → (t.tasks i).parent = some j → (t.tasks j).inUse ∧
    ((t.tasks j).pid = (t.tasks i).creator ∨ (j = 0 ∧ t.Gone (t.tasks i).creator))
  /-- The children of a dead process were handed over, unless it was init. -/
  dead : ∀ i j, (t.tasks i).inUse → (t.tasks i).parent = some j → (t.tasks j).state = .zombie → j = 0

/-- Who sleeps on a control block sleeps on its own, has a child, and none of its children is
    dead. -/
def WaitOk (t : Table) : Prop := ∀ i j, (t.tasks i).waits j → j = i ∧ t.Waiter i

/-- The invariant of the process table. -/
structure Ok (t : Table) : Prop extends Family t where
  running : ∀ i, (t.tasks i).state = .running → i = t.cur
  cur : t.halted = false → (t.tasks t.cur).state = .running
  wait : t.WaitOk

end Table

/-- `s'` has the relations of `s`: it may be in another state, but not unused or dead. -/
structure Task.SameFamily (s s' : Task) : Prop where
  pid : s'.pid = s.pid
  parent : s'.parent = s.parent
  creator : s'.creator = s.creator
  inUse : s'.inUse ↔ s.inUse
  zombie : s'.state = .zombie ↔ s.state = .zombie

theorem Task.SameFamily.refl (s : Task) : s.SameFamily s := ⟨rfl, rfl, rfl, Iff.rfl, Iff.rfl⟩

theorem Task.SameFamily.stopped {t : Task} (ht : t.state = .running) {w : Option Chan} {s : PState}
    (hu : s ≠ .unused) (hz : s ≠ .zombie) : t.SameFamily { t with waitChan := w, state := s } :=
  ⟨rfl, rfl, rfl, by simp [Task.inUse, ht, hu], by simp [ht, hz]⟩

variable {s s' : Task} {i j nx : Slot}

theorem Task.Awake.sameFamily (h : s.Awake s') : s.SameFamily s' := by
  rcases h with rfl | ⟨hs, rfl⟩
  · exact .refl s'
  exact ⟨rfl, rfl, rfl, by simp [Task.inUse, hs], by simp [hs]⟩

theorem Task.Awake.waits (h : s.Awake s') (hw : s'.waits j) : s.waits j := by
  rcases h with rfl | ⟨hs, rfl⟩
  · exact hw
  exact absurd hw.1 (by simp)

theorem Task.Awake.running (h : s.Awake s') : s'.state = .running ↔ s.state = .running := by
  rcases h with rfl | ⟨hs, rfl⟩
  · exact Iff.rfl
  simp [hs]

theorem Task.Awake.trans {s1 s2 : Task} (h : s.Awake s1) (h' : s1.Awake s2) : s.Awake s2 := by
  rcases h with rfl | ⟨hs, rfl⟩
  · exact h'
  rcases h' with rfl | ⟨hs', _⟩
  · exact .inr ⟨hs, rfl⟩
  simp at hs'

namespace Table

section Moves

variable {t t' : Table}

theorem Family.congr (h : t.Family) (hs : ∀ i, (t.tasks i).SameFamily (t'.tasks i))
    (hn : t'.nextPid = t.nextPid) : t'.Family := by
  have hpid := fun i => (hs i).pid
  have hpar := fun i => (hs i).parent
  have hcr := fun i => (hs i).creator
  have huse := fun i => (hs i).inUse
  have hz := fun i => (hs i).zombie
  refine ⟨?_, ?_, ?_, ?_, ?_, ?_⟩
  · simpa only [hpid, huse, hn] using h.pidLt
  · simpa only [hpid, hcr, huse] using h.creatorLt
  · simpa only [hpid, huse] using h.pidInj
  · simpa only [hpid, hpar, huse] using h.init
  · simpa only [Gone, hpid, hpar, hcr, huse, hz] using h.parent
  simpa only [hpar, huse, hz] using h.dead

theorem Waiter.congr (h : t.Waiter i) (hs : ∀ i, (t.tasks i).SameFamily (t'.tasks i)) : t'.Waiter i := by
  obtain ⟨⟨m, hm, hmp⟩, hz⟩ := h
  refine ⟨⟨m, (hs m).inUse.2 hm, (hs m).parent.trans hmp⟩, fun m hm => ?_⟩
  rw [(hs m).parent]
  exact hz m ((hs m).zombie.1 hm)

/-- Moves that change no relation, and put nobody to sleep in `wait`, keep the sleepers right. -/
theorem WaitOk.congr (h : t.WaitOk) (hs : ∀ i, (t.tasks i).SameFamily (t'.tasks i))
    (hw : ∀ i j, (t'.tasks i).waits j → (t.tasks i).waits j) : t'.WaitOk :=
  fun i j hij => (h i j (hw i j hij)).imp_right fun h => h.congr hs

theorem Ok.wake (h : t.Ok) (tasks : Slot → Task) (hw : ∀ i, (t.tasks i).Awake (tasks i)) :
    Ok { t with tasks := tasks } :=
  { toFamily := h.toFamily.congr (fun i => (hw i).sameFamily) rfl
    running := fun i hi => h.running i ((hw i).running.1 hi)
    cur := fun hh => (hw _).running.2 (h.cur hh)
    wait := h.wait.congr (fun i => (hw i).sameFamily) fun i _ => (hw i).waits }

theorem switch_sameFamily (hnx : (t.tasks nx).state = .runnable) (i : Slot) :
    (t.tasks i).SameFamily ((t.switch nx).tasks i) := by
  simp only [switch]
  by_cases hi : i = nx
  · subst hi
    rw [update_self]
    exact ⟨rfl, rfl, rfl, by simp [Task.inUse, hnx], by simp [hnx]⟩
  rw [update_of_ne hi]
  exact .refl _

theorem switch_waits (h : ((t.switch nx).tasks i).waits j) : i ≠ nx ∧ (t.tasks i).waits j := by
  simp only [switch] at h
  by_cases hi : i = nx
  · subst hi
    exact absurd h.1 (by simp)
  rw [update_of_ne hi] at h
  exact ⟨hi, h⟩

/-- Entering a runnable process when nobody runs any more. -/
theorem switch_ok (hf : t.Family) (hw : t.WaitOk) (hrun : ∀ i, (t.tasks i).state ≠ .running)
    (hnx : (t.tasks nx).state = .runnable) : (t.switch nx).Ok :=
  { toFamily := hf.congr (switch_sameFamily hnx) rfl
    running := fun i hi => by
      by_contra hne
      simp only [switch] at hi hne
      rw [update_of_ne hne] at hi
      exact hrun i hi
    cur := fun _ => by simp only [switch, update_self]
    wait := hw.congr (switch_sameFamily hnx) fun _ _ h => (switch_waits h).2 }

/-- The current process stops running and another one is entered. -/
theorem Ok.leave (h : t.Ok) (hs : (t.tasks t.cur).SameFamily s)
    (hns : s.state ≠ .running) (hwait : ∀ j, s.waits j → j = t.cur ∧ t.Waiter t.cur)
    (hne : nx ≠ t.cur) (hnx : (t.tasks nx).state = .runnable) : ((t.setCur s).switch nx).Ok := by
  have hall : ∀ i, (t.tasks i).SameFamily ((t.setCur s).tasks i) := by
    intro i
    simp only [setCur]
    by_cases hi : i = t.cur
    · rw [hi, update_self]
      exact hs
    rw [update_of_ne hi]
    exact .refl _
  refine switch_ok (h.toFamily.congr hall rfl) ?_ (fun i => ?_) ?_
  · intro i j hw
    simp only [setCur] at hw
    by_cases hi : i = t.cur
    · subst hi
      rw [update_self] at hw
      exact (hwait j hw).imp_right fun h => h.congr hall
    rw [update_of_ne hi] at hw
    exact (h.wait i j hw).imp_right fun h => h.congr hall
  · simp only [setCur]
    by_cases hi : i = t.cur
    · rwa [hi, update_self]
    rw [update_of_ne hi]
    exact fun hr => hi (h.running i hr)
  simp only [setCur]
  rwa [update_of_ne hne]

/-- Nobody in use refers to an unused slot, so its entry does not matter. -/
theorem Ok.setUnused (h : t.Ok) (hs : s.state = .unused) (hi : (t.tasks i).state ≠ .running) (hi0 : i ≠ 0)
    (hchild : ∀ m, (t.tasks m).inUse → (t.tasks m).parent ≠ some i)
    (hwait : ∀ j, (t.tasks j).state = .blocked → (t.tasks i).inUse → (t.tasks i).parent ≠ some j)
    {n : Nat} (hn : t.nextPid ≤ n) :
    Ok { t with tasks := update t.tasks i s, nextPid := n } := by
  have hother : ∀ m, (update t.tasks i s m).inUse → update t.tasks i s m = t.tasks m := by
    intro m hm
    have hmi : m ≠ i := by
      rintro rfl
      rw [update_self] at hm
      exact hm hs
    exact update_of_ne hmi ..
  have hkeep : ∀ m, m ≠ i → update t.tasks i s m = t.tasks m := fun m hm => update_of_ne hm ..
  have husing : ∀ {m : Slot} {st : PState}, st ≠ .unused →
      (update t.tasks i s m).state = st → (update t.tasks i s m).inUse := by
    intro m st hst h
    rw [Task.inUse, h]
    exact hst
  refine ⟨⟨fun m hm => ?_, fun m hm => ?_, fun m m' hm hm' heq => ?_, ?_, fun m j hm hj => ?_,
    fun m j hm hj hz => ?_⟩, fun m hm => ?_, fun hh => ?_, fun m j hw => ?_⟩
  · simp only [hother m hm] at hm ⊢
    exact (h.pidLt m hm).trans_le hn
  · simp only [hother m hm] at hm ⊢
    exact h.creatorLt m hm
  · simp only [hother m hm, hother m' hm'] at hm hm' heq
    exact h.pidInj m m' hm hm' heq
  · simp only [hkeep 0 hi0.symm]
    exact h.init
  · simp only [hother m hm] at hm hj ⊢
    have hji : j ≠ i := by
      rintro rfl
      exact hchild m hm hj
    rw [hkeep j hji]
    refine (h.parent m j hm hj).imp_right (Or.imp_right fun hg => ⟨hg.1, fun m' hm' hpid => ?_⟩)
    simp only [hother m' hm'] at hm' hpid ⊢
    exact hg.2 m' hm' hpid
  · simp only [hother m hm] at hm hj
    have hji : j ≠ i := by
      rintro rfl
      exact hchild m hm hj
    simp only [hkeep j hji] at hz
    exact h.dead m j hm hj hz
  · have hm' := hother m (husing (by decide) hm)
    simp only [hm'] at hm
    exact h.running m hm
  · have hc := h.cur hh
    have hci : t.cur ≠ i := by
      intro heq
      rw [heq] at hc
      exact hi hc
    simp only [hkeep _ hci]
    exact hc
  have hm' := hother m (husing (by decide) hw.1)
  simp only [hm'] at hw
  obtain ⟨hj, ⟨c, hc, hcp⟩, hz⟩ := h.wait m j hw
  have hci : c ≠ i := by
    rintro rfl
    exact hwait m hw.1 hc hcp
  refine ⟨hj, ⟨c, ?_, ?_⟩, fun c hc => ?_⟩
  · simp only [hkeep c hci]
    exact hc
  · simp only [hkeep c hci]
    exact hcp
  have hc' := hother c (husing (by decide) hc)
  simp only [hc'] at hc ⊢
  exact hz c hc

theorem Ok.fork (h : t.Ok) (hrun : t.halted = false) (hi : (t.tasks i).state = .unused) :
    Ok { t with tasks := update t.tasks i t.child, nextPid := t.nextPid + 1 } := by
  have hcur := h.cur hrun
  have hcuse : (t.tasks t.cur).inUse := by
    rw [Task.inUse, hcur]
    decide
  -- a slot in use, or one a slot in use refers to, is not the new one
  have hne : ∀ m, (t.tasks m).inUse → m ≠ i := by
    rintro m hm rfl
    exact hm hi
  have hpid : t.child.pid = t.nextPid := rfl
  have hpar : t.child.parent = some t.cur := rfl
  have hst : t.child.state = .runnable := rfl
  have hcr : t.child.creator = (t.tasks t.cur).pid := rfl
  generalize t.child = s at hpid hpar hst hcr
  have hself : update t.tasks i s i = s := update_self ..
  have hkeep : ∀ m, m ≠ i → update t.tasks i s m = t.tasks m := fun m hm => update_of_ne hm ..
  refine ⟨⟨fun m hm => ?_, fun m hm => ?_, fun m m' hm hm' heq => ?_, ?_, fun m j hm hj => ?_,
    fun m j hm hj hz => ?_⟩, fun m hm => ?_, fun _ => ?_, fun m j hw => ?_⟩
  · by_cases hmi : m = i
    · simp only [hmi, hself, hpid]
      omega
    simp only [hkeep m hmi] at hm ⊢
    exact (h.pidLt m hm).trans (Nat.lt_succ_self _)
  · by_cases hmi : m = i
    · simp only [hmi, hself, hpid, hcr]
      exact h.pidLt _ hcuse
    simp only [hkeep m hmi] at hm ⊢
    exact h.creatorLt m hm
  · by_cases hmi : m = i <;> by_cases hmi' : m' = i
    · rw [hmi, hmi']
    · simp only [hmi, hself, hpid, hkeep m' hmi'] at heq hm'
      have := h.pidLt m' hm'
      omega
    · simp only [hmi', hself, hpid, hkeep m hmi] at heq hm
      have := h.pidLt m hm
      omega
    simp only [hkeep m hmi, hkeep m' hmi'] at hm hm' heq
    exact h.pidInj m m' hm hm' heq
  · simp only [hkeep 0 (hne 0 h.init.1)]
    exact h.init
  · by_cases hmi : m = i
    · simp only [hmi, hself, hpar, hcr, Option.some.injEq] at hj ⊢
      subst hj
      rw [hkeep _ (hne _ hcuse)]
      exact ⟨hcuse, .inl rfl⟩
    simp only [hkeep m hmi] at hm hj ⊢
    have hp := h.parent m j hm hj
    rw [hkeep j (hne j hp.1)]
    refine hp.imp_right (Or.imp_right fun hg => ⟨hg.1, fun m' hm' heq => ?_⟩)
    by_cases hmi' : m' = i
    · -- the new pid is larger than any creator's
      simp only [hmi', hself, hpid] at heq
      have := h.pidLt m hm
      have := h.creatorLt m hm
      omega
    simp only [hkeep m' hmi'] at hm' heq ⊢
    exact hg.2 m' hm' heq
  · by_cases hmi : m = i
    · simp only [hmi, hself, hpar] at hj
      cases hj
      simp only [hkeep _ (hne _ hcuse), hcur] at hz
      cases hz
    simp only [hkeep m hmi] at hm hj
    simp only [hkeep j (hne j (h.parent m j hm hj).1)] at hz
    exact h.dead m j hm hj hz
  · by_cases hmi : m = i
    · simp only [hmi, hself, hst] at hm
      cases hm
    simp only [hkeep m hmi] at hm
    exact h.running m hm
  · simp only [hkeep _ (hne _ hcuse)]
    exact hcur
  by_cases hmi : m = i
  · simp only [hmi, hself] at hw
    exact absurd (hst.symm.trans hw.1) (by decide)
  simp only [hkeep m hmi] at hw
  obtain ⟨hj, ⟨c, hc, hcp⟩, hz⟩ := h.wait m j hw
  refine ⟨hj, ⟨c, ?_, ?_⟩, fun c hc => ?_⟩
  · simp only [hkeep c (hne c hc)]
    exact hc
  · simp only [hkeep c (hne c hc)]
    exact hcp
  by_cases hci : c = i
  · simp only [hci, hself, hst] at hc
    cases hc
  simp only [hkeep c hci] at hc ⊢
  exact hz c hc

end Moves

/-! ## Death of a process -/

section Exit

variable {t t' : Table}

theorem Family.initSlot_eq (h : t.Family) : t.initSlot = some 0 := by
  unfold initSlot
  cases hf : (List.finRange 8).find? fun i =>
      decide ((t.tasks i).pid = 1) && decide ((t.tasks i).state ≠ .unused) with
  | none =>
    have h0 := List.find?_eq_none.1 hf 0 (List.mem_finRange 0)
    simp only [Bool.and_eq_true, decide_eq_true_eq, not_and] at h0
    exact absurd h.init.1 (h0 h.init.2.1)
  | some p =>
    have hp := List.find?_some hf
    simp only [Bool.and_eq_true, decide_eq_true_eq] at hp
    rw [h.pidInj p 0 hp.2 h.init.1 (hp.1.trans h.init.2.1.symm)]

variable (h : t.Exited t')
include h

variable (hf : t.Family)
include hf

theorem Exited.other (hi : i ≠ t.cur) :
    (t.Orphan i ∧ t.cur ≠ 0 ∧ ({ t.tasks i with parent := some 0 } : Task).Awake (t'.tasks i)) ∨
    ((t.Orphan i → t.cur = 0) ∧ (t.tasks i).Awake (t'.tasks i)) := by
  by_cases ho : t.Orphan i ∧ t.cur ≠ 0
  · exact .inl ⟨ho.1, ho.2, h.moved i ho.1 0 hf.initSlot_eq fun h0 => ho.2 h0.symm⟩
  refine .inr ⟨fun h0 => by_contra fun hc => ho ⟨h0, hc⟩, h.kept i hi fun h0 p hp => ?_⟩
  rw [hf.initSlot_eq, Option.some.injEq] at hp
  rw [← hp]
  exact (by_contra fun hc => ho ⟨h0, fun h => hc h.symm⟩)

/-- The entry of another process is what it was, but for its parent, or woken up. -/
theorem Exited.awake (hi : i ≠ t.cur) : ∃ p, ({ t.tasks i with parent := p } : Task).Awake (t'.tasks i) := by
  rcases h.other hf hi with ⟨_, _, ha⟩ | ⟨_, ha⟩
  · exact ⟨_, ha⟩
  exact ⟨_, ha⟩

/-- What a death leaves of an entry. -/
theorem Exited.same (hcur : (t.tasks t.cur).inUse) (i : Slot) :
    (t'.tasks i).pid = (t.tasks i).pid ∧ (t'.tasks i).creator = (t.tasks i).creator ∧
    ((t'.tasks i).inUse ↔ (t.tasks i).inUse) := by
  by_cases hi : i = t.cur
  · obtain ⟨code, sig, hd⟩ := h.dead
    rw [hi, hd]
    exact ⟨rfl, rfl, iff_of_true (by simp [Task.inUse]) hcur⟩
  obtain ⟨p, ha⟩ := h.awake hf hi
  exact ⟨ha.sameFamily.pid, ha.sameFamily.creator, ha.sameFamily.inUse⟩

theorem Exited.zombie : (t'.tasks i).state = .zombie ↔ i = t.cur ∨ (t.tasks i).state = .zombie := by
  by_cases hi : i = t.cur
  · obtain ⟨code, sig, hd⟩ := h.dead
    rw [hi, hd]
    simp
  obtain ⟨p, ha⟩ := h.awake hf hi
  simp [ha.sameFamily.zombie, hi]

/-- The new parent: init for a handed over child, the old one otherwise. -/
theorem Exited.parent (i : Slot) : (t.Orphan i ∧ t.cur ≠ 0 ∧ (t'.tasks i).parent = some 0) ∨
    ((t.Orphan i → t.cur = 0) ∧ (t'.tasks i).parent = (t.tasks i).parent) := by
  by_cases hi : i = t.cur
  · obtain ⟨code, sig, hd⟩ := h.dead
    refine .inr ⟨fun ho => absurd hi ho.1, ?_⟩
    rw [hi, hd]
  rcases h.other hf hi with ⟨ho, hc, ha⟩ | ⟨ho, ha⟩
  · exact .inl ⟨ho, hc, ha.sameFamily.parent⟩
  exact .inr ⟨ho, ha.sameFamily.parent⟩

theorem Exited.waits (hw : (t'.tasks i).waits j) : i ≠ t.cur ∧ (t.tasks i).waits j := by
  have hi : i ≠ t.cur := by
    rintro rfl
    obtain ⟨code, sig, hd⟩ := h.dead
    rw [hd] at hw
    exact absurd hw.1 (by simp)
  obtain ⟨p, ha⟩ := h.awake hf hi
  exact ⟨hi, ha.waits hw⟩

omit hf in
theorem Exited.not_running (ok : t.Ok) (i : Slot) : (t'.tasks i).state ≠ .running := by
  by_cases hi : i = t.cur
  · obtain ⟨code, sig, hd⟩ := h.dead
    rw [hi, hd]
    simp
  intro hr
  obtain ⟨p, ha⟩ := h.awake ok.toFamily hi
  exact hi (ok.running i (ha.running.1 hr))

theorem Exited.family (hcur : (t.tasks t.cur).inUse) : t'.Family := by
  have hpid := fun i => (h.same hf hcur i).1
  have hcr := fun i => (h.same hf hcur i).2.1
  have huse := fun i => (h.same hf hcur i).2.2
  refine ⟨?_, ?_, ?_, ?_, fun i j hi hj => ?_, fun i j hi hj hz => ?_⟩
  · simpa only [hpid, huse, h.nextPid] using hf.pidLt
  · simpa only [hpid, hcr, huse] using hf.creatorLt
  · simpa only [hpid, huse] using hf.pidInj
  · rw [hpid, huse]
    refine ⟨hf.init.1, hf.init.2.1, ?_⟩
    rcases h.parent hf 0 with ⟨ho, _, _⟩ | ⟨_, hp⟩
    · exact absurd (hf.init.2.2.symm.trans ho.2.2) (by simp)
    exact hp.trans hf.init.2.2
  · rw [huse] at hi
    rcases h.parent hf i with ⟨ho, hc, hp⟩ | ⟨_, hp⟩
    · -- the creator is the process that has just died
      rw [hp] at hj
      cases hj
      refine ⟨(huse 0).2 hf.init.1, .inr ⟨rfl, fun m hm heq => (h.zombie hf).2 (.inl ?_)⟩⟩
      have hreal : (t.tasks t.cur).pid = (t.tasks i).creator :=
        (hf.parent i t.cur hi ho.2.2).2.resolve_right fun h0 => hc h0.1
      rw [hpid, hcr, ← hreal] at heq
      exact hf.pidInj m t.cur ((huse m).1 hm) hcur heq
    rw [hp] at hj
    rw [huse, hpid, hcr]
    refine (hf.parent i j hi hj).imp_right (Or.imp_right fun hg => ⟨hg.1, fun m hm heq => ?_⟩)
    rw [hpid] at heq
    exact (h.zombie hf).2 (.inr (hg.2 m ((huse m).1 hm) heq))
  rw [huse] at hi
  rcases h.parent hf i with ⟨_, _, hp⟩ | ⟨ho, hp⟩
  · rw [hp, Option.some.injEq] at hj
    exact hj.symm
  rw [hp] at hj
  rcases (h.zombie hf).1 hz with rfl | hz
  · by_cases hic : i = t.cur
    · -- nobody is its own parent
      subst hic
      rcases (hf.parent _ _ hi hj).2 with heq | h0
      · have := hf.creatorLt _ hi
        omega
      exact h0.1
    exact ho ⟨hic, hi, hj⟩
  exact hf.dead i j hi hj hz

omit hf

theorem Exited.waitOk (ok : t.Ok) (hcur : (t.tasks t.cur).inUse) : t'.WaitOk := by
  have hf := ok.toFamily
  intro i j hw
  obtain ⟨hi, hw0⟩ := h.waits hf hw
  obtain ⟨rfl, ⟨m, hm, hmp⟩, hz⟩ := ok.wait i j hw0
  refine ⟨rfl, ⟨m, (h.same hf hcur m).2.2.2 hm, ?_⟩, fun m hm hmp => ?_⟩
  · rcases h.parent hf m with ⟨ho, _, _⟩ | ⟨_, hp⟩
    · exact absurd (Option.some.inj (hmp.symm.trans ho.2.2)) hi
    exact hp.trans hmp
  rcases h.parent hf m with ⟨ho, hc, hp⟩ | ⟨_, hp⟩
  · -- a dead child was handed to init, which is awake now
    rw [hp] at hmp
    cases hmp
    have hmz := ((h.zombie hf).1 hm).resolve_left ho.1
    exact h.initAwake m ho hmz 0 hf.initSlot_eq (fun h0 => hc h0.symm) hw
  rw [hp] at hmp
  rcases (h.zombie hf).1 hm with rfl | hmz
  · exact h.parentAwake j hmp hw
  exact hz m hmz hmp

end Exit

end Table

/-- **Every move keeps the process table in order.** -/
theorem TStep.ok {t t' : Table} (h : TStep t t') (ok : t.Ok) (hrun : t.halted = false) : t'.Ok := by
  have hcur := ok.cur hrun
  have huse : (t.tasks t.cur).inUse := by
    rw [Task.inUse, hcur]
    decide
  cases h with
  | wake tasks hw => exact ok.wake tasks hw
  | forkFailed i hi s hs =>
    refine ok.setUnused hs (by simp [hi]) ?_ (fun m hm hp => ?_) (fun _ _ hu => absurd hi hu) (Nat.le_succ _)
    · rintro rfl
      exact ok.init.1 hi
    exact (ok.parent m i hm hp).1 hi
  | fork i hi => exact ok.fork hrun hi
  | collect i hi hp =>
    have hi0 : i ≠ 0 := by
      rintro rfl
      rw [ok.init.2.2] at hp
      cases hp
    refine ok.setUnused rfl (by simp [hi]) hi0 (fun m hm hmp => hi0 (ok.dead m i hm hmp hi))
      (fun j hj _ hpj => ?_) le_rfl
    rw [hp, Option.some.injEq] at hpj
    rw [← hpj, hcur] at hj
    cases hj
  | sleep c nx hne hnx hwait =>
    have hs := Task.SameFamily.stopped hcur (w := some c) (s := .blocked) (by decide) (by decide)
    exact ok.leave hs (by simp) (fun j hj => hwait j (Option.some.inj hj.2)) hne hnx
  | preempt nx hne hnx =>
    have hs := Task.SameFamily.stopped hcur (w := (t.tasks t.cur).waitChan) (s := .runnable)
      (by decide) (by decide)
    exact ok.leave hs (by simp) (fun j hj => absurd hj.1 (by simp)) hne hnx
  | exit t1 h nx hnx =>
    exact Table.switch_ok (h.family ok.toFamily huse) (h.waitOk ok huse) (h.not_running ok) hnx
  | exitLast t1 h =>
    exact ⟨(h.family ok.toFamily huse).congr (fun _ => .refl _) rfl,
      fun i hi => absurd hi (h.not_running ok i), nofun, h.waitOk ok huse⟩
  | stop => exact ⟨ok.toFamily.congr (fun _ => .refl _) rfl, ok.running, nofun, ok.wait⟩

theorem Table.ok_first {t : Table} (h0 : t.tasks 0 = { pid := 1, state := .running })
    (hother : ∀ i, i ≠ 0 → (t.tasks i).state = .unused) (hcur : t.cur = 0) (hn : t.nextPid = 2) :
    t.Ok := by
  have hzero : ∀ i, (t.tasks i).inUse → i = 0 := fun i hi => by_contra fun h => hi (hother i h)
  have hparent : ∀ i j, (t.tasks i).inUse → (t.tasks i).parent ≠ some j := by
    intro i j hi
    rw [hzero i hi, h0]
    simp
  refine ⟨⟨fun i hi => ?_, fun i hi => ?_, fun i j hi hj _ => ?_, ?_, fun i j hi hj => ?_,
    fun i j hi hj _ => ?_⟩, fun i hi => ?_, fun _ => ?_, fun i j hw => ?_⟩
  · rw [hzero i hi, h0, hn]
    exact Nat.lt_succ_self 1
  · rw [hzero i hi, h0]
    exact Nat.one_pos
  · rw [hzero i hi, hzero j hj]
  · rw [h0]
    exact ⟨by simp [Task.inUse], rfl, rfl⟩
  · exact absurd hj (hparent i j hi)
  · exact absurd hj (hparent i j hi)
  · rw [hcur]
    exact hzero i fun h => by rw [h] at hi; cases hi
  · rw [hcur, h0]
  have hi := hzero i fun h => by rw [hw.1] at h; cases h
  rw [hi, h0] at hw
  exact absurd hw.1 (by simp)

end Embedded.Kernel
