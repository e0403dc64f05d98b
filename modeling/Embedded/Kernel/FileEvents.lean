import Embedded.Kernel.Scheduling

/-! # What events do to files

`FileEvent` sorts the events by what they do to open files and inodes: nothing at all (`Unfiled`), a
file call, the copy of the descriptors in `fork`, the closing of all descriptors at the death of a
process. An invariant of the files is then proved for these four. -/

namespace Embedded.Kernel

open Function (update update_self update_of_ne)

/-- The process sleeps on the inode `p`. -/
def Task.sleepsOn (t : Task) (p : Nat) : Prop := t.state = .blocked ∧ t.waitChan = some (.inode p)

/-- No inode, open file or descriptor differs, nobody died, and who went to sleep on a pipe found it
    empty and with a writer. -/
structure Unfiled (k k' : KState) : Prop where
  inodes : k'.inodes = k.inodes
  files : k'.files = k.files
  fds : k'.fds = k.fds
  alive : ∀ i, (k.tasks i).alive → (k'.tasks i).alive
  sleepers : ∀ i p, (k'.tasks i).sleepsOn p → (k.tasks i).sleepsOn p ∨
    ((k.inodes p).size = 0 ∧ 0 < (k.inodes p).wrOpen)

section

variable {k k1 k' : KState}

theorem Unfiled.trans (h : Unfiled k k1) (h' : Unfiled k1 k') : Unfiled k k' := by
  refine ⟨h'.inodes.trans h.inodes, h'.files.trans h.files, h'.fds.trans h.fds,
    fun i hi => h'.alive i (h.alive i hi), fun i p hs => ?_⟩
  rcases h'.sleepers i p hs with hs | hs
  · exact h.sleepers i p hs
  rw [h.inodes] at hs
  exact .inr hs

theorem Still.unfiled (h : Still k k') : Unfiled k k' :=
  ⟨h.tree.inodes, h.files, h.fds, fun i hi => by rw [h.tasks]; exact hi,
    fun i p hs => .inl (by rw [h.tasks] at hs; exact hs)⟩

theorem Task.Awake.sleepsOn {t t' : Task} (h : t.Awake t') {p : Nat} (hs : t'.sleepsOn p) : t.sleepsOn p := by
  rcases h with rfl | ⟨_, rfl⟩
  · exact hs
  · exact absurd hs.1 (by simp)

/-- Wakeups and the handing over of children. -/
theorem Resched.unfiled (h : Resched k k')
    (hs : ∀ i p, (k'.tasks i).sleepsOn p → (k.tasks i).sleepsOn p) : Unfiled k k' :=
  ⟨by rw [h.toFs], h.files, h.fds, fun i hi => (h.alive_iff i).2 hi, fun i p hp => .inl (hs i p hp)⟩

theorem reparent_unfiled (k : KState) : Unfiled k (reparent k) := by
  refine (reparent_resched k).unfiled fun i p hs => ?_
  obtain ⟨_, hmove, hkeep, _⟩ := reparent_spec k
  by_cases hm : k.table.Orphan i ∧ ∃ q, k.table.initSlot = some q ∧ q ≠ k.cur
  · obtain ⟨ho, q, hq, hne⟩ := hm
    exact (hmove i ho q hq hne).sleepsOn hs
  refine (hkeep i fun ho q hq => ?_).sleepsOn hs
  by_contra hne
  exact hm ⟨ho, q, hq, hne⟩

theorem wakeParent_unfiled (k : KState) : Unfiled k (wakeParent k) :=
  (wakeParent_resched k).unfiled fun i _ hs => ((wakeParent_spec k).2.1 i).sleepsOn hs

theorem switchTo_unfiled {nx : Slot} (hnx : (k.tasks nx).state = .runnable) : Unfiled k (switchTo k nx) := by
  refine ⟨rfl, rfl, switchTo_fds k nx, fun i hi => ?_, fun i p hs => .inl ?_⟩
  · rw [switchTo_tasks]
    by_cases h : i = nx
    · subst h
      rw [update_self]
      exact .inr (.inl rfl)
    rwa [update_of_ne h]
  rw [switchTo_tasks] at hs
  by_cases h : i = nx
  · subst h
    rw [update_self] at hs
    exact absurd hs.1 (by simp)
  rwa [update_of_ne h] at hs

/-- The current process changes its state, but does not die. -/
theorem setCur_unfiled {q : Proc} (hfds : q.fds = k.fds k.cur) (ha : q.toTask.alive)
    (hs : ∀ p, q.toTask.sleepsOn p → (k.inodes p).size = 0 ∧ 0 < (k.inodes p).wrOpen) :
    Unfiled k (k.setProc k.cur q) := by
  refine ⟨rfl, rfl, KState.setProc_fds_same hfds, fun i hi => ?_, fun i p hp => ?_⟩
  · rw [KState.setProc_tasks]
    by_cases h : i = k.cur
    · rw [h, update_self]
      exact ha
    rwa [update_of_ne h]
  rw [KState.setProc_tasks] at hp
  by_cases h : i = k.cur
  · rw [h, update_self] at hp
    exact .inr (hs p hp)
  rw [update_of_ne h] at hp
  exact .inl hp

theorem leave_unfiled {q : Proc} {nx : Slot} (hfds : q.fds = k.fds k.cur) (ha : q.toTask.alive)
    (hs : ∀ p, q.toTask.sleepsOn p → (k.inodes p).size = 0 ∧ 0 < (k.inodes p).wrOpen)
    (hne : nx ≠ k.cur) (hnx : (k.tasks nx).state = .runnable) :
    Unfiled k (switchTo (k.setProc k.cur q) nx) := by
  refine (setCur_unfiled hfds ha hs).trans (switchTo_unfiled ?_)
  rwa [KState.setProc_tasks, update_of_ne hne]

theorem procSleep_unfiled (c : Chan)
    (hc : ∀ p, c = .inode p → (k.inodes p).size = 0 ∧ 0 < (k.inodes p).wrOpen) :
    Unfiled k (procSleep k c).2 := by
  rcases procSleep_cases k c with h | ⟨nx, hne, hnx, h⟩
  · rw [h]
    exact (Still.refl k).unfiled
  rw [h]
  refine leave_unfiled ?_ ?_ (fun p hp => ?_) hne hnx
  · rfl
  · exact .inr (.inr rfl)
  exact hc p (Option.some.inj hp.2)

theorem procPreempt_unfiled (k : KState) (tf : Trapframe) : Unfiled k (procPreempt k tf) := by
  rcases procPreempt_cases k tf with h | ⟨nx, hne, hnx, h⟩
  · rw [h]
    exact (Still.refl k).unfiled
  rw [h]
  refine leave_unfiled ?_ ?_ (fun p hp => ?_) hne hnx
  · rfl
  · exact .inl rfl
  exact absurd hp.1 (by simp)

theorem Unfiled.free {i : Slot} {t : Task} (hi : ¬ (k.tasks i).alive) (hinodes : k'.inodes = k.inodes)
    (hfiles : k'.files = k.files) (hfds : k'.fds = k.fds) (htasks : k'.tasks = update k.tasks i t)
    (ht : t.state = .unused) : Unfiled k k' := by
  refine ⟨hinodes, hfiles, hfds, fun j hj => ?_, fun j p hp => .inl ?_⟩
  · have hji : j ≠ i := fun h => hi (h ▸ hj)
    rwa [htasks, update_of_ne hji]
  rw [htasks] at hp
  by_cases hji : j = i
  · subst hji
    rw [update_self] at hp
    exact absurd (ht.symm.trans hp.1) (by simp)
  rwa [update_of_ne hji] at hp

theorem procWait_unfiled (k : KState) : Unfiled k (procWait k).2 := by
  rcases procWait_cases k with ⟨i, hz, _, h⟩ | ⟨_, h | ⟨_, _, h⟩⟩
  · have hset : Unfiled k (setState k i .unused) := .free (by simp [Task.alive, hz]) rfl rfl
      (KState.setProc_fds_same rfl) (KState.setProc_tasks k i _) rfl
    rw [h]
    exact hset.trans (setRet_still ..).unfiled
  · rw [h]
    exact (setRet_still ..).unfiled
  rw [h]
  exact procSleep_unfiled _ fun p hp => by cases hp

/-! ## The events -/

/-- The current process, dead but with its descriptors. -/
def zombied (k : KState) (code : Int) (sig : Nat) : KState :=
  k.setProc k.cur { k.proc with exitCode := code, killedSig := sig, state := .zombie }

/-- What the event `e` does to files, in the state `k` with the caller's registers saved. -/
inductive FileEvent (k : KState) (e : Event) (k' : KState) : Prop
  | nothing (h : Unfiled k k')
  | call (tf : Trapframe) (c : Call) (he : e = .syscall tf c) (hc : c.onFile = true)
      (hk : k' = (dispatch k c).2) (hcalm : Calm k k')
  | read (tf : Trapframe) (fd : Int) (n : UInt32) (input : Bytes)
      (he : e = .syscall tf (.read fd n input)) (hk : k' = (retData (sysRead k fd n.toNat input)).2)
      (hcalm : Calm k k')
  | fork (i : Slot) (hi : (k.tasks i).state = .unused) (hinodes : k'.inodes = k.inodes)
      (htasks : k'.tasks = update k.tasks i (childTask k))
      (hfds : k'.fds = update k.fds i (k.fds k.cur))
      (hfiles : k'.files = dupTable (k.fds k.cur) k.files)
  | exit (code : Int) (sig : Nat) (h : Unfiled (fdtableCloseall (zombied k code sig) k.cur) k')

theorem Calm.setRet (h : Calm k k') (v : Int) : Calm k (setRet k' v) := (calm_calls k).setRet (H := 0) h v

theorem Forked.fileEvent (h : Forked k k') (e : Event) : FileEvent k e k' := by
  cases h with
  | full hfull hk => exact .nothing (hk ▸ (setRet_still ..).unfiled)
  | fail i hi t ht m hm htasks hmaps hfds hfiles hfs hcur hpid hh =>
    exact .nothing (.free (by simp [Task.alive, hi]) (by rw [hfs]) hfiles hfds htasks ht)
  | child i hi hl htasks hmaps hfds hfiles hfs hcur hpid hh =>
    exact .fork i hi (by rw [hfs]) htasks hfds hfiles

theorem reapCurrentAndSwitch_fileEvent (e : Event) (code : Int) (sig : Nat) :
    FileEvent k e (reapCurrentAndSwitch k code sig) := by
  refine .exit code sig ?_
  have hc := (reapCurrent_spec k code sig).2
  have hreap : Unfiled (fdtableCloseall (zombied k code sig) k.cur) (reapCurrent k code sig) := by
    have hl1 : ∀ k : KState, Still k (k.setProc k.cur { k.proc with l1Pa := 0 }) :=
      fun k => .setProc ⟨rfl, rfl⟩ rfl rfl
    exact ((hl1 _).unfiled.trans (reparent_unfiled _)).trans (wakeParent_unfiled _)
  refine hreap.trans ?_
  unfold reapCurrentAndSwitch
  simp only
  generalize reapCurrent k code sig = k1 at hc ⊢
  split
  · exact ⟨rfl, rfl, rfl, fun _ h => h, fun _ _ h => .inl h⟩
  rename_i nx hnx
  have hrunnable : (k1.tasks nx).state = .runnable := by
    refine (pickNext_some hnx).resolve_right fun h => ?_
    rw [h.1, hc.2.2.2, hc.1] at h
    cases h.2
  exact (switchTo_unfiled hrunnable).trans (mm_still ..).unfiled

theorem dispatch_fileEvent (hcur : (k.tasks k.cur).inUse) (tf : Trapframe) (c : Call) :
    FileEvent k (.syscall tf c) (dispatch k c).2 := by
  have hk := Calm.refl k
  have cc := calm_calls k
  have hstill : ∀ {k' : KState} (v : Int), Still k k' → FileEvent k (.syscall tf c) (setRet k' v) :=
    fun v h => .nothing (h.trans (setRet_still ..)).unfiled
  by_cases hf : c.onFile = true
  · exact .call tf c rfl hf rfl (cc.file hk hf)
  cases c with
  | fork => exact (doFork_forked k 0 hcur).fileEvent _
  | clone flags childStack =>
    simp only [dispatch]
    unfold procClone
    split
    · exact .nothing (setRet_still ..).unfiled
    exact (doFork_forked k _ hcur).fileEvent _
  | execve path argv envp => exact .nothing (procExecve_out k path argv envp).still.unfiled
  | wait4 => exact .nothing (procWait_unfiled k)
  | exit code => exact reapCurrentAndSwitch_fileEvent _ code 0
  | read fd n input =>
    have hr : Calm k (sysRead k fd n.toNat input).2 :=
      cc.sysRead (H := 0) hk fd n.toNat input fun _ _ _ _ => trivial
    simp only [dispatch]
    unfold trapRead
    split
    · exact .read tf fd n input rfl rfl (hr.setRet _)
    rename_i chan hchan
    simp only
    split
    · refine .nothing (procSleep_unfiled chan fun p hp => ?_)
      obtain ⟨q, f, _, hc, _, hsize, hwr⟩ := readBlockChan_some hchan
      cases hc.symm.trans hp
      exact ⟨hsize, hwr⟩
    exact .read tf fd n input rfl rfl (hr.setRet _)
  | brk addr => exact hstill _ (sysBrk_still k _)
  | mmap2 addr len flags fd pgoff => exact hstill _ (sysMmap2_still k ..)
  | munmap addr len => exact hstill _ (sysMunmap_still k ..)
  | other r => exact hstill _ (.refl k)
  | _ => exact absurd rfl hf

/-- Every event does one of these, from the state with the caller's registers saved. -/
theorem next_fileEvent (hcur : (k.tasks k.cur).inUse) (hrun : k.halted = false) (e : Event) :
    ∃ k1, Still k k1 ∧ FileEvent k1 e (next k e) := by
  have hcur' : ∀ tf, ((saveTf k tf).tasks (saveTf k tf).cur).inUse := by
    intro tf
    rw [saveTf_tasks]
    exact hcur
  unfold next step
  rw [hrun]
  simp only [Bool.false_eq_true, if_false]
  cases e with
  | syscall tf c => exact ⟨saveTf k tf, saveTf_still k tf, dispatch_fileEvent (hcur' tf) tf c⟩
  | tick tf => exact ⟨k, .refl k, .nothing (procPreempt_unfiled k tf)⟩
  | fault kind tf =>
    refine ⟨saveTf k tf, saveTf_still k tf, ?_⟩
    simp only
    simp only [faultTrap]
    split
    · exact .nothing ⟨rfl, rfl, rfl, fun _ h => h, fun _ _ h => .inl h⟩
    exact reapCurrentAndSwitch_fileEvent ..
  | store va b => exact ⟨k, .refl k, .nothing (userStore_still k _ b).unfiled⟩

end

end Embedded.Kernel
