import Embedded.Kernel.Effects

/-! # What scheduling can change

The functions of `proc.c` that only move processes between states: wakeups, reparenting, the choice
of the next process and the switch to it. `Resched` is what they leave alone, `Calm` what a file
call may do to the process table. -/

namespace Embedded.Kernel

open Function (update update_idem update_self update_of_ne update_eq_self)
open KState (setProc_fds_same setProc_maps_same setProc_tasks setProc_tasks_same)

/-- The process has an address space: it runs, may run, or waits. -/
def Task.alive (t : Task) : Prop := t.state = .runnable ∨ t.state = .running ∨ t.state = .blocked

instance (t : Task) : Decidable t.alive := inferInstanceAs (Decidable (_ ∨ _ ∨ _))

/-- `t'` is the sleeping task `t`, woken up. -/
def Task.Woken (t t' : Task) : Prop :=
  t.state = .blocked ∧ t' = { t with waitChan := none, state := .runnable }

variable {t : Task} {k k' : KState} {i : Slot}

theorem Task.Woken.alive_iff {t' : Task} (h : t.Woken t') : t'.alive ↔ t.alive := by
  obtain ⟨hs, rfl⟩ := h
  simp [Task.alive, hs]

/-! ## Wakeups -/

/-- What a file call may do to the process table: wake sleepers. -/
structure Calm (k k' : KState) : Prop where
  maps : k'.maps = k.maps
  tasks : ∀ i, k'.tasks i = k.tasks i ∨ (k.tasks i).Woken (k'.tasks i)
  cur : k'.cur = k.cur
  nextPid : k'.nextPid = k.nextPid
  halted : k'.halted = k.halted

theorem Calm.refl (k : KState) : Calm k k := ⟨rfl, fun _ => .inl rfl, rfl, rfl, rfl⟩

theorem Calm.alive_iff (h : Calm k k') (i : Slot) : (k'.tasks i).alive ↔ (k.tasks i).alive := by
  rcases h.tasks i with h | h
  · rw [h]
  exact h.alive_iff

theorem Calm.wakeup {k0 : KState} (h : Calm k0 k) (c : Chan) : Calm k0 (procWakeup k c) := by
  refine ⟨(procWakeup_maps k c).trans h.maps, fun i => ?_, h.cur, h.nextPid, h.halted⟩
  rw [procWakeup_tasks]
  split
  · next hb =>
    rcases h.tasks i with ht | ⟨_, ht⟩
    · exact .inr ⟨ht ▸ hb.1, by rw [ht]⟩
    -- a task that was woken before is runnable
    rw [ht] at hb
    exact absurd hb.1 (by simp)
  exact h.tasks i

theorem calm_closed {G : Fs → FsOp → Prop} (hG : ∀ fs, G fs .kmalloc) (k0 : KState) :
    FileClosed G (Calm k0) where
  fs _ h _ := ⟨h.maps, h.tasks, h.cur, h.nextPid, h.halted⟩
  kmalloc := hG
  account _ _ _ h := ⟨h.maps, h.tasks, h.cur, h.nextPid, h.halted⟩
  file _ _ h := ⟨h.maps, h.tasks, h.cur, h.nextPid, h.halted⟩
  proc {k} i fds cwd tf h := by
    have ht : (k.setProc i { k.procs i with fds := fds, cwd := cwd, tf := tf }).tasks = k.tasks :=
      setProc_tasks_same rfl
    have hm : (k.setProc i { k.procs i with fds := fds, cwd := cwd, tf := tf }).maps = k.maps :=
      setProc_maps_same rfl
    exact ⟨hm.trans h.maps, fun j => by rw [ht]; exact h.tasks j, h.cur, h.nextPid, h.halted⟩
  wakeup p h := h.wakeup (.inode p)

theorem calm_calls (k : KState) :
    CallClosed (fun _ _ => True) (fun _ => True) (fun _ _ _ => True) fun k' _ => Calm k k' :=
  (calm_closed (fun _ => trivial) k).calls

/-- What wakeups and reparenting leave alone. -/
structure Resched (k k' : KState) : Prop where
  toFs : k'.toFs = k.toFs
  files : k'.files = k.files
  maps : k'.maps = k.maps
  fds : k'.fds = k.fds
  cur : k'.cur = k.cur
  nextPid : k'.nextPid = k.nextPid
  halted : k'.halted = k.halted
  state : ∀ i, (k'.tasks i).state = (k.tasks i).state ∨
    ((k.tasks i).state = .blocked ∧ (k'.tasks i).state = .runnable)

theorem Resched.refl (k : KState) : Resched k k := ⟨rfl, rfl, rfl, rfl, rfl, rfl, rfl, fun _ => .inl rfl⟩

theorem Resched.trans {k1 k2 : KState} (h : Resched k k1) (h' : Resched k1 k2) : Resched k k2 := by
  refine ⟨h'.toFs.trans h.toFs, h'.files.trans h.files, h'.maps.trans h.maps, h'.fds.trans h.fds,
    h'.cur.trans h.cur, h'.nextPid.trans h.nextPid, h'.halted.trans h.halted, fun i => ?_⟩
  rcases h.state i with h1 | ⟨h1, h2⟩ <;> rcases h'.state i with h3 | ⟨h3, h4⟩
  · exact .inl (h3.trans h1)
  · exact .inr ⟨h1 ▸ h3, h4⟩
  · exact .inr ⟨h1, h3.trans h2⟩
  exact .inr ⟨h1, h4⟩

theorem Resched.alive_iff (h : Resched k k') (i : Slot) : (k'.tasks i).alive ↔ (k.tasks i).alive := by
  unfold Task.alive
  rcases h.state i with h | ⟨h1, h2⟩
  · rw [h]
  simp [h1, h2]

theorem procWakeup_resched (k : KState) (c : Chan) : Resched k (procWakeup k c) := by
  refine ⟨rfl, rfl, procWakeup_maps k c, procWakeup_fds k c, rfl, rfl, rfl, fun i => ?_⟩
  rw [procWakeup_tasks]
  split
  · next h => exact .inr ⟨h.1, rfl⟩
  exact .inl rfl

theorem setParent_resched (k : KState) (i : Slot) (par : Option Slot) :
    Resched k (k.setProc i { k.procs i with parent := par }) := by
  refine ⟨rfl, rfl, setProc_maps_same rfl, setProc_fds_same rfl, rfl, rfl, rfl, fun j => .inl ?_⟩
  rw [setProc_tasks]
  by_cases h : j = i
  · subst h
    rw [update_self]
    rfl
  rw [update_of_ne h]

theorem reparentOne_resched (initp : Slot) (k : KState) (i : Slot) : Resched k (reparentOne initp k i) := by
  simp only [reparentOne]
  split
  · split
    · exact (setParent_resched k i _).trans (procWakeup_resched _ _)
    exact setParent_resched k i _
  exact .refl k

theorem reparentAll_resched (initp : Slot) (slots : List Slot) (k : KState) :
    Resched k (slots.foldl (reparentOne initp) k) := by
  induction slots generalizing k with
  | nil => exact .refl k
  | cons i slots ih => exact (reparentOne_resched initp k i).trans (ih _)

theorem reparent_resched (k : KState) : Resched k (reparent k) := by
  unfold reparent
  split
  · exact .refl k
  split
  · exact .refl k
  exact reparentAll_resched _ _ k

theorem wakeParent_resched (k : KState) : Resched k (wakeParent k) := by
  unfold wakeParent
  split
  · exact .refl k
  exact procWakeup_resched k _

/-! ## Choosing and switching -/

theorem pickNext_some (h : pickNext k = some i) :
    (k.tasks i).state = .runnable ∨ (i = k.cur ∧ (k.tasks i).state = .running) := by
  unfold pickNext at h
  split at h
  · next j hj =>
    cases h
    have hs := List.find?_some hj
    exact .inl (of_decide_eq_true hs)
  split at h
  · next hs =>
    cases h
    exact hs.imp id fun h => ⟨rfl, h⟩
  cases h

theorem switchTo_tasks (k : KState) (i : Slot) :
    (switchTo k i).tasks = update k.tasks i { k.tasks i with state := .running } :=
  setProc_tasks k i _

theorem switchTo_maps (k : KState) (i : Slot) : (switchTo k i).maps = k.maps := setProc_maps_same rfl

theorem switchTo_fds (k : KState) (i : Slot) : (switchTo k i).fds = k.fds := setProc_fds_same rfl

/-- The caller stays alive, and another runnable process is entered. -/
theorem switchTo_alive {q : Proc} {nx : Slot} (hcur : (k.tasks k.cur).alive)
    (hq : q.toTask.alive) (hnx : (k.tasks nx).state = .runnable) (i : Slot) :
    ((switchTo (k.setProc k.cur q) nx).tasks i).alive ↔ (k.tasks i).alive := by
  rw [switchTo_tasks, setProc_tasks]
  by_cases h1 : i = nx
  · subst h1
    rw [update_self]
    exact iff_of_true (.inr (.inl rfl)) (.inl hnx)
  rw [update_of_ne h1]
  by_cases h2 : i = k.cur
  · subst h2
    rw [update_self]
    exact iff_of_true hq hcur
  rw [update_of_ne h2]

variable (k)

theorem allocProc_cases : (allocProc k = (none, k) ∧ ∀ i, (k.tasks i).state ≠ .unused) ∨
    ∃ i, (k.tasks i).state = .unused ∧ allocProc k = (some i, { k.setProc i { k.procs i with
            state := .embryo, pid := k.nextPid, parent := none, exitCode := 0, killedSig := 0,
            waitChan := none, brk := 0, brkCeiling := mmapTop, creator := 0 } with
        nextPid := k.nextPid + 1 }) := by
  unfold allocProc
  split
  · next h =>
    refine .inl ⟨rfl, fun i => ?_⟩
    exact fun hs => List.find?_eq_none.1 h i (List.mem_finRange i) (decide_eq_true hs)
  rename_i i h
  have hs := List.find?_some h
  exact .inr ⟨i, of_decide_eq_true hs, rfl⟩

/-- `proc_sleep` finds nobody else to run, or blocks the caller and switches. -/
theorem procSleep_cases (c : Chan) : procSleep k c = (false, k) ∨
    ∃ nx, nx ≠ k.cur ∧ (k.tasks nx).state = .runnable ∧ procSleep k c = (true,
      switchTo (k.setProc k.cur { k.proc with
        waitChan := some c, state := .blocked
        tf := { k.proc.tf with pc := sub32 k.proc.tf.pc 4 } }) nx) := by
  unfold procSleep
  split
  · exact .inl rfl
  rename_i nx h
  split
  · exact .inl rfl
  rename_i hne
  refine .inr ⟨nx, hne, ?_, rfl⟩
  rcases pickNext_some h with h | ⟨h, _⟩
  · exact h
  exact absurd h hne

theorem procPreempt_cases (tf : Trapframe) : procPreempt k tf = k ∨
    ∃ nx, nx ≠ k.cur ∧ (k.tasks nx).state = .runnable ∧ procPreempt k tf =
      switchTo (k.setProc k.cur { k.proc with tf := tf, state := .runnable }) nx := by
  unfold procPreempt
  split
  · exact .inl rfl
  split
  · exact .inl rfl
  rename_i nx h
  split
  · exact .inl rfl
  rename_i hne
  refine .inr ⟨nx, hne, ?_, rfl⟩
  rcases pickNext_some h with h | ⟨h, _⟩
  · exact h
  exact absurd h hne

/-- `proc_wait` reaps a zombie child, sleeps until there is one, or fails for want of a child. -/
theorem procWait_cases : (∃ i, (k.tasks i).state = .zombie ∧ (k.tasks i).parent = some k.cur ∧
      (procWait k).2 = setRet (setState k i .unused) (k.tasks i).pid) ∨
    ((∀ i, (k.tasks i).state = .zombie → (k.tasks i).parent ≠ some k.cur) ∧ ((procWait k).2 = setRet k (-10) ∨
        ((∃ i, (k.tasks i).parent = some k.cur ∧ (k.tasks i).state ≠ .unused) ∧
          (procSleep k (.proc k.cur)).1 = true ∧
          (procWait k).2 = (procSleep k (.proc k.cur)).2))) := by
  unfold procWait
  split
  · next i h =>
    have := List.find?_some h
    simp only [Bool.and_eq_true, decide_eq_true_eq] at this
    exact .inl ⟨i, this.1, this.2, rfl⟩
  rename_i h
  refine .inr ⟨fun i hz hp => ?_, ?_⟩
  · have := List.find?_eq_none.1 h i (List.mem_finRange i)
    simp only [Bool.and_eq_true, decide_eq_true_eq, not_and] at this
    exact this hz hp
  simp only
  split
  · next hc =>
    rw [List.any_eq_true] at hc
    obtain ⟨i, _, hi⟩ := hc
    simp only [Bool.and_eq_true, decide_eq_true_eq] at hi
    split
    · next hs => exact .inr ⟨⟨i, hi⟩, hs, rfl⟩
    exact .inl rfl
  exact .inl rfl

/-! ## Registers -/

theorem setRet_tasks (v : Int) : (setRet k v).tasks = k.tasks := setProc_tasks_same rfl

theorem setRet_maps (v : Int) : (setRet k v).maps = k.maps := setProc_maps_same rfl

theorem setRet_fds (v : Int) : (setRet k v).fds = k.fds := setProc_fds_same rfl

theorem saveTf_tasks (tf : Trapframe) : (saveTf k tf).tasks = k.tasks := setProc_tasks_same rfl

theorem saveTf_maps (tf : Trapframe) : (saveTf k tf).maps = k.maps := setProc_maps_same rfl

theorem saveTf_fds (tf : Trapframe) : (saveTf k tf).fds = k.fds := setProc_fds_same rfl

variable {k}

/-! ## Fork -/

/-- One more reference to the file `p`. -/
def dupFile (files : Nat → Option File) (p : Nat) : Nat → Option File :=
  update files p ((files p).map fun f => { f with refcnt := f.refcnt + 1 })

/-- One more reference for every descriptor of a table. -/
def dupTable (tbl : Fd → Option Nat) (files : Nat → Option File) : Nat → Option File :=
  (List.finRange 16).foldl (fun files fd => (tbl fd).elim files (dupFile files)) files

/-- Only files and the descriptor table of slot `i` changed. -/
structure OnlyFds (i : Slot) (k k' : KState) : Prop where
  toFs : k'.toFs = k.toFs
  tasks : k'.tasks = k.tasks
  maps : k'.maps = k.maps
  fds : ∀ j, j ≠ i → k'.fds j = k.fds j
  cur : k'.cur = k.cur
  nextPid : k'.nextPid = k.nextPid
  halted : k'.halted = k.halted

theorem fileDup_eq (k : KState) (p : Nat) : fileDup k p = { k with files := dupFile k.files p } := by
  unfold fileDup dupFile
  split
  · next h =>
    have : update k.files p ((none : Option File).map fun f =>
        { f with refcnt := f.refcnt + 1 }) = k.files := by rw [Option.map_none, ← h, update_eq_self]
    rw [h, this]
  next f h =>
  rw [h]
  rfl

theorem fdtableCopy_spec (k : KState) {dst src : Slot} (hne : src ≠ dst) :
    OnlyFds dst k (fdtableCopy k dst src) ∧ (fdtableCopy k dst src).fds dst = k.fds src ∧
      (fdtableCopy k dst src).files = dupTable (k.fds src) k.files := by
  -- after the descriptors of a prefix: those are copied, the rest is as it was
  have hloop : ∀ (fds : List Fd) (k : KState), OnlyFds dst k (fds.foldl (copySlot dst src) k) ∧
      (∀ fd, (fds.foldl (copySlot dst src) k).fds dst fd = if fd ∈ fds then k.fds src fd else k.fds dst fd) ∧
      (fds.foldl (copySlot dst src) k).files
        = fds.foldl (fun files fd => (k.fds src fd).elim files (dupFile files)) k.files := by
    intro fds
    induction fds with
    | nil => intro k; exact ⟨⟨rfl, rfl, rfl, fun _ _ => rfl, rfl, rfl, rfl⟩, fun _ => rfl, rfl⟩
    | cons fd fds ih => ?_
    intro k
    have hone : OnlyFds dst k (copySlot dst src k fd) ∧
        (copySlot dst src k fd).fds dst = update (k.fds dst) fd (k.fds src fd) ∧
        (copySlot dst src k fd).files = (k.fds src fd).elim k.files (dupFile k.files) := by
      have hset : ∀ f, OnlyFds dst k (setFd k dst fd f) := fun f =>
        ⟨rfl, setProc_tasks_same rfl, setProc_maps_same rfl,
          fun j hj => by rw [setFd_fds, update_of_ne hj], rfl, rfl, rfl⟩
      unfold copySlot
      split
      · next h =>
        have h' : k.fds src fd = none := h
        refine ⟨hset none, ?_, by rw [h']; rfl⟩
        rw [setFd_fds, update_self, h']
      rename_i p h
      have h' : k.fds src fd = some p := h
      rw [fileDup_eq, h']
      obtain ⟨h1, h2, h3, h4, h5, h6, h7⟩ := hset (some p)
      refine ⟨⟨h1, h2, h3, h4, h5, h6, h7⟩, ?_, rfl⟩
      exact (congrFun (setFd_fds k dst fd (some p)) dst).trans (update_self ..)
    obtain ⟨ho, hd, hf⟩ := hone
    obtain ⟨ho', hd', hf'⟩ := ih (copySlot dst src k fd)
    have hsrc := ho.fds src hne
    simp only [List.foldl_cons]
    refine ⟨⟨ho'.toFs.trans ho.toFs, ho'.tasks.trans ho.tasks, ho'.maps.trans ho.maps,
      fun j hj => (ho'.fds j hj).trans (ho.fds j hj), ho'.cur.trans ho.cur,
      ho'.nextPid.trans ho.nextPid, ho'.halted.trans ho.halted⟩, fun fd' => ?_, ?_⟩
    · rw [hd', hsrc, hd]
      by_cases h1 : fd' = fd
      · subst h1
        simp
      simp [h1]
    rw [hf', hsrc, hf]
  obtain ⟨ho, hd, hf⟩ := hloop (List.finRange 16) k
  refine ⟨ho, funext fun fd => ?_, hf⟩
  exact (hd fd).trans (if_pos (List.mem_finRange fd))

/-- The child's entry in the process table. -/
def childTask (k : KState) : Task :=
  { pid := k.nextPid, state := .runnable, parent := some k.cur, creator := k.proc.pid }

/-- The outcomes of `do_fork`. -/
inductive Forked (k k' : KState) : Prop
  /-- Every slot is taken. -/
  | full (hfull : ∀ i, (k.tasks i).state ≠ .unused) (hk : k' = setRet k (-11))
  /-- Memory ran out; the slot is given back, its number is spent. -/
  | fail (i : Slot) (hi : (k.tasks i).state = .unused) (t : Task) (ht : t.state = .unused) (m : Mm)
      (hm : ((vmCreate k.mm).1 = 0 ∧ m = (vmCreate k.mm).2) ∨ ((vmCreate k.mm).1 ≠ 0 ∧
        m = vmDestroy (vmCopy (vmCreate k.mm).2 (vmCreate k.mm).1 k.proc.l1Pa).2 (vmCreate k.mm).1))
      (htasks : k'.tasks = update k.tasks i t)
      (hmaps : ∀ j, j ≠ i → k'.maps j = k.maps j) (hfds : k'.fds = k.fds)
      (hfiles : k'.files = k.files) (hfs : k'.toFs = { k.toFs with mm := m }) (hcur : k'.cur = k.cur)
      (hpid : k'.nextPid = k.nextPid + 1) (hh : k'.halted = k.halted)
  /-- There is a child in slot `i`. -/
  | child (i : Slot) (hi : (k.tasks i).state = .unused) (hl : (vmCreate k.mm).1 ≠ 0)
      (htasks : k'.tasks = update k.tasks i (childTask k))
      (hmaps : k'.maps = update k.maps i
        { k.proc.toMemMap with l1Pa := (vmCreate k.mm).1 })
      (hfds : k'.fds = update k.fds i (k.fds k.cur))
      (hfiles : k'.files = dupTable (k.fds k.cur) k.files)
      (hfs : k'.toFs = { k.toFs with
        mm := (vmCopy (vmCreate k.mm).2 (vmCreate k.mm).1 k.proc.l1Pa).2 })
      (hcur : k'.cur = k.cur) (hpid : k'.nextPid = k.nextPid + 1) (hh : k'.halted = k.halted)

/-- The entry of a slot that `alloc_proc` has claimed. -/
def embryoTask (k : KState) : Task := { pid := k.nextPid, state := .embryo }

/-- What `alloc_proc` and the work on the claimed slot `i` leave alone. -/
structure Claimed (k : KState) (i : Slot) (t : Task) (k' : KState) : Prop where
  tasks : k'.tasks = update k.tasks i t
  procs : ∀ j, j ≠ i → k'.procs j = k.procs j
  fds : k'.fds = k.fds
  files : k'.files = k.files
  cur : k'.cur = k.cur
  nextPid : k'.nextPid = k.nextPid + 1
  halted : k'.halted = k.halted

theorem Claimed.setProc (h : Claimed k i t k') (fs : Fs)
    {p : Proc} (hfds : p.fds = k'.fds i) : Claimed k i p.toTask ({ k' with toFs := fs }.setProc i p) :=
  ⟨by rw [setProc_tasks]
      exact (congrArg (update · i p.toTask) h.tasks).trans (update_idem ..),
    fun j hj => (update_of_ne hj ..).trans (h.procs j hj),
    (setProc_fds_same hfds).trans h.fds, h.files, h.cur, h.nextPid, h.halted⟩

theorem allocProc_claimed (k : KState) (i : Slot) : Claimed k i (embryoTask k) { k.setProc i { k.procs i with
          state := .embryo, pid := k.nextPid, parent := none, exitCode := 0, killedSig := 0,
          waitChan := none, brk := 0, brkCeiling := mmapTop, creator := 0 } with
      nextPid := k.nextPid + 1 } :=
  ⟨setProc_tasks k i _, fun _ hj => update_of_ne hj .., setProc_fds_same rfl, rfl, rfl, rfl, rfl⟩

theorem Claimed.maps (h : Claimed k i t k') (j : Slot) (hj : j ≠ i) : k'.maps j = k.maps j :=
  congrArg Proc.toMemMap (h.procs j hj)

theorem doFork_forked (k : KState) (sp : Nat) (hcur : (k.tasks k.cur).state ≠ .unused) :
    Forked k (doFork k sp) := by
  unfold doFork
  rcases allocProc_cases k with ⟨hnone, hfull⟩ | ⟨i, hi, hsome⟩
  · rw [hnone]
    exact .full hfull rfl
  have hne : k.cur ≠ i := by
    rintro rfl
    exact hcur hi
  -- the claimed slot
  have hc1 := allocProc_claimed k i
  rw [hsome]
  generalize hk1 : ({ k.setProc i _ with nextPid := k.nextPid + 1 } : KState) = k1 at hc1 ⊢
  have hfs1 : k1.toFs = k.toFs := by rw [← hk1]; rfl
  have ht1 : (k1.procs i).toTask = embryoTask k := (congrFun hc1.tasks i).trans (update_self ..)
  clear hk1 hsome
  have hmm : k1.mm = k.mm := by rw [hfs1]
  simp only [hmm]
  -- with its L1 table
  have hc2 := hc1.setProc { k1.toFs with mm := (vmCreate k.mm).2 }
    (p := { k1.procs i with l1Pa := (vmCreate k.mm).1 }) rfl
  generalize hk2 : ({ k1 with mm := (vmCreate k.mm).2 }.setProc i
    { k1.procs i with l1Pa := (vmCreate k.mm).1 } : KState) = k2 at hc2 ⊢
  have hfs2 : k2.toFs = { k.toFs with mm := (vmCreate k.mm).2 } := by rw [← hk2, ← hfs1]; rfl
  have hp2 : k2.procs i = { k1.procs i with l1Pa := (vmCreate k.mm).1 } := by
    rw [← hk2]
    exact update_self ..
  have hproc : k2.proc = k.proc := by
    unfold KState.proc
    rw [hc2.cur, hc2.procs _ hne]
  have hmm2 : k2.mm = (vmCreate k.mm).2 := by rw [hfs2]
  clear hk2
  rw [hproc, hmm2]
  have hdead : ∀ fs : Fs, Claimed k i { k2.procs i with state := .unused }.toTask
      (setState { k2 with toFs := fs } i .unused) := fun fs => hc2.setProc fs rfl
  split
  · next h0 =>
    have hd := hdead k2.toFs
    refine .fail i hi _ rfl (vmCreate k.mm).2 (.inl ⟨h0, rfl⟩)
      ((setRet_tasks ..).trans hd.tasks) (fun j hj => ?_) ((setRet_fds ..).trans hd.fds) hd.files
      hfs2 hd.cur hd.nextPid hd.halted
    rw [setRet_maps]
    exact hd.maps j hj
  rename_i h0
  generalize hs : vmCopy (vmCreate k.mm).2 (vmCreate k.mm).1 k.proc.l1Pa = s
  split
  · have hd := hdead { k2.toFs with mm := vmDestroy s.2 (vmCreate k.mm).1 }
    refine .fail i hi _ rfl (vmDestroy s.2 (vmCreate k.mm).1) (.inr ⟨h0, by rw [hs]⟩)
      ((setRet_tasks ..).trans hd.tasks) (fun j hj => ?_) ((setRet_fds ..).trans hd.fds)
      hd.files ?_ hd.cur hd.nextPid hd.halted
    · rw [setRet_maps]
      exact hd.maps j hj
    show ({ k2.toFs with mm := vmDestroy s.2 (vmCreate k.mm).1 } : Fs) = _
    rw [hfs2]
  -- the child gets the descriptors, then the rest of its control block
  have hne' : k2.cur ≠ i := by
    rw [hc2.cur]
    exact hne
  obtain ⟨ho, hdst, hfiles⟩ := fdtableCopy_spec { k2 with mm := s.2 } hne'
  generalize fdtableCopy { k2 with mm := s.2 } i k2.cur = k4 at ho hdst hfiles ⊢
  have hcur4 : k4.cur = k.cur := ho.cur.trans hc2.cur
  have htasks4 : k4.tasks = update k.tasks i (embryoTask k) := by
    rw [ho.tasks, ← ht1]
    exact hc2.tasks
  have hmaps4 : ∀ j, j ≠ i → k4.maps j = k.maps j := fun j hj => by
    rw [ho.maps]
    exact hc2.maps j hj
  have hfds4 : k4.fds = update k.fds i (k.fds k.cur) := by
    funext j
    by_cases hj : j = i
    · subst hj
      rw [update_self, hdst]
      exact (congrFun hc2.fds _).trans (by rw [hc2.cur])
    rw [update_of_ne hj, ho.fds j hj]
    exact congrFun hc2.fds j
  refine .child i hi h0 ?_ ?_ ?_ ?_ ?_ hcur4 (ho.nextPid.trans hc2.nextPid) (ho.halted.trans hc2.halted)
  · have hchild : (childProc k4 i sp).toTask = { k4.tasks i with
        parent := some k4.cur, creator := (k4.tasks k4.cur).pid, state := .runnable } := rfl
    rw [setRet_tasks, setProc_tasks, hchild, htasks4, update_idem, update_self, hcur4, update_of_ne hne]
    rfl
  · have hchild : (childProc k4 i sp).toMemMap = { k4.maps k4.cur with l1Pa := (k4.maps i).l1Pa } := rfl
    have hl1 : (k4.maps i).l1Pa = (vmCreate k.mm).1 := by
      rw [ho.maps]
      exact congrArg (fun p : Proc => p.l1Pa) hp2
    rw [setRet_maps, KState.setProc_maps, hchild, hl1, hcur4, hmaps4 _ hne]
    funext j
    by_cases hj : j = i
    · subst hj
      rw [update_self, update_self]
      rfl
    rw [update_of_ne hj, update_of_ne hj, hmaps4 j hj]
  · have hsame : (k4.setProc i (childProc k4 i sp)).fds = k4.fds := setProc_fds_same rfl
    rw [setRet_fds, hsame, hfds4]
  · refine hfiles.trans ?_
    have h1 : ({ k2 with mm := s.2 } : KState).fds k2.cur = k.fds k.cur := by
      rw [← hc2.cur]
      exact congrFun hc2.fds _
    rw [h1]
    exact congrArg (dupTable (k.fds k.cur)) hc2.files
  refine ho.toFs.trans ?_
  show ({ k2.toFs with mm := s.2 } : Fs) = _
  rw [hfs2, hs]

end Embedded.Kernel
