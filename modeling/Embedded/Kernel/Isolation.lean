import Embedded.Kernel.BootState
import Embedded.Kernel.Newc

/-! # Frame isolation over whole runs

Every event keeps the frame invariant `KInv`, so it holds in every state of every run: no physical
frame is mapped twice, and the allocator knows every frame that is mapped or holds a page table.
The one exception is a `write` that reaches so far that `ramfs_write` computes a wrapped page count
(`Event.fits` excludes it): it stores through page slots the file does not have. -/

namespace Embedded.Kernel

open Function (update_self update_of_ne)

variable {n p : Nat} {f : File} {fs : Fs} {k : KState}

/-- `n` bytes written through descriptor `fd` end below the last page of the 32-bit range. -/
def writeFits (k : KState) (fd : Int) (n : Nat) : Prop :=
  ∀ p f, fdFile k fd = some (p, f) → (k.inodes f.inode).type = .reg →
    max f.off (k.inodes f.inode).size + n ≤ 0xFFFFF000

/-- Writes stay where `ramfs_write` computes the right page count; any other event is fine. -/
def Event.fits (k : KState) : Event → Prop
  | .syscall _ (.write fd buf) => writeFits k fd buf.length
  | .syscall _ (.writev fd bufs) => writeFits k fd (bufs.map List.length).sum
  | _ => True

section Writes

variable {k : KState} {fd : Int}

theorem writeFits.start (h : writeFits k fd n)
    (hf : fdFile k fd = some (p, f)) (ht : (k.inodes f.inode).type = .reg) :
    writeStart k f + n ≤ 0xFFFFF000 := by
  have := h p f hf ht
  unfold writeStart
  split <;> omega

theorem writeFits.mono {n' : Nat} (h : writeFits k fd n) (hn : n' ≤ n) : writeFits k fd n' :=
  fun p f hf ht => le_trans (by omega) (h p f hf ht)

theorem ramfsWrite_inode {off : Nat} {src : Bytes} (h : 0 ≤ (ramfsWrite fs p off src).1) :
    (ramfsWrite fs p off src).1 = src.length ∧
      ((ramfsWrite fs p off src).2.inodes p).size = max (fs.inodes p).size (off + src.length) := by
  have hok := ensurePages_ok fs p (add32 (off + src.length) 4095 / 4096)
  simp only [ramfsWrite] at h ⊢
  split at h
  · simp at h
  rename_i h1
  rw [if_neg h1]
  split at h
  · simp at h
  rename_i h2
  rw [if_neg h2]
  split at h
  · simp at h
  rename_i h3
  rw [if_neg h3]
  refine ⟨rfl, ?_⟩
  simp only
  split
  · next hgt =>
    simp only [Fs.setInode, update_self]
    omega
  simp only
  omega

theorem fdFile_some : fdFile k fd = some (p, f) ↔ fdGet k fd = some p ∧ k.files p = some f := by
  unfold fdFile
  cases fdGet k fd with
  | none => simp
  | some q => ?_
  simp only [Option.map_eq_some_iff, Prod.mk.injEq, Option.some.injEq]
  constructor
  · rintro ⟨f', hf, rfl, rfl⟩
    exact ⟨rfl, hf⟩
  rintro ⟨rfl, hf⟩
  exact ⟨f, hf, rfl, rfl⟩

theorem fdGet_congr {k' : KState} (h : k'.fds k'.cur = k.fds k.cur) : fdGet k' fd = fdGet k fd := by
  unfold fdGet
  split
  · rfl
  · next i _ => exact congrFun h i

theorem ramfsPipeWrite_type (fs : Fs) (p : Nat) (src : Bytes) (q : Nat) :
    ((ramfsPipeWrite fs p src).2.inodes q).type = (fs.inodes q).type := by
  simp only [ramfsPipeWrite]
  split
  · rfl
  split
  · rfl
  simp only [Fs.setInode]
  by_cases hq : q = p
  · subst hq
    rw [update_self, pipePut_type]
  rw [update_of_ne hq]

/-- The rest of a `writev` fits after a whole buffer was written. -/
theorem sysWrite_fits {buf : Bytes} (h : writeFits k fd (buf.length + n))
    (h0 : 0 ≤ (sysWrite k fd buf).1) : writeFits (sysWrite k fd buf).2 fd n := by
  unfold sysWrite at h0 ⊢
  cases hff : fdFile k fd with
  | none => exact h.mono (by omega)
  | some pf => ?_
  obtain ⟨p, f⟩ := pf
  obtain ⟨hget, hfile⟩ := fdFile_some.1 hff
  rw [hff] at h0
  simp only at h0 ⊢
  split
  · exact h.mono (by omega)
  rename_i hcon
  rw [if_neg hcon] at h0
  split
  · next hpipe =>
    -- the descriptor still leads to a pipe
    intro p' f' hf' ht'
    generalize hr : k.withFs (ramfsPipeWrite k.toFs f.inode buf) = r at hf' ht'
    have hk' : ∀ k', k' = (if r.1 > 0 then procWakeup r.2 (.inode f.inode) else r.2) →
        k'.fds k'.cur = k.fds k.cur ∧ k'.files = k.files ∧
        k'.toFs = (ramfsPipeWrite k.toFs f.inode buf).2 := by
      rintro k' rfl
      split
      · rw [← hr]
        exact ⟨congrFun (procWakeup_fds _ _) _, rfl, rfl⟩
      rw [← hr]
      exact ⟨rfl, rfl, rfl⟩
    obtain ⟨hfds, hfiles, hfs⟩ := hk' _ rfl
    obtain ⟨hget', hfile'⟩ := fdFile_some.1 hf'
    rw [fdGet_congr hfds, hget] at hget'
    cases hget'
    rw [hfiles, hfile] at hfile'
    cases hfile'
    rw [hfs, ramfsPipeWrite_type, hpipe] at ht'
    cases ht'
  rename_i hpipe
  rw [if_neg hpipe] at h0
  split
  · exact h.mono (by omega)
  rename_i hreg
  rw [if_neg hreg] at h0
  have hb := h p f hff (by simpa using hreg)
  generalize hg : (if f.flags &&& oAppend ≠ 0
    then { f with off := (k.inodes f.inode).size } else f) = g at h0 ⊢
  have hgi : g.inode = f.inode := by
    rw [← hg]
    split <;> rfl
  have hgo : g.off ≤ max f.off (k.inodes f.inode).size := by
    rw [← hg]
    split
    · exact le_max_right ..
    exact le_max_left ..
  obtain ⟨hlen, hsize⟩ := ramfsWrite_inode h0
  intro p' f' hf' _
  obtain ⟨hget', hfile'⟩ := fdFile_some.1 hf'
  generalize hr : (k.setFile p (some g)).withFs (ramfsWrite k.toFs g.inode g.off buf)
    = r at h0 hf' hget' hfile' ⊢
  have hr1 : r.1 = buf.length := by
    rw [← hr]
    exact hlen
  have hadv : ∀ k', k' = advance r.2 p g r.1 → k'.fds k'.cur = k.fds k.cur ∧
      (∃ f1, k'.files p = some f1 ∧ f1.inode = f.inode ∧
        f1.off ≤ g.off + buf.length) ∧ k'.toFs = r.2.toFs := by
    rintro k' rfl
    unfold advance
    split
    · refine ⟨by rw [← hr]; rfl, ⟨_, update_self .., hgi, ?_⟩, rfl⟩
      rw [hr1]
      unfold add32
      simp only [Int.toNat_natCast]
      omega
    refine ⟨by rw [← hr]; rfl, ⟨g, ?_, hgi, by omega⟩, rfl⟩
    rw [← hr]
    exact update_self ..
  obtain ⟨hfds, ⟨f1, hf1, hi1, ho1⟩, hfs⟩ := hadv _ rfl
  rw [fdGet_congr hfds, hget] at hget'
  cases hget'
  rw [hf1] at hfile'
  cases hfile'
  have hs : (r.2.inodes f.inode).size = max (k.inodes f.inode).size (g.off + buf.length) := by
    rw [← hr, ← hgi]
    exact hsize
  simp only [hfs, hi1, hs]
  omega

end Writes

/-! ## One event -/

section Step

variable {k k1 k' : KState} {e : Event}

/-- The state a file call leaves. -/
def Quiet (k k' : KState) : Prop := Calm k k' ∧ FsStep k.toFs k'.toFs k.live

theorem quiet_closed (k : KState) :
    CallClosed FsOp.fits (fun _ => True) (fun _ _ _ => True) fun k' _ => Quiet k k' :=
  ((calm_closed (fun _ => trivial) k).and (fsStep_closed k.toFs k.live)).calls

theorem Quiet.refl (inv : KInv k) : Quiet k k := ⟨.refl k, .refl inv.fs⟩

theorem Quiet.moved (h : Quiet k k') (inv : KInv k) (e : Event) : Moved k e k' :=
  (h.1.sameSpaces h.2 inv).moved inv e

theorem saveTf_live (k : KState) (tf : Trapframe) : (saveTf k tf).live = k.live := by
  unfold KState.live
  rw [saveTf_tasks, saveTf_maps]

theorem saveTf_pages (k : KState) (tf : Trapframe) : (saveTf k tf).pages = k.pages := by
  unfold KState.pages
  rw [saveTf_live, saveTf_maps]
  rfl

theorem Moved.of_tf (tf : Trapframe) (h : Moved (saveTf k tf) e k') : Moved k e k' := by
  have htasks := saveTf_tasks k tf
  have hmaps := saveTf_maps k tf
  have hpages := saveTf_pages k tf
  refine ⟨h.inv, fun i hi => ?_⟩
  have hs := h.step i hi
  generalize hk1 : saveTf k tf = k1 at hs htasks hmaps hpages
  have hcur : k1.cur = k.cur := by rw [← hk1]; rfl
  cases hs with
  | same ha hm hP => exact .same (htasks ▸ ha) (hmaps ▸ hm) (hpages ▸ hP)
  | fork ha hm hP =>
    rw [hcur] at ha hm hP
    exact .fork (htasks ▸ ha) (hmaps ▸ hm) (hpages ▸ hP)
  | exec lr hok hm hP => exact .exec lr hok hm hP
  | brk ha tf addr he hi hm hceil hP hgone =>
    rw [hcur] at hi
    rw [hmaps] at hm hceil hP hgone
    exact .brk (htasks ▸ ha) tf addr he hi hm hceil (hpages ▸ hP) hgone
  | fixed ha tf addr len flags fd pgoff he hi hfix hm hP =>
    rw [hcur] at hi
    exact .fixed (htasks ▸ ha) tf addr len flags fd pgoff he hi hfix (hmaps ▸ hm) (hpages ▸ hP)
  | placed ha base hm htop hP =>
    rw [hmaps] at hm htop
    exact .placed (htasks ▸ ha) base hm htop (hpages ▸ hP)
  | munmap ha stop hm hP hgone =>
    rw [hmaps] at hm hgone
    exact .munmap (htasks ▸ ha) stop hm (hpages ▸ hP) hgone

theorem Moved.setRet (h : Moved k e k') (v : Int) : Moved k e (setRet k' v) := by
  have hs : SameSpaces k' (Kernel.setRet k' v) := (h.inv.sched rfl rfl (fun _ => Iff.rfl) h.inv.cur).setRet v
  refine ⟨hs.kinv h.inv, fun i hi => ?_⟩
  rw [setRet_tasks] at hi
  rw [setRet_maps]
  refine (h.step i hi).mono fun s t hP => ?_
  unfold KState.pages at hP ⊢
  rwa [hs.live_eq, setRet_maps] at hP

variable (inv : KInv k)
include inv

theorem switchTo_same (hrun : k.halted = false) {q : Proc} {nx : Slot}
    (hq : q.toMemMap = k.proc.toMemMap) (hqa : q.toTask.alive) (hnx : (k.tasks nx).state = .runnable) :
    SameSpaces k (switchTo (k.setProc k.cur q) nx) := by
  have hmaps : (switchTo (k.setProc k.cur q) nx).maps = k.maps :=
    (switchTo_maps _ _).trans (KState.setProc_maps_same hq)
  have halive := switchTo_alive (inv.cur hrun) hqa hnx
  refine inv.sched rfl hmaps halive fun _ => ?_
  exact (halive nx).2 (.inl hnx)

theorem KInv.same : SameSpaces k k := inv.sched rfl rfl (fun _ => Iff.rfl) inv.cur

theorem procSleep_same (hrun : k.halted = false) (c : Chan) : SameSpaces k (procSleep k c).2 := by
  rcases procSleep_cases k c with h | ⟨nx, _, hnx, h⟩
  · rw [h]
    exact inv.same
  rw [h]
  exact switchTo_same inv hrun rfl (.inr (.inr rfl)) hnx

theorem procPreempt_same (hrun : k.halted = false) (tf : Trapframe) : SameSpaces k (procPreempt k tf) := by
  rcases procPreempt_cases k tf with h | ⟨nx, _, hnx, h⟩
  · rw [h]
    exact inv.same
  rw [h]
  exact switchTo_same inv hrun rfl (.inl rfl) hnx

theorem procWait_same (hrun : k.halted = false) : SameSpaces k (procWait k).2 := by
  rcases procWait_cases k with ⟨i, hz, _, h⟩ | ⟨_, h | ⟨_, _, h⟩⟩
  · rw [h]
    have htasks := KState.setProc_tasks k i { k.procs i with state := .unused }
    have hmaps : (setState k i .unused).maps = k.maps := KState.setProc_maps_same rfl
    refine SameSpaces.setRet ?_ _
    refine inv.deadSlot (i := i) (by simp [Task.alive, hz]) ?_ (fun j hj => ?_) (fun j _ => ?_)
      (.refl inv.fs) rfl rfl
    · rw [setState, htasks, update_self]
      simp [Task.alive]
    · rw [setState, htasks, update_of_ne hj]
    rw [hmaps]
  · rw [h]
    exact inv.same.setRet _
  rw [h]
  exact procSleep_same inv hrun _

theorem sysWritev_quiet {fd : Int} {bufs : List Bytes}
    (h : writeFits k fd (bufs.map List.length).sum) : Quiet k (sysWritev k fd bufs).2 := by
  refine (quiet_closed k).sysWritev (H := 0)
    (fun bufs k => writeFits k fd (bufs.map List.length).sum) fd bufs (.refl inv) h
    (fun bufs k h => ?_) (fun _ _ _ => trivial) (fun buf bufs k h p f hf ht => ?_)
    fun buf bufs k h h0 _ => ?_
  · simpa using h
  · rw [List.map_cons, List.sum_cons] at h
    exact (h.mono (Nat.le_add_right _ _)).start hf ht
  rw [List.map_cons, List.sum_cons] at h
  exact sysWrite_fits h h0

theorem dispatch_moved (hrun : k.halted = false) (tf : Trapframe) (c : Call)
    (hfits : Event.fits k (.syscall tf c)) : Moved k (.syscall tf c) (dispatch k c).2 := by
  have hq := Quiet.refl inv
  have qc := quiet_closed k
  have hcur : (k.tasks k.cur).state ≠ .unused := (inv.cur hrun).ne_unused
  by_cases hd : c.onDescriptor = true
  · have hquiet : Quiet k (dispatch k c).2 :=
      qc.dispatch hq hd (fun _ _ _ _ _ => ⟨fun _ _ _ => ⟨trivial, trivial⟩, fun _ _ _ _ _ => trivial⟩)
        (fun _ _ => trivial) fun _ _ _ _ _ _ => trivial
    exact hquiet.moved inv _
  cases c with
  | fork => exact (doFork_forked k 0 hcur).moved inv hrun _
  | clone flags childStack =>
    simp only [dispatch]
    unfold procClone
    split
    · exact (inv.same.setRet _).moved inv _
    exact (doFork_forked k _ hcur).moved inv hrun _
  | execve path argv envp => exact (procExecve_out k path argv envp).moved inv hrun _
  | wait4 => exact (procWait_same inv hrun).moved inv _
  | exit code => exact reapCurrentAndSwitch_moved inv hrun _ code 0
  | read fd n input =>
    have hr : Quiet k (sysRead k fd n.toNat input).2 :=
      qc.sysRead (H := 0) hq fd n.toNat input fun _ _ _ _ => trivial
    simp only [dispatch]
    unfold trapRead
    split
    · exact (hr.moved inv _).setRet _
    simp only
    split
    · exact (procSleep_same inv hrun _).moved inv _
    exact (hr.moved inv _).setRet _
  | write fd buf =>
    have hw : Quiet k (sysWrite k fd buf).2 := qc.sysWrite (H := 0) hq fd buf
      (fun _ _ _ _ => trivial) fun p f hf ht => writeFits.start hfits hf ht
    exact (hw.moved inv _).setRet _
  | readv fd lens input =>
    have hr : Quiet k (sysReadv k fd (lens.map UInt32.toNat) input).2 :=
      qc.sysReadv (H := 0) hq fd _ input fun _ _ _ => trivial
    exact (hr.moved inv _).setRet _
  | writev fd bufs => exact ((sysWritev_quiet inv hfits).moved inv _).setRet _
  | brk addr => exact (sysBrk_moved inv hrun tf addr).setRet _
  | mmap2 addr len flags fd pgoff =>
    exact (sysMmap2_moved inv hrun tf addr len flags fd pgoff).setRet _
  | munmap addr len => exact (sysMunmap_moved inv hrun _ addr len).setRet _
  | other r => exact (inv.same.moved inv _).setRet _
  | _ => exact absurd rfl hd

omit inv in
theorem writeFits_tf (tf : Trapframe) (fd : Int) (n : Nat) :
    writeFits (saveTf k tf) fd n ↔ writeFits k fd n := by
  have hff : ∀ fd, fdFile (saveTf k tf) fd = fdFile k fd := by
    intro fd
    unfold fdFile
    rw [fdGet_congr (congrFun (saveTf_fds k tf) _)]
    rfl
  unfold writeFits
  rw [hff]
  rfl

omit inv in
theorem Event.fits_tf (tf : Trapframe) (c : Call) (h : Event.fits k (.syscall tf c)) :
    Event.fits (saveTf k tf) (.syscall tf c) := by
  cases c with
  | write fd buf | writev fd bufs => exact (writeFits_tf tf fd _).2 h
  | _ => trivial

theorem KInv.saveTf (tf : Trapframe) : KInv (saveTf k tf) := by
  have hs : SameSpaces k (Kernel.saveTf k tf) :=
    inv.sched rfl (saveTf_maps k tf) (fun i => by rw [saveTf_tasks])
      fun h => by rw [saveTf_tasks]; exact inv.cur h
  exact hs.kinv inv

/-- **Every event keeps the frame invariant**, and moves pages as `MapStep` says. -/
theorem next_moved (hrun : k.halted = false) (hfits : Event.fits k e) : Moved k e (next k e) := by
  unfold next step
  rw [hrun]
  simp only [Bool.false_eq_true, if_false]
  cases e with
  | syscall tf c =>
    exact (dispatch_moved (inv.saveTf tf) hrun tf c (Event.fits_tf tf c hfits)).of_tf tf
  | tick tf => exact (procPreempt_same inv hrun tf).moved inv _
  | fault kind tf =>
    simp only [faultTrap]
    refine Moved.of_tf tf ?_
    split
    · have hs : SameSpaces (saveTf k tf) { saveTf k tf with halted := true } :=
        (inv.saveTf tf).sched rfl rfl (fun _ => Iff.rfl) nofun
      exact hs.moved (inv.saveTf tf) _
    exact reapCurrentAndSwitch_moved (inv.saveTf tf) hrun _ _ _
  | store va b => exact userStore_moved inv hrun _ va b

end Step

/-! ## Runs -/

/-- What the first process finds: it is alone, in the image of its program. -/
structure Fresh (k : KState) : Prop where
  inv : KInv k
  run : k.halted = false
  alone : ∀ i, (k.tasks i).alive → i = k.cur
  map : ∃ lr l, lr.Ok ∧ k.maps k.cur = lr.memMap l ∧ ∀ s t, k.pages k.cur s t → freshPages lr s t

theorem enter_fresh {k0 : KState} (hs : Spawned fs k0) (tf : Trapframe) : Fresh (enter k0 tf) := by
  obtain ⟨lr, l, hok, hmap, hscr⟩ := hs.map
  have hfs : FsStep k0.toFs (initStdio k0 0).toFs (insert l ∅) :=
    (fsStep_closed k0.toFs (insert l ∅)).calls.initStdio (k := k0) (H := 0) (.refl hscr.inv)
      hs.cur.symm hs.fds fun _ _ _ => trivial
  have hcalm : Calm k0 (initStdio k0 0) :=
    (calm_calls k0).initStdio (k := k0) (H := 0) (.refl k0) hs.cur.symm hs.fds fun _ _ _ => trivial
  simp only [enter]
  generalize initStdio k0 0 = k at hfs hcalm
  generalize hq : ({ k.procs 0 with tf := tf, state := .runnable } : Proc) = q
  have hqm : q.toMemMap = (k.procs 0).toMemMap := by rw [← hq]
  have hmaps : (switchTo (k.setProc 0 q) 0).maps = k0.maps :=
    ((switchTo_maps _ _).trans (KState.setProc_maps_same hqm)).trans hcalm.maps
  have hother : ∀ i, i ≠ 0 → ¬ ((switchTo (k.setProc 0 q) 0).tasks i).alive := by
    intro i hi
    have h0 : k0.tasks i = {} := congrArg Proc.toTask (hs.procs i hi)
    have hk : ¬ (k.tasks i).alive := by
      rw [hcalm.alive_iff, h0]
      decide
    rwa [switchTo_tasks, update_of_ne hi, KState.setProc_tasks, update_of_ne hi]
  have hself : ((switchTo (k.setProc 0 q) 0).tasks 0).alive := by
    rw [switchTo_tasks, update_self]
    exact .inr (.inl rfl)
  have hhalt : (switchTo (k.setProc 0 q) 0).halted = false := hcalm.halted.trans hs.halted
  have hcur : (switchTo (k.setProc 0 q) 0).cur = 0 := rfl
  have htofs : (switchTo (k.setProc 0 q) 0).toFs = k.toFs := rfl
  generalize switchTo (k.setProc 0 q) 0 = k' at hmaps hother hself hhalt hcur htofs ⊢
  have halone : ∀ i, (k'.tasks i).alive → i = 0 := fun i hi => by_contra fun h => hother i h hi
  have hlive : k'.live = insert l ∅ := by
    ext a
    constructor
    · rintro ⟨i, hi, rfl⟩
      rw [halone i hi, hmaps, hmap]
      exact .inl rfl
    rintro (rfl | h)
    · exact ⟨0, hself, by rw [hmaps, hmap]; rfl⟩
    simp at h
  refine ⟨⟨?_, fun i j hi hj _ => ?_, fun _ => hcur ▸ hself, fun i hi => ?_⟩, hhalt,
    fun i hi => hcur ▸ halone i hi, lr, l, hok, by rw [hcur, hmaps, hmap], fun s t hP => ?_⟩
  · rw [hlive, htofs]
    exact hfs.inv
  · rw [halone i hi, halone j hj]
  · rw [halone i hi, hmaps, hmap]
    have htop : Kernel.mmapTop % 4096 = 0 ∧ Kernel.mmapTop < 4294967296 := by decide
    exact htop
  obtain ⟨f, hf⟩ := hP
  have hmm : k'.mm = k.mm := congrArg Fs.mm htofs
  rw [hcur, hlive, hmaps, hmap, hmm] at hf
  exact hscr.sub s t f ((hfs.pages _ f rfl).1 hf)

theorem booted_fresh (h : Booted k) : Fresh k := by
  obtain ⟨b, hb⟩ := h
  obtain ⟨r, fs, k0, tf, _, _, _, hs, rfl⟩ := boot_spawned hb
  exact enter_fresh hs tf

theorem next_halted (h : k.halted = true) (e : Event) : next k e = k := by
  unfold next step
  rw [h]
  rfl

theorem reached_kinv (h : ReachedIf Event.fits k) : KInv k := by
  refine h.invariant (fun k hk => (booted_fresh hk).inv) fun k e hfits inv => ?_
  cases hh : k.halted with
  | true => rwa [next_halted hh]
  | false => exact (next_moved inv hh hfits).inv

/-- **Frame isolation.** In every state of every run no frame has two holders, be they entries of
    page tables or page tables of live address spaces, every frame that is held is marked used, and
    no two live processes share an L1 table. -/
theorem frame_isolation {k : KState} (h : ReachedIf Event.fits k) :
    (∀ r r' f, k.mm.holds k.live r f → k.mm.holds k.live r' f → r = r') ∧
    (∀ r f, k.mm.holds k.live r f → k.mm.used f) ∧
    (∀ i j, (k.tasks i).alive → (k.tasks j).alive → (k.maps i).l1Pa = (k.maps j).l1Pa → i = j) := by
  have inv := reached_kinv h
  exact ⟨inv.fs.mm.owns.uniq, inv.fs.mm.owns.alloc, inv.inj⟩

/-- A run that maps a page, forks and grows its heap. -/
def isolationRun : List Event :=
  [.syscall {} (.mmap2 0 0x1000 0x22 (-1) 0), .syscall {} .fork, .syscall {} (.brk 0x12000)]

theorem frame_isolation_tiny : ReachedIf Event.fits (runFrom next tiny isolationRun) ∧
    ∀ r r' f, (runFrom next tiny isolationRun).mm.holds (runFrom next tiny isolationRun).live r f →
      (runFrom next tiny isolationRun).mm.holds (runFrom next tiny isolationRun).live r' f →
      r = r' := by
  have h : ReachedIf Event.fits (runFrom next tiny isolationRun) :=
    Reachable.runFrom (.init tiny_booted) _ ⟨trivial, trivial, trivial, trivial⟩
  exact ⟨h, (frame_isolation h).1⟩

/-- Moreover, user code stores to the pages it has mapped only. The kernel's sections are open to it as
    well: through them it can change any table. -/
def Event.tame (k : KState) (e : Event) : Prop :=
  e.fits k ∧ ∀ va b, e = .store va b → vmWalk k.mm k.proc.l1Pa va.toNat ≠ 0

end Embedded.Kernel
