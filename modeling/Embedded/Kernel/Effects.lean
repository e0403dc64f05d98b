import Mathlib.Data.Multiset.Count
import Embedded.Kernel.FileFrames
import Embedded.Kernel.FsSyscall
import Embedded.Kernel.Proc

/-! # What file calls can change

A file call changes the state in a few ways: it runs a function of `ramfs.c` (`FsOp`), it opens,
duplicates or closes an open file, it stores a reference to one in a descriptor or takes it out, it
moves a file's cursor or sets its flags, it wakes the sleepers of an inode. `CallClosed R` says that
`R` survives each of them, and the lemmas carry `R` through every call of `fs_syscall.c`. The second
argument of `R` are the references to open files that the call holds at the moment, besides those in
the descriptors.

`FileClosed` is the special case of a property that does not look at references: there the steps may
be taken apart further, down to single writes to the tables.

Some steps are guarded, because some properties survive them only under a condition: `G` guards the
functions of `ramfs.c`, `T` the types of inode that are opened, `L` the flags that are set. -/

namespace Embedded.Kernel

open Function (update update_self update_of_ne update_eq_self)

variable {mode : Nat} {i : Slot}

variable {f : File} {fs : Fs} {fd : Int}

namespace KState

/-- What the scheduler sees of each process. -/
def tasks (k : KState) (i : Slot) : Task := (k.procs i).toTask

/-- The memory map of each process. -/
def maps (k : KState) (i : Slot) : MemMap := (k.procs i).toMemMap

/-- The descriptor table of each process. -/
def fds (k : KState) (i : Slot) : Fd → Option Nat := (k.procs i).fds

variable (k : KState) (i : Slot) (p : Proc)

theorem setProc_tasks : (k.setProc i p).tasks = update k.tasks i p.toTask := by
  funext j
  by_cases h : j = i
  · subst h
    simp [tasks, setProc]
  simp [tasks, setProc, update_of_ne h]

theorem setProc_maps : (k.setProc i p).maps = update k.maps i p.toMemMap := by
  funext j
  by_cases h : j = i
  · subst h
    simp [maps, setProc]
  simp [maps, setProc, update_of_ne h]

theorem setProc_fds : (k.setProc i p).fds = update k.fds i p.fds := by
  funext j
  by_cases h : j = i
  · subst h
    simp [fds, setProc]
  simp [fds, setProc, update_of_ne h]

variable {k i p}

theorem setProc_tasks_same (h : p.toTask = k.tasks i) : (k.setProc i p).tasks = k.tasks := by
  rw [setProc_tasks, h, update_eq_self]

theorem setProc_maps_same (h : p.toMemMap = k.maps i) : (k.setProc i p).maps = k.maps := by
  rw [setProc_maps, h, update_eq_self]

theorem setProc_fds_same (h : p.fds = k.fds i) : (k.setProc i p).fds = k.fds := by
  rw [setProc_fds, h, update_eq_self]

end KState

variable (k : KState)

theorem procWakeup_tasks (c : Chan) (i : Slot) : (procWakeup k c).tasks i
      = if (k.tasks i).state = .blocked ∧ (k.tasks i).waitChan = some c
        then { k.tasks i with waitChan := none, state := .runnable } else k.tasks i := by
  split
  · next h => exact congrArg Proc.toTask (if_pos h)
  next h => exact congrArg Proc.toTask (if_neg h)

theorem procWakeup_maps (c : Chan) : (procWakeup k c).maps = k.maps := by
  funext i
  simp only [KState.maps, procWakeup]
  split <;> rfl

theorem procWakeup_fds (c : Chan) : (procWakeup k c).fds = k.fds := by
  funext i
  simp only [KState.fds, procWakeup]
  split <;> rfl

/-- Where a write through the file `f` starts. -/
def writeStart (k : KState) (f : File) : Nat :=
  if f.flags &&& oAppend ≠ 0 then (k.inodes f.inode).size else f.off

/-- The functions of `ramfs.c` that change something, as file calls use them. -/
inductive FsOp
  | kmalloc
  | pipe
  | pipeRead (p n : Nat)
  | pipeWrite (p : Nat) (src : Bytes)
  | write (p off : Nat) (src : Bytes)
  | truncate (p : Nat)
  | mkreg (dir : Nat) (name : Bytes) (mode : Nat)

def FsOp.apply (fs : Fs) : FsOp → Fs
  | .kmalloc => (Kernel.kmalloc fs).2
  | .pipe => (ramfsPipe fs).2
  | .pipeRead p n => (ramfsPipeRead fs p n).2
  | .pipeWrite p src => (ramfsPipeWrite fs p src).2
  | .write p off src => (ramfsWrite fs p off src).2
  | .truncate p => (ramfsTruncate fs p 0).2
  | .mkreg dir name mode => (ramfsMkreg fs dir name mode).2

theorem pipeOpenAccount_cases (f : File) (delta : Int) :
    ((f.inode = 0 ∨ (k.inodes f.inode).type ≠ .pipe) ∧ pipeOpenAccount k f delta = k) ∨
    (f.inode ≠ 0 ∧ (k.inodes f.inode).type = .pipe ∧ ∀ k', k' = { k with
        toFs := k.toFs.setInode f.inode ((k.inodes f.inode).account f.flags delta) } →
      pipeOpenAccount k f delta = k' ∨ pipeOpenAccount k f delta = procWakeup k' (.inode f.inode)) := by
  simp only [pipeOpenAccount]
  split
  · next h => exact .inl ⟨h, rfl⟩
  rename_i h
  rw [not_or, not_not] at h
  refine .inr ⟨h.1, h.2, ?_⟩
  rintro k' rfl
  split
  · exact .inr rfl
  exact .inl rfl

theorem pipeOpenAccount_fds (f : File) (delta : Int) :
    (pipeOpenAccount k f delta).fds = k.fds ∧ (pipeOpenAccount k f delta).cur = k.cur ∧
      (pipeOpenAccount k f delta).files = k.files := by
  rcases pipeOpenAccount_cases k f delta with ⟨_, h⟩ | ⟨_, _, h⟩
  · rw [h]
    exact ⟨rfl, rfl, rfl⟩
  rcases h _ rfl with h | h
  · rw [h]
    exact ⟨rfl, rfl, rfl⟩
  rw [h]
  exact ⟨procWakeup_fds .., rfl, rfl⟩

theorem fileOpenInode_cases (ino flags : Nat) :
    (fileOpenInode k ino flags = (0, { k with toFs := (kmalloc k.toFs).2 })) ∨
    (∃ p, p ≠ 0 ∧ k.files p = none ∧ fileOpenInode k ino flags = (p, pipeOpenAccount
      ({ k with toFs := (kmalloc k.toFs).2 }.setFile p (some (newFile ino flags)))
      (newFile ino flags) 1)) := by
  simp only [fileOpenInode]
  split
  · exact .inl rfl
  rename_i h
  rw [not_or, Bool.not_eq_true, Option.isSome_eq_false_iff, Option.isNone_iff_eq_none] at h
  exact .inr ⟨_, h.1, h.2, rfl⟩

theorem fileOpenInode_fds (ino flags : Nat) :
    (fileOpenInode k ino flags).2.fds = k.fds ∧ (fileOpenInode k ino flags).2.cur = k.cur := by
  rcases fileOpenInode_cases k ino flags with h | ⟨p, _, _, h⟩
  · rw [h]
    exact ⟨rfl, rfl⟩
  rw [h]
  exact ⟨(pipeOpenAccount_fds ..).1, (pipeOpenAccount_fds ..).2.1⟩

variable {p : Nat}

theorem fileClose_cases (hf : k.files p = some f) : (f.refcnt - 1 ≤ 0 ∧
      fileClose k p = (pipeOpenAccount k { f with refcnt := f.refcnt - 1 } (-1)).setFile p none) ∨
    (0 < f.refcnt - 1 ∧ fileClose k p = k.setFile p (some { f with refcnt := f.refcnt - 1 })) := by
  unfold fileClose
  rw [hf]
  simp only
  split
  · next h => exact .inl ⟨h, rfl⟩
  next h => exact .inr ⟨by omega, rfl⟩

theorem fileClose_cur (p : Nat) : (fileClose k p).cur = k.cur := by
  unfold fileClose
  split
  · rfl
  simp only
  split
  · exact (pipeOpenAccount_fds ..).2.1
  rfl

theorem closeSlot_cur (i : Slot) (fd : Fd) : (closeSlot k i fd).cur = k.cur := by
  unfold closeSlot
  split
  · rfl
  exact fileClose_cur k _

theorem setFd_fds (i : Slot) (fd : Fd) (f : Option Nat) :
    (setFd k i fd f).fds = update k.fds i (update (k.fds i) fd f) :=
  KState.setProc_fds k i _

/-! ## The types of inodes -/

theorem RfInode.account_type (n : RfInode) (flags : Nat) (delta : Int) :
    (n.account flags delta).type = n.type := by
  unfold RfInode.account
  split
  · rfl
  split <;> rfl

theorem Fs.setInode_type {n : RfInode} (h : n.type = (fs.inodes p).type) (q : Nat) :
    ((fs.setInode p n).inodes q).type = (fs.inodes q).type := by
  by_cases hq : q = p
  · subst hq
    simp only [Fs.setInode, update_self, h]
  simp only [Fs.setInode, update_of_ne hq]

theorem pipeOpenAccount_type (f : File) (delta : Int) (q : Nat) :
    ((pipeOpenAccount k f delta).inodes q).type = (k.inodes q).type := by
  have ht : ((k.toFs.setInode f.inode ((k.inodes f.inode).account f.flags delta)).inodes q).type
      = (k.inodes q).type :=
    Fs.setInode_type (RfInode.account_type (k.inodes f.inode) f.flags delta) q
  rcases pipeOpenAccount_cases k f delta with ⟨_, h⟩ | ⟨_, _, h⟩
  · rw [h]
  rcases h _ rfl with h | h <;> rw [h] <;> exact ht

theorem fileOpenInode_type (ino flags q : Nat) :
    ((fileOpenInode k ino flags).2.inodes q).type = (k.inodes q).type := by
  have hk : ((k.withFs (kmalloc k.toFs)).2.inodes q).type = (k.inodes q).type := by
    show ((kmalloc k.toFs).2.inodes q).type = _
    rw [kmalloc_inodes]
  simp only [fileOpenInode]
  split
  · exact hk
  exact (pipeOpenAccount_type ..).trans hk

theorem ramfsTruncate_zero_type (fs : Fs) (p q : Nat) :
    ((ramfsTruncate fs p 0).2.inodes q).type = (fs.inodes q).type := by
  simp only [ramfsTruncate]
  split
  · rfl
  rw [if_neg (Nat.not_lt_zero _)]
  exact Fs.setInode_type (by rfl) q

theorem ramfsPipe_type (h : (ramfsPipe fs).1 ≠ 0) :
    ((ramfsPipe fs).2.inodes (ramfsPipe fs).1).type = .pipe := by
  simp only [ramfsPipe] at h ⊢
  split at h
  · exact absurd rfl h
  rename_i h0
  rw [if_neg h0]
  split at h
  · exact absurd rfl h
  rename_i h1
  rw [if_neg h1]
  simp only
  rw [kmalloc_inodes]
  exact inodeNew_self h0

theorem ramfsMkreg_type {dir : Nat} {name : Bytes} (h : (ramfsMkreg fs dir name mode).1 ≠ 0) :
    ((ramfsMkreg fs dir name mode).2.inodes (ramfsMkreg fs dir name mode).1).type = .reg := by
  simp only [ramfsMkreg] at h ⊢
  split at h
  · exact absurd rfl h
  rename_i h0
  rw [if_neg h0]
  have ht := inodeNew_self h0
  generalize inodeNew fs .reg ((mode &&& 0o7777) ||| 0o100000) = r at h ht h0 ⊢
  simp only [linkOrFree] at h ⊢
  split at h
  · next h1 =>
    rw [if_pos h1]
    unfold dirLink at h1 ⊢
    by_cases h2 : (kmalloc r.2).1 = 0
    · rw [if_pos h2] at h1
      simp at h1
    rw [if_neg h2]
    refine (Fs.setInode_type (by rfl) r.1).trans ?_
    rw [kmalloc_inodes]
    exact ht
  exact absurd rfl h

/-! ## Steps of file calls -/

/-- `R` survives what file calls do, with the references they hold on the way. -/
structure CallClosed (G : Fs → FsOp → Prop) (T : RfType → Prop) (L : KState → File → Nat → Prop)
    (R : KState → Multiset Nat → Prop) : Prop where
  fs : ∀ {k H} op, R k H → G k.toFs op → R { k with toFs := op.apply k.toFs } H
  opened : ∀ {k H} ino flags, R k H → T (k.inodes ino).type →
    R (fileOpenInode k ino flags).2
      (if (fileOpenInode k ino flags).1 = 0 then H else (fileOpenInode k ino flags).1 ::ₘ H)
  dup : ∀ {k H fd p}, R k H → k.fds k.cur fd = some p → R (fileDup k p) (p ::ₘ H)
  close : ∀ {k H p}, R k (p ::ₘ H) → R (fileClose k p) H
  install : ∀ {k H fd p}, R k (p ::ₘ H) → k.fds k.cur fd = none →
    R (setFd k k.cur fd (some p)) H
  closeSlot : ∀ {k H} fd, R k H → R (closeSlot k k.cur fd) H
  replace : ∀ {k H fd p q}, R k (p ::ₘ H) → k.fds k.cur fd = some q →
    R (setFd (fileClose k q) k.cur fd (some p)) H
  cursor : ∀ {k H p f} off, R k H → k.files p = some f →
    R (k.setFile p (some { f with off := off })) H
  flags : ∀ {k H p f} arg, R k H → k.files p = some f → L k f arg →
    R (k.setFile p (some { f with flags := arg })) H
  proc : ∀ {k H} cwd tf, R k H →
    R (k.setProc k.cur { k.procs k.cur with cwd := cwd, tf := tf }) H
  wakeup : ∀ {k H} p, R k H → R (procWakeup k (.inode p)) H
  /-- What the calls create may be opened. -/
  reg : T .reg
  pipe : T .pipe

/-- What `openat` needs: a file that is found may be opened and truncated, one that is not may be
    created. -/
structure OpenGuard (G : Fs → FsOp → Prop) (T : RfType → Prop) (k : KState) (dirfd : Int)
    (path : Bytes) (flags : Nat) : Prop where
  found : ∀ ino, resolveAt k dirfd path (flags &&& oNofollow = 0) = ino → ino ≠ 0 →
    T (k.inodes ino).type ∧ G k.toFs (.truncate ino)
  create : path ≠ [] → flags &&& oCreat ≠ 0 →
    resolveAt k dirfd path (flags &&& oNofollow = 0) = 0 →
    (parentOf k k.proc.cwd path).1 ≠ 0 → ∀ mode, G k.toFs
      (.mkreg (parentOf k k.proc.cwd path).1 (parentOf k k.proc.cwd path).2 mode)

namespace CallClosed

variable {G : Fs → FsOp → Prop} {T : RfType → Prop} {L : KState → File → Nat → Prop}
  {R : KState → Multiset Nat → Prop} {k : KState} {H : Multiset Nat}

variable (c : CallClosed G T L R)
include c

/-! ## Open files and descriptors -/

variable (h : R k H)
include h

theorem setRet (v : Int) : R (setRet k v) H := c.proc _ _ h

omit h in
/-- A held reference goes to a free descriptor, or stays where it is. -/
theorem fdAllocFrom (h : R k (p ::ₘ H)) (min : Int) :
    R (fdAllocFrom k p min).2 (if (fdAllocFrom k p min).1 < 0 then p ::ₘ H else H) := by
  unfold Kernel.fdAllocFrom
  split
  · exact h
  rename_i i hi
  have hs := List.find?_some hi
  simp only [Bool.and_eq_true, decide_eq_true_eq, Option.isNone_iff_eq_none] at hs
  have hnn : ¬ ((i.val : Int) < 0) := by omega
  simp only [if_neg hnn]
  exact c.install h hs.2

theorem fdClose (fd : Int) : R (fdClose k fd).2 H := by
  unfold Kernel.fdClose
  split
  · exact h
  split
  · exact h
  exact c.closeSlot _ h

theorem fdtableCloseall (hi : i = k.cur) : R (fdtableCloseall k i) H := by
  unfold Kernel.fdtableCloseall
  generalize List.finRange 16 = fds
  induction fds generalizing k with
  | nil => exact h
  | cons fd fds ih => exact ih (hi ▸ c.closeSlot fd h) (hi.trans (closeSlot_cur k i fd).symm)

theorem openStdio {con : Nat} (hT : T (k.inodes con).type) (hi : i = k.cur) {fd : Fd} (hfd : k.fds i fd = none) (flags : Nat) :
    R (openStdio con i fd flags k) H ∧ (openStdio con i fd flags k).cur = k.cur ∧
      (∀ q, ((openStdio con i fd flags k).inodes q).type = (k.inodes q).type) ∧
      ∀ fd', fd' ≠ fd → (openStdio con i fd flags k).fds i fd' = k.fds i fd' := by
  have ho := c.opened con flags h hT
  obtain ⟨hfds, hcur⟩ := fileOpenInode_fds k con flags
  have ht := fileOpenInode_type k con flags
  simp only [Kernel.openStdio]
  generalize fileOpenInode k con flags = r at ho hfds hcur ht ⊢
  split
  · next h0 =>
    rw [if_pos h0] at ho
    exact ⟨ho, hcur, ht, fun _ _ => by rw [hfds]⟩
  rename_i h0
  rw [if_neg h0] at ho
  subst hi
  rw [← hcur, ← hfds] at hfd
  refine ⟨hcur ▸ c.install ho hfd, hcur, ht, fun fd' hne => ?_⟩
  rw [setFd_fds, update_self, update_of_ne hne, hfds]

theorem initStdio (hi : i = k.cur) (hfds : k.fds i = fun _ => none)
    (hT : ∀ p, ramfsLookup k.toFs k.root consolePath true = p → p ≠ 0 → T (k.inodes p).type) :
    R (initStdio k i) H := by
  have hself : k.setProc i { k.procs i with fds := fun _ => none, cwd := k.root }
      = k.setProc k.cur { k.procs k.cur with cwd := k.root, tf := (k.procs k.cur).tf } := by
    have hp : (k.procs i).fds = fun _ => none := hfds
    rw [← hi, ← hp]
  have h₀ := c.proc k.root (k.procs k.cur).tf h
  have hf0 : (k.setProc k.cur { k.procs k.cur with cwd := k.root, tf := (k.procs k.cur).tf }).fds = k.fds :=
    KState.setProc_fds_same rfl
  unfold Kernel.initStdio
  rw [hself]
  generalize hk0 : k.setProc k.cur { k.procs k.cur with cwd := k.root, tf := (k.procs k.cur).tf } = k0
    at h₀ hf0 ⊢
  have hc0 : i = k0.cur := by rw [← hk0]; exact hi
  have hT0 : ∀ p, ramfsLookup k0.toFs k0.root consolePath true = p → p ≠ 0 → T (k0.inodes p).type := by
    rw [← hk0]
    exact hT
  have hfd0 : ∀ fd, k0.fds i fd = none := fun fd => by rw [hf0, hfds]
  simp only
  split
  · exact h₀
  rename_i hcon
  have hTc := hT0 _ rfl hcon
  generalize ramfsLookup k0.toFs k0.root consolePath true = con at hTc ⊢
  obtain ⟨h₁, hc1, ht1, hf1⟩ := c.openStdio h₀ hTc hc0 (hfd0 0) 0
  generalize Kernel.openStdio con i 0 0 k0 = k1 at h₁ hc1 ht1 hf1 ⊢
  have hfd1 : k1.fds i 1 = none := (hf1 1 (by decide)).trans (hfd0 1)
  have hfd1' : k1.fds i 2 = none := (hf1 2 (by decide)).trans (hfd0 2)
  obtain ⟨h₂, hc2, ht2, hf2⟩ := c.openStdio h₁ ((ht1 con).symm ▸ hTc) (hc0.trans hc1.symm) hfd1 1
  generalize Kernel.openStdio con i 1 1 k1 = k2 at h₂ hc2 ht2 hf2 ⊢
  have hT2 : T (k2.inodes con).type := by
    rw [ht2, ht1]
    exact hTc
  exact (c.openStdio h₂ hT2 (hc0.trans (hc1.symm.trans hc2.symm)) ((hf2 2 (by decide)).trans hfd1') 1).1

/-! ## The calls -/

theorem openInode {ino : Nat} (hT : T (k.inodes ino).type) (flags : Nat) : R (openInode k ino flags).2 H := by
  have ho := c.opened ino flags h hT
  simp only [Kernel.openInode]
  generalize fileOpenInode k ino flags = r at ho ⊢
  split
  · next h0 => rwa [if_pos h0] at ho
  rename_i h0
  rw [if_neg h0] at ho
  generalize hk : (if flags &&& oAppend ≠ 0 ∧ (r.2.inodes ino).type = .reg then
    r.2.setFile r.1 ((r.2.files r.1).map fun f => { f with off := (r.2.inodes ino).size })
    else r.2) = k1
  have hk1 : R k1 (r.1 ::ₘ H) := by
    rw [← hk]
    split
    · cases hf : r.2.files r.1 with
      | none =>
        have hsame : r.2.setFile r.1 (Option.map (fun f : File =>
            { f with off := (r.2.inodes ino).size }) none) = r.2 := by
          unfold KState.setFile
          rw [Option.map_none, ← hf, update_eq_self]
        rw [hsame]
        exact ho
      | some f => exact c.cursor _ ho hf
    exact ho
  have ha := c.fdAllocFrom hk1 0
  unfold fdAlloc
  split
  · next hneg =>
    rw [if_pos hneg] at ha
    exact c.close ha
  next hneg => rwa [if_neg hneg] at ha

theorem createFile (path : Bytes) (flags mode : Nat)
    (hG : (parentOf k k.proc.cwd path).1 ≠ 0 → ∀ mode, G k.toFs
      (.mkreg (parentOf k k.proc.cwd path).1 (parentOf k k.proc.cwd path).2 mode)) :
    R (createFile k path flags mode).2 H := by
  simp only [Kernel.createFile]
  generalize (if mode ≠ 0 then mode &&& 0o7777 else 0o644) = mode'
  split
  · exact h
  split
  · exact h
  rename_i hd
  have hm := c.fs _ h (hG (fun h0 => hd (.inl h0)) mode')
  split
  · exact hm
  rename_i h0
  refine c.openInode hm ?_ flags
  exact (ramfsMkreg_type h0).symm ▸ c.reg

theorem sysOpenat {dirfd : Int} {path : Bytes} {flags : Nat}
    (hG : OpenGuard G T k dirfd path flags) (mode : Nat) :
    R (sysOpenat k dirfd path flags mode).2 H := by
  simp only [Kernel.sysOpenat]
  split
  · exact h
  rename_i hp
  split
  · next h0 =>
    by_cases hf : flags &&& oCreat = 0
    · unfold Kernel.createFile
      rw [if_pos hf]
      exact h
    exact c.createFile h path flags mode (hG.create hp hf h0)
  rename_i h0
  have hino := hG.found _ rfl h0
  split
  · exact h
  split
  · refine c.openInode (c.fs _ h hino.2) ?_ flags
    exact (ramfsTruncate_zero_type ..).symm ▸ hino.1
  exact c.openInode h hino.1 flags

theorem advance (hf : k.files p = some f) (r : Int) : R (advance k p f r) H := by
  unfold Kernel.advance
  split
  · exact c.cursor _ h hf
  exact h

omit c in
omit h in
theorem fdFile_files (h : fdFile k fd = some (p, f)) : k.files p = some f := by
  unfold fdFile at h
  split at h
  · cases h
  rw [Option.map_eq_some_iff] at h
  obtain ⟨f', hf', heq⟩ := h
  cases heq
  exact hf'

theorem sysRead (fd : Int) (n : Nat) (input : Bytes)
    (hG : ∀ p f, fdFile k fd = some (p, f) → (k.inodes f.inode).type = .pipe →
      G k.toFs (.pipeRead f.inode n)) : R (sysRead k fd n input).2 H := by
  unfold Kernel.sysRead
  split
  · exact h
  rename_i p f hf
  simp only
  split
  · exact h
  split
  · next ht => exact c.fs (.pipeRead f.inode n) h (hG p f hf ht)
  split
  · exact h
  exact c.advance h (fdFile_files hf) _

theorem sysWrite (fd : Int) (buf : Bytes)
    (hP : ∀ p f, fdFile k fd = some (p, f) → (k.inodes f.inode).type = .pipe →
      G k.toFs (.pipeWrite f.inode buf))
    (hW : ∀ p f, fdFile k fd = some (p, f) → (k.inodes f.inode).type = .reg →
      G k.toFs (.write f.inode (writeStart k f) buf)) : R (sysWrite k fd buf).2 H := by
  unfold Kernel.sysWrite
  split
  · exact h
  rename_i p f hf
  simp only
  split
  · exact h
  split
  · next ht =>
    have hw := c.fs (.pipeWrite f.inode buf) h (hP p f hf ht)
    split
    · exact c.wakeup f.inode hw
    exact hw
  split
  · exact h
  rename_i ht
  have hw := hW p f hf (by simpa using ht)
  unfold writeStart at hw
  generalize hg : (if f.flags &&& oAppend ≠ 0 then { f with off := (k.inodes f.inode).size } else f) = g
  have hgf : g = { f with off := g.off } := by
    rw [← hg]
    split <;> rfl
  have hgw : G k.toFs (.write g.inode g.off buf) := by
    rw [← hg]
    split
    · next ha => rwa [if_pos ha] at hw
    next ha => rwa [if_neg ha] at hw
  have hset : R (k.setFile p (some g)) H := by
    rw [hgf]
    exact c.cursor _ h (fdFile_files hf)
  exact c.advance (c.fs (.write g.inode g.off buf) hset hgw) (update_self ..) _

theorem sysReadv (fd : Int) (lens : List Nat) (input : Bytes)
    (hG : ∀ fs p n, G fs (.pipeRead p n)) : R (sysReadv k fd lens input).2 H := by
  unfold Kernel.sysReadv
  generalize ([] : Bytes) = data
  induction lens generalizing k input data with
  | nil => exact h
  | cons n ns ih => ?_
  have hr := c.sysRead h fd n input fun _ _ _ _ => hG ..
  simp only [readvLoop]
  split
  · exact ih h _ _
  split
  · exact hr
  split
  · exact hr
  exact ih hr _ _

omit h in
/-- The writes of `sys_writev`, one after the other; `P` is what is known before each of them. -/
theorem sysWritev (P : List Bytes → KState → Prop) (fd : Int) (bufs : List Bytes) (h : R k H) (hP : P bufs k)
    (hskip : ∀ bufs k, P ([] :: bufs) k → P bufs k) (hG : ∀ fs p src, G fs (.pipeWrite p src))
    (hW : ∀ buf bufs k, P (buf :: bufs) k → ∀ p f, fdFile k fd = some (p, f) →
      (k.inodes f.inode).type = .reg → G k.toFs (.write f.inode (writeStart k f) buf))
    (hstep : ∀ buf bufs k, P (buf :: bufs) k → 0 ≤ (Kernel.sysWrite k fd buf).1 →
      ¬ (Kernel.sysWrite k fd buf).1 < buf.length → P bufs (Kernel.sysWrite k fd buf).2) :
    R (sysWritev k fd bufs).2 H := by
  unfold Kernel.sysWritev
  generalize (0 : Int) = total
  induction bufs generalizing k total with
  | nil => exact h
  | cons buf bufs ih => ?_
  have hw := c.sysWrite h fd buf (fun _ _ _ _ => hG ..) (hW buf bufs k hP)
  simp only [writevLoop]
  split
  · next he =>
    subst he
    exact ih h (hskip bufs k hP) _
  split
  · exact hw
  rename_i hneg
  split
  · exact hw
  next hfull => exact ih hw (hstep buf bufs k hP (by omega) hfull) _

theorem seekTo (hf : k.files p = some f) (whence delta : Int) : R (seekTo k p f whence delta).2 H := by
  unfold Kernel.seekTo
  split
  · exact h
  split
  · exact h
  exact c.cursor _ h hf

theorem sysLseek (fd off whence : Int) : R (sysLseek k fd off whence).2 H := by
  unfold Kernel.sysLseek
  split
  · exact h
  next hf => exact c.seekTo h (fdFile_files hf) _ _

theorem sysLlseek (fd : Int) (hi lo : Nat) (whence : Int) : R (sysLlseek k fd hi lo whence).2 H := by
  unfold Kernel.sysLlseek
  split
  · exact h
  rename_i hf
  split
  · exact h
  exact c.seekTo h (fdFile_files hf) _ _

omit c in
omit h in
theorem fdGet_fds (h : fdGet k fd = some p) : ∃ i, k.fds k.cur i = some p := by
  unfold fdGet at h
  split at h
  · cases h
  exact ⟨_, h⟩

omit c in
omit h in
theorem fdFile_get (h : fdFile k fd = some (p, f)) : fdGet k fd = some p := by
  unfold fdFile at h
  split at h
  · cases h
  rename_i q hq
  rw [Option.map_eq_some_iff] at h
  obtain ⟨f', _, heq⟩ := h
  cases heq
  exact hq

theorem dupFrom (hp : fdGet k fd = some p) (min : Int) : R (dupFrom k p min).2 H := by
  obtain ⟨i, hi⟩ := fdGet_fds hp
  have ha := c.fdAllocFrom (c.dup h hi) min
  simp only [Kernel.dupFrom]
  split
  · next hneg =>
    rw [if_pos hneg] at ha
    exact c.close ha
  next hneg => rwa [if_neg hneg] at ha

theorem sysDup (fd : Int) : R (sysDup k fd).2 H := by
  unfold Kernel.sysDup
  split
  · exact h
  next hp => exact c.dupFrom h hp 0

omit h in
/-- Undoing one end of a pipe: it is in a descriptor, or still held. -/
theorem undoEnd (h : R k (if fd < 0 then p ::ₘ H else H)) : R (undoEnd k fd p) H := by
  unfold Kernel.undoEnd
  split
  · next hfd =>
    rw [if_neg (by omega)] at h
    exact c.fdClose h fd
  rename_i hfd
  rw [if_pos (by omega)] at h
  exact c.close h

theorem sysPipe2 (fdsUptr : Nat) (hG : G k.toFs .pipe) : R (sysPipe2 k fdsUptr).2 H := by
  have hp : R (k.withFs (ramfsPipe k.toFs)).2 H := c.fs .pipe h hG
  have hT : (k.withFs (ramfsPipe k.toFs)).1 ≠ 0 →
      T ((k.withFs (ramfsPipe k.toFs)).2.inodes (k.withFs (ramfsPipe k.toFs)).1).type :=
    fun h0 => (ramfsPipe_type h0).symm ▸ c.pipe
  simp only [Kernel.sysPipe2]
  generalize k.withFs (ramfsPipe k.toFs) = p at hp hT ⊢
  split
  · exact h
  split
  · exact hp
  rename_i h0
  have hr := c.opened p.1 0 hp (hT h0)
  have hT' : T ((fileOpenInode p.2 p.1 0).2.inodes p.1).type := (fileOpenInode_type ..).symm ▸ hT h0
  generalize fileOpenInode p.2 p.1 0 = rf at hr hT' ⊢
  have hw := c.opened p.1 1 hr hT'
  generalize fileOpenInode rf.2 p.1 1 = wf at hw ⊢
  split
  · -- one of the two could not be opened: close the other
    have h₁ : R (if rf.1 ≠ 0 then fileClose wf.2 rf.1 else wf.2) (if wf.1 = 0 then H else wf.1 ::ₘ H) := by
      split
      · next hr0 =>
        rw [if_neg hr0] at hw
        refine c.close ?_
        split at hw
        · next hw0 => rwa [if_pos hw0]
        rename_i hw0
        rw [if_neg hw0, Multiset.cons_swap]
        exact hw
      next hr0 => rwa [if_pos (not_not.1 hr0)] at hw
    generalize (if rf.1 ≠ 0 then fileClose wf.2 rf.1 else wf.2) = k1 at h₁ ⊢
    split
    · next hw0 =>
      rw [if_neg hw0] at h₁
      exact c.close h₁
    next hw0 => rwa [if_pos (not_not.1 hw0)] at h₁
  rename_i hne
  rw [not_or] at hne
  rw [if_neg hne.1, if_neg hne.2, Multiset.cons_swap] at hw
  have h₁ := c.fdAllocFrom hw 0
  unfold fdAlloc
  generalize Kernel.fdAllocFrom wf.2 rf.1 0 = rfd at h₁ ⊢
  have h1' : R rfd.2 (wf.1 ::ₘ if rfd.1 < 0 then rf.1 ::ₘ H else H) := by
    split
    · next hneg =>
      rw [if_pos hneg, Multiset.cons_swap] at h₁
      exact h₁
    next hneg => rwa [if_neg hneg] at h₁
  have h₂ := c.fdAllocFrom h1' 0
  generalize Kernel.fdAllocFrom rfd.2 wf.1 0 = wfd at h₂ ⊢
  split
  · refine c.undoEnd (c.undoEnd ?_)
    split at h₂
    · next hneg =>
      rw [if_pos hneg]
      split at h₂
      · next hneg' =>
        rw [if_pos hneg', Multiset.cons_swap]
        exact h₂
      next hneg' => rwa [if_neg hneg']
    next hneg => rwa [if_neg hneg]
  next hboth =>
  rw [not_or] at hboth
  rwa [if_neg hboth.2, if_neg hboth.1] at h₂

omit h in
theorem fdInstallAt (h : R k (p ::ₘ H)) (hfd : 0 ≤ fd ∧ fd < 16) : R (fdInstallAt k fd p).2 H := by
  unfold Kernel.fdInstallAt fdIndex
  rw [dif_pos hfd]
  simp only
  split
  · next hn => exact c.install h hn
  rename_i q hq
  rw [fileClose_cur]
  exact c.replace h hq

theorem sysDup2 (oldfd newfd : Int) : R (sysDup2 k oldfd newfd).2 H := by
  unfold Kernel.sysDup2
  split
  · exact h
  rename_i p hp
  obtain ⟨i, hi⟩ := fdGet_fds hp
  split
  · exact h
  split
  · exact h
  exact c.fdInstallAt (c.dup h hi) (by omega)

theorem sysFcntl64 (fd cmd : Int) (arg : Nat) (hL : ∀ p f, cmd = 4 → fdFile k fd = some (p, f) → L k f arg) :
    R (sysFcntl64 k fd cmd arg).2 H := by
  unfold Kernel.sysFcntl64
  split
  · exact h
  rename_i p f hf
  split
  · exact c.dupFrom h (fdFile_get hf) _
  split
  · exact h
  split
  · exact h
  split
  · next hcmd => exact c.flags arg h (fdFile_files hf) (hL p f hcmd hf)
  exact h

theorem sysChdir (path : Bytes) : R (sysChdir k path).2 H := by
  simp only [Kernel.sysChdir]
  split
  · exact h
  split
  · exact h
  exact c.proc _ k.proc.tf h

end CallClosed

/-! ## Properties that do not look at references -/

/-- `R` survives every single write to the tables. -/
structure FileClosed (G : Fs → FsOp → Prop) (R : KState → Prop) : Prop where
  fs : ∀ {k} op, R k → G k.toFs op → R { k with toFs := op.apply k.toFs }
  kmalloc : ∀ fs, G fs .kmalloc
  account : ∀ {k} p (rd wr : Int), R k →
    R { k with toFs := k.toFs.setInode p { k.inodes p with rdOpen := rd, wrOpen := wr } }
  file : ∀ {k} p f, R k → R (k.setFile p f)
  proc : ∀ {k} i fds cwd tf, R k →
    R (k.setProc i { k.procs i with fds := fds, cwd := cwd, tf := tf })
  wakeup : ∀ {k} p, R k → R (procWakeup k (.inode p))

namespace FileClosed

variable {G : Fs → FsOp → Prop} {R R' : KState → Prop} {k : KState}

variable (c : FileClosed G R)
include c

theorem and (c' : FileClosed G R') : FileClosed G fun k => R k ∧ R' k :=
  ⟨fun op h hG => ⟨c.fs op h.1 hG, c'.fs op h.2 hG⟩, c.kmalloc,
    fun p rd wr h => ⟨c.account p rd wr h.1, c'.account p rd wr h.2⟩,
    fun p f h => ⟨c.file p f h.1, c'.file p f h.2⟩,
    fun i fds cwd tf h => ⟨c.proc i fds cwd tf h.1, c'.proc i fds cwd tf h.2⟩,
    fun p h => ⟨c.wakeup p h.1, c'.wakeup p h.2⟩⟩

theorem setFd (h : R k) (i : Slot) (fd : Fd) (f : Option Nat) : R (setFd k i fd f) := c.proc i _ _ _ h

omit c in
theorem account_eq (n : RfInode) (flags : Nat) (delta : Int) : n.account flags delta
    = { n with rdOpen := (n.account flags delta).rdOpen, wrOpen := (n.account flags delta).wrOpen } := by
  unfold RfInode.account
  split
  · rfl
  split <;> rfl

theorem pipeOpenAccount (h : R k) (f : File) (delta : Int) : R (pipeOpenAccount k f delta) := by
  have ha : R { k with
      toFs := k.toFs.setInode f.inode ((k.inodes f.inode).account f.flags delta) } := by
    rw [account_eq]
    exact c.account f.inode _ _ h
  rcases pipeOpenAccount_cases k f delta with ⟨_, heq⟩ | ⟨_, _, heq⟩
  · rwa [heq]
  rcases heq _ rfl with heq | heq
  · rwa [heq]
  rw [heq]
  exact c.wakeup f.inode ha

theorem fileOpenInode (h : R k) (ino flags : Nat) : R (fileOpenInode k ino flags).2 := by
  have hk : R { k with toFs := (Kernel.kmalloc k.toFs).2 } := c.fs .kmalloc h (c.kmalloc _)
  simp only [Kernel.fileOpenInode]
  split
  · exact hk
  exact c.pipeOpenAccount (c.file _ _ hk) _ 1

theorem fileDup (h : R k) (p : Nat) : R (fileDup k p) := by
  unfold Kernel.fileDup
  split
  · exact h
  exact c.file p _ h

theorem fileClose (h : R k) (p : Nat) : R (fileClose k p) := by
  unfold Kernel.fileClose
  split
  · exact h
  simp only
  split
  · exact c.file p none (c.pipeOpenAccount h _ (-1))
  exact c.file p _ h

theorem closeSlot (h : R k) (i : Slot) (fd : Fd) : R (closeSlot k i fd) := by
  unfold Kernel.closeSlot
  split
  · exact h
  exact c.setFd (c.fileClose h _) i fd none

theorem calls : CallClosed G (fun _ => True) (fun _ _ _ => True) fun k _ => R k where
  fs op h hG := c.fs op h hG
  opened ino flags h _ := c.fileOpenInode h ino flags
  dup h _ := c.fileDup h _
  close h := c.fileClose h _
  install h _ := c.setFd h _ _ _
  closeSlot fd h := c.closeSlot h _ fd
  replace h _ := c.setFd (c.fileClose h _) _ _ _
  cursor _ h _ := c.file _ _ h
  flags _ h _ _ := c.file _ _ h
  proc cwd tf h := c.proc _ _ cwd tf h
  wakeup p h := c.wakeup p h
  reg := trivial
  pipe := trivial

end FileClosed

end Embedded.Kernel
