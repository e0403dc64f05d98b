import Embedded.Lib.RefCount
import Embedded.Kernel.FileEvents

/-! # Reference counts of open files

The count of an open file is the number of descriptors, of all processes, that refer to it, in every
state between two events; while a call runs, the references it holds come on top. -/

namespace Embedded.Kernel

open List KState
open Function (update update_idem update_self update_of_ne update_eq_self)

variable {p : Nat} {f : File} {k : KState}

namespace KState

/-- All descriptors of all processes. -/
def refTable (k : KState) (s : Slot × Fd) : Option Nat := k.fds s.1 s.2

/-- The counts of the open files. -/
def refCounts (k : KState) (p : Nat) : Option Int := (k.files p).map File.refcnt

end KState

/-- The counts are exact, with the references `H` held outside the descriptors; the processes in `D`
    have no open descriptors, and the current one is not among them. -/
structure RefsOk (D : Set Slot) (k : KState) (H : Multiset Nat) : Prop where
  exact : Exact k.refTable k.refCounts H
  idle : ∀ i ∈ D, ∀ fd, k.fds i fd = none
  cur : k.cur ∉ D

section Views

variable (k : KState)

theorem setFd_refTable (i : Slot) (fd : Fd) (f : Option Nat) :
    (setFd k i fd f).refTable = update k.refTable (i, fd) f := by
  funext ⟨j, fd'⟩
  simp only [refTable]
  rw [setFd_fds]
  by_cases hj : j = i
  · subst hj
    rw [update_self]
    by_cases hfd : fd' = fd
    · subst hfd
      rw [update_self, update_self]
    rw [update_of_ne hfd, update_of_ne (by simp [hfd])]
    rfl
  rw [update_of_ne hj, update_of_ne (by simp [hj])]
  rfl

theorem setFile_refCounts (p : Nat) (f : Option File) :
    (k.setFile p f).refCounts = update k.refCounts p (f.map File.refcnt) := by
  funext q
  by_cases hq : q = p
  · subst hq
    simp [refCounts, setFile]
  simp [refCounts, setFile, update_of_ne hq]

theorem setFile_refCounts_same {g : File} (hf : k.files p = some f)
    (hg : g.refcnt = f.refcnt) : (k.setFile p (some g)).refCounts = k.refCounts := by
  rw [setFile_refCounts, Option.map_some, hg]
  have hp : k.refCounts p = some f.refcnt := by simp [refCounts, hf]
  rw [← hp, update_eq_self]

end Views

section Closed

variable {D : Set Slot} {k k' : KState} {H : Multiset Nat}

theorem RefsOk.congr (h : RefsOk D k H) (hfds : k'.fds = k.fds) (hcounts : k'.refCounts = k.refCounts)
    (hcur : k'.cur = k.cur) : RefsOk D k' H := by
  have htable : k'.refTable = k.refTable := by
    funext s
    exact congrFun (congrFun hfds s.1) s.2
  exact ⟨htable ▸ hcounts ▸ h.exact, fun i hi fd => by rw [hfds]; exact h.idle i hi fd, hcur ▸ h.cur⟩

theorem pipeOpenAccount_refs (k : KState) (f : File) (delta : Int) :
    (pipeOpenAccount k f delta).refTable = k.refTable ∧
      (pipeOpenAccount k f delta).refCounts = k.refCounts := by
  obtain ⟨hfds, _, hfiles⟩ := pipeOpenAccount_fds k f delta
  constructor
  · funext s
    exact congrFun (congrFun hfds s.1) s.2
  funext p
  unfold refCounts
  rw [hfiles]

theorem RefsOk.account (h : RefsOk D k H) (f : File) (delta : Int) : RefsOk D (pipeOpenAccount k f delta) H :=
  h.congr (pipeOpenAccount_fds k f delta).1 (pipeOpenAccount_refs k f delta).2
    (pipeOpenAccount_fds k f delta).2.1

theorem RefsOk.opened (h : RefsOk D k H) (ino flags : Nat) :
    RefsOk D (fileOpenInode k ino flags).2 (if (fileOpenInode k ino flags).1 = 0 then H
      else (fileOpenInode k ino flags).1 ::ₘ H) := by
  rcases fileOpenInode_cases k ino flags with heq | ⟨p, hp, hnone, heq⟩
  · rw [heq, if_pos rfl]
    exact ⟨h.exact, h.idle, h.cur⟩
  rw [heq]
  simp only [if_neg hp]
  have hcreate := h.exact.create (o := p) (by simp [refCounts, hnone])
  have hnew : RefsOk D ({ k with toFs := (kmalloc k.toFs).2 }.setFile p (some (newFile ino flags)))
      (p ::ₘ H) := by
    refine ⟨?_, h.idle, h.cur⟩
    rw [setFile_refCounts]
    exact hcreate
  exact hnew.account _ 1

theorem RefsOk.dup (h : RefsOk D k H) (hp : k.refCounts p ≠ none) :
    RefsOk D (fileDup k p) (p ::ₘ H) := by
  cases hf : k.files p with
  | none => exact absurd (by simp [refCounts, hf]) hp
  | some f => ?_
  have hcounts := setFile_refCounts k p (some { f with refcnt := f.refcnt + 1 })
  have htake := h.exact.take (o := p) (n := f.refcnt) (by simp [refCounts, hf])
  unfold fileDup
  rw [hf]
  refine ⟨?_, h.idle, h.cur⟩
  rw [hcounts]
  exact htake

theorem fileClose_refCounts (hf : k.files p = some f) :
    (fileClose k p).fds = k.fds ∧ (fileClose k p).refCounts = update k.refCounts p
      (if f.refcnt - 1 ≤ 0 then none else some (f.refcnt - 1)) := by
  rcases fileClose_cases k hf with ⟨hle, heq⟩ | ⟨hgt, heq⟩
  · rw [heq, if_pos hle]
    refine ⟨(pipeOpenAccount_fds ..).1, ?_⟩
    rw [setFile_refCounts, (pipeOpenAccount_refs ..).2]
    rfl
  rw [heq, if_neg (by omega)]
  refine ⟨rfl, ?_⟩
  rw [setFile_refCounts]
  rfl

theorem RefsOk.close (h : RefsOk D k (p ::ₘ H)) : RefsOk D (fileClose k p) H := by
  have hlive := h.exact.heldLive p (Multiset.mem_cons_self p H)
  cases hf : k.files p with
  | none => exact absurd (by simp [refCounts, hf]) hlive
  | some f => ?_
  have hdrop := h.exact.drop (n := f.refcnt) (by simp [refCounts, hf])
  obtain ⟨hfds, hcounts⟩ := fileClose_refCounts hf
  have htable : (fileClose k p).refTable = k.refTable := by
    funext s
    exact congrFun (congrFun hfds s.1) s.2
  refine ⟨?_, fun i hi fd => ?_, ?_⟩
  · rw [htable, hcounts]
    exact hdrop
  · rw [hfds]
    exact h.idle i hi fd
  rw [fileClose_cur]
  exact h.cur

theorem RefsOk.setFd {fd : Fd} {v : Option Nat} {H' : Multiset Nat} (h : RefsOk D k H)
    (hx : Exact (update k.refTable (k.cur, fd) v) k.refCounts H') :
    RefsOk D (setFd k k.cur fd v) H' := by
  refine ⟨?_, fun i hi fd' => ?_, h.cur⟩
  · rw [setFd_refTable]
    exact hx
  have hne : i ≠ k.cur := by
    rintro rfl
    exact h.cur hi
  rw [setFd_fds, update_of_ne hne]
  exact h.idle i hi fd'

/-- Closing and clearing a descriptor, in either order. -/
theorem setFd_fileClose (hf : k.files p = some f) (fd : Fd) (v : Option Nat) :
    (Kernel.setFd (fileClose k p) k.cur fd v).refTable = update k.refTable (k.cur, fd) v := by
  rw [setFd_refTable]
  congr 1
  funext s
  exact congrFun (congrFun (fileClose_refCounts hf).1 s.1) s.2

/-- A descriptor gives its reference up for a held one, or for none. -/
theorem RefsOk.replace {fd : Fd} {q : Nat} {v : Option Nat} {H' : Multiset Nat} (h : RefsOk D k H)
    (hq : k.fds k.cur fd = some q)
    (hx : Exact (update k.refTable (k.cur, fd) v) k.refCounts (q ::ₘ H')) :
    RefsOk D (Kernel.setFd (fileClose k q) k.cur fd v) H' := by
  have hlive : k.refCounts q ≠ none := h.exact.live (k.cur, fd) q hq
  cases hf : k.files q with
  | none => exact absurd (by simp [refCounts, hf]) hlive
  | some f => ?_
  have hdrop := hx.drop (n := f.refcnt) (by simp [refCounts, hf])
  obtain ⟨hfds, hcounts⟩ := fileClose_refCounts hf
  refine ⟨?_, fun i hi fd' => ?_, ?_⟩
  · rw [setFd_fileClose hf]
    have hc : (Kernel.setFd (fileClose k q) k.cur fd v).refCounts = (fileClose k q).refCounts := rfl
    rw [hc, hcounts]
    exact hdrop
  · have hne : i ≠ k.cur := by
      rintro rfl
      exact h.cur hi
    rw [setFd_fds, update_of_ne hne, hfds]
    exact h.idle i hi fd'
  show (fileClose k q).cur ∉ D
  rw [fileClose_cur]
  exact h.cur

theorem refsOk_closed (D : Set Slot) :
    CallClosed (fun _ _ => True) (fun _ => True) (fun _ _ _ => True) (RefsOk D) where
  fs _ h _ := ⟨h.exact, h.idle, h.cur⟩
  opened ino flags h _ := h.opened ino flags
  dup {k _ fd p} h hfd := h.dup (h.exact.live (k.cur, fd) p hfd)
  close h := h.close
  install h hfd := h.setFd (h.exact.install hfd)
  closeSlot {k _} fd h := by
    unfold closeSlot
    split
    · exact h
    next q hq => exact h.replace hq (h.exact.remove hq)
  replace {k H fd p q} h hq := by
    -- the old reference leaves the descriptor, the new one goes in, the old one is dropped
    have hout := h.exact.remove (s := (k.cur, fd)) hq
    rw [Multiset.cons_swap] at hout
    have hin := hout.install (update_self ..)
    rw [update_idem] at hin
    exact h.replace hq hin
  cursor _ h hf := h.congr rfl (setFile_refCounts_same _ hf rfl) rfl
  flags _ h hf _ := h.congr rfl (setFile_refCounts_same _ hf rfl) rfl
  proc cwd tf h := h.congr (setProc_fds_same rfl) rfl rfl
  wakeup p h := h.congr (procWakeup_fds _ _) rfl rfl
  reg := trivial
  pipe := trivial

end Closed

/-! ## Fork and exit -/

/-- The counts of a table of open files. -/
def fileCounts (files : Nat → Option File) (p : Nat) : Option Int := (files p).map File.refcnt

theorem fileCounts_dupFile {files : Nat → Option File} (hf : files p = some f) :
    fileCounts (dupFile files p) = update (fileCounts files) p (some (f.refcnt + 1)) := by
  funext q
  by_cases hq : q = p
  · subst hq
    simp [fileCounts, dupFile, hf]
  simp [fileCounts, dupFile, update_of_ne hq]

/-- Copying a descriptor table into an empty one, with one more reference for every descriptor. -/
theorem Exact.copy {i : Slot} {H : Multiset Nat} (tbl : Fd → Option Nat) :
    ∀ (fds : List Fd), fds.Nodup → ∀ (t : Slot × Fd → Option Nat) (files : Nat → Option File),
      Exact t (fileCounts files) H → (∀ fd ∈ fds, t (i, fd) = none) →
      (∀ fd p, tbl fd = some p → fileCounts files p ≠ none) →
      Exact (fds.foldl (fun t fd => update t (i, fd) (tbl fd)) t)
        (fileCounts (fds.foldl (fun files fd => (tbl fd).elim files (dupFile files)) files)) H := by
  intro fds
  induction fds with
  | nil => exact fun _ t files h _ _ => h
  | cons fd fds ih => ?_
  intro hnd t files h hfree hlive
  obtain ⟨hfd, hnd⟩ := nodup_cons.1 hnd
  have hfree' : ∀ v, ∀ fd' ∈ fds, update t (i, fd) v (i, fd') = none := by
    intro v fd' hmem
    have hne : (i, fd') ≠ (i, fd) := by
      rintro ⟨⟩
      exact hfd hmem
    rw [update_of_ne hne]
    exact hfree fd' (mem_cons_of_mem _ hmem)
  simp only [foldl_cons]
  cases hp : tbl fd with
  | none =>
    have hsame : update t (i, fd) none = t := by rw [← hfree fd mem_cons_self, update_eq_self]
    refine ih hnd _ _ ?_ (hfree' none) hlive
    rw [hsame]
    exact h
  | some p => ?_
  cases hf : files p with
  | none => exact absurd (by simp [fileCounts, hf]) (hlive fd p hp)
  | some f => ?_
  have hdup := fileCounts_dupFile hf
  refine ih hnd _ _ ?_ (hfree' (some p)) fun fd' q hq => ?_
  · simp only [Option.elim_some]
    rw [hdup]
    exact (h.take (by simp [fileCounts, hf])).install (hfree fd mem_cons_self)
  simp only [Option.elim_some]
  rw [hdup]
  by_cases hqp : q = p
  · rw [hqp, update_self]
    simp
  rw [update_of_ne hqp]
  exact hlive fd' q hq

theorem foldl_update_table (tbl : Fd → Option Nat) (i : Slot) (fds : List Fd) :
    ∀ (t : Slot × Fd → Option Nat) (s : Slot × Fd), fds.foldl (fun t fd => update t (i, fd) (tbl fd)) t s
        = if s.1 = i ∧ s.2 ∈ fds then tbl s.2 else t s := by
  induction fds with
  | nil => intro t s; simp
  | cons fd fds ih => ?_
  intro t s
  rw [foldl_cons, ih]
  by_cases hs : s = (i, fd)
  · subst hs
    simp
  have hne : ¬ (s.1 = i ∧ s.2 = fd) := fun h => hs (Prod.ext h.1 h.2)
  rw [update_of_ne hs]
  by_cases h1 : s.1 = i
  · have h2 : s.2 ≠ fd := fun h => hne ⟨h1, h⟩
    simp [h1, h2]
  simp [h1]

/-- `fdtable_closeall` empties the table. -/
theorem fileClose_fds (k : KState) (p : Nat) : (fileClose k p).fds = k.fds := by
  cases hf : k.files p with
  | none =>
    unfold fileClose
    rw [hf]
  | some f => exact (fileClose_refCounts hf).1

theorem closeSlot_fds (k : KState) (i : Slot) (fd : Fd) :
    (closeSlot k i fd).fds = update k.fds i (update (k.fds i) fd none) := by
  unfold closeSlot
  split
  · next hn =>
    have hn : k.fds i fd = none := hn
    rw [← hn, update_eq_self, update_eq_self]
  rw [setFd_fds, fileClose_fds]

theorem fdtableCloseall_fds (k : KState) (i : Slot) :
    (fdtableCloseall k i).fds = update k.fds i fun _ => none := by
  have hloop : ∀ (fds : List Fd) (k : KState), (fds.foldl (fun k fd => closeSlot k i fd) k).fds
      = update k.fds i fun fd => if fd ∈ fds then none else k.fds i fd := by
    intro fds
    induction fds with
    | nil =>
      intro k
      simp
    | cons fd fds ih => ?_
    intro k
    rw [foldl_cons, ih, closeSlot_fds, update_idem, update_self]
    congr 1
    funext fd'
    by_cases h : fd' = fd
    · simp [h]
    simp [h]
  unfold fdtableCloseall
  rw [hloop]
  congr 1
  funext fd
  simp

/-! ## Runs -/

/-- The counts are exact, and only live processes have descriptors. -/
structure RefsInv (k : KState) : Prop where
  exact : Exact k.refTable k.refCounts 0
  idle : ∀ i, ¬ (k.tasks i).alive → ∀ fd, k.fds i fd = none

section Runs

variable {k k' : KState}

theorem RefsInv.unfiled (h : RefsInv k) (hu : Unfiled k k') : RefsInv k' := by
  have htable : k'.refTable = k.refTable := by
    funext s
    exact congrFun (congrFun hu.fds s.1) s.2
  have hcounts : k'.refCounts = k.refCounts := by
    funext p
    unfold refCounts
    rw [hu.files]
  refine ⟨htable ▸ hcounts ▸ h.exact, fun i hi fd => ?_⟩
  rw [hu.fds]
  exact h.idle i (fun ha => hi (hu.alive i ha)) fd

/-- The processes that have no descriptors. -/
def KState.dead (k : KState) : Set Slot := {i | ¬ (k.tasks i).alive}

theorem RefsInv.refsOk (h : RefsInv k) (hcur : (k.tasks k.cur).alive) : RefsOk k.dead k 0 :=
  ⟨h.exact, h.idle, fun hd => hd hcur⟩

theorem RefsOk.inv (h : RefsOk k.dead k' 0) (hcalm : Calm k k') : RefsInv k' :=
  ⟨h.exact, fun i hi => h.idle i fun ha => hi ((hcalm.alive_iff i).2 ha)⟩

theorem RefsOk.call {D : Set Slot} (h : RefsOk D k 0) {c : Call} (hc : c.onFile = true) :
    RefsOk D (dispatch k c).2 0 := (refsOk_closed D).file h hc

theorem FileEvent.refs {e : Event} (he : FileEvent k e k') (h : RefsInv k)
    (hcur : (k.tasks k.cur).alive) : RefsInv k' := by
  have hok := h.refsOk hcur
  cases he with
  | nothing hu => exact h.unfiled hu
  | call tf c he hc hk hcalm => exact (hk ▸ hok.call hc).inv hcalm
  | read tf fd n input he hk hcalm =>
    have rc := refsOk_closed k.dead
    have hr := rc.setRet (rc.sysRead hok fd n.toNat input fun _ _ _ _ => trivial)
      (sysRead k fd n.toNat input).1.1
    exact (hk ▸ hr : RefsOk k.dead k' 0).inv hcalm
  | fork i hi hinodes htasks hfds hfiles =>
    have hfree : ∀ fd, k.fds i fd = none := h.idle i (by simp [Task.alive, hi])
    have hx := Exact.copy (k.fds k.cur) (finRange 16) (nodup_finRange 16)
      k.refTable k.files h.exact (fun fd _ => hfree fd) fun fd p hp => h.exact.live (k.cur, fd) p hp
    have htable : k'.refTable = (finRange 16).foldl
        (fun t fd => update t (i, fd) (k.fds k.cur fd)) k.refTable := by
      funext s
      rw [foldl_update_table]
      simp only [refTable, hfds, mem_finRange, and_true]
      by_cases hs : s.1 = i
      · rw [if_pos hs, hs, update_self]
      rw [if_neg hs, update_of_ne hs]
    have hcounts : k'.refCounts = fileCounts (dupTable (k.fds k.cur) k.files) := by
      funext p
      unfold refCounts fileCounts
      rw [hfiles]
    refine ⟨?_, fun j hj fd => ?_⟩
    · rw [htable, hcounts]
      exact hx
    have hji : j ≠ i := by
      rintro rfl
      rw [htasks, update_self] at hj
      exact hj (.inl rfl)
    rw [htasks, update_of_ne hji] at hj
    rw [hfds, update_of_ne hji]
    exact h.idle j hj fd
  | exit code sig hu => ?_
  refine RefsInv.unfiled ?_ hu
  have htasks := setProc_tasks k k.cur { k.proc with exitCode := code, killedSig := sig, state := .zombie }
  have hz : RefsOk k.dead (zombied k code sig) 0 := hok.congr (setProc_fds_same rfl) rfl rfl
  have hcalm : Calm (zombied k code sig) (fdtableCloseall (zombied k code sig) k.cur) :=
    (calm_calls _).fdtableCloseall (k := zombied k code sig) (H := 0) (.refl _) rfl
  have hclosed := (refsOk_closed k.dead).fdtableCloseall hz (i := k.cur) rfl
  refine ⟨hclosed.exact, fun i hi fd => ?_⟩
  by_cases hic : i = k.cur
  · rw [hic, fdtableCloseall_fds, update_self]
  refine hclosed.idle i (fun ha => hi ((hcalm.alive_iff i).2 ?_)) fd
  rw [zombied, htasks, update_of_ne hic]
  exact ha

theorem RefsInv.still (h : RefsInv k) (hs : Still k k') : RefsInv k' := h.unfiled hs.unfiled

theorem next_refs (h : RefsInv k) (ok : k.table.Ok) (e : Event) : RefsInv (next k e) := by
  cases hh : k.halted with
  | true => rwa [next_halted hh]
  | false => ?_
  have hcur : (k.tasks k.cur).state = .running := ok.cur hh
  have hinuse : (k.tasks k.cur).inUse := by
    rw [Task.inUse, hcur]
    decide
  obtain ⟨k1, hs, hev⟩ := next_fileEvent hinuse hh e
  refine hev.refs (h.still hs) ?_
  rw [hs.tasks, hs.cur]
  exact .inr (.inl hcur)

theorem enter_refs {fs : Fs} {k0 : KState} (hs : Spawned fs k0) (tf : Trapframe) : RefsInv (enter k0 tf) := by
  -- before the opens no slot has a descriptor, and there is no file
  have hnone : ∀ i fd, k0.fds i fd = none := by
    intro i fd
    by_cases hi : i = 0
    · rw [hi, hs.fds]
    have hp := hs.procs i hi
    simp only [fds, hp]
  have hcounts : ∀ p, k0.refCounts p = none := by
    intro p
    rw [refCounts, hs.files]
    rfl
  have h₀ : RefsOk {i | i ≠ 0} k0 0 := by
    refine ⟨⟨Set.toFinite _, fun s o h => ?_, by simp, fun o n h => ?_, fun o n h => ?_⟩,
      fun i _ fd => hnone i fd, fun h => h hs.cur⟩
    · exact absurd ((hnone s.1 s.2).symm.trans h) (by simp)
    · exact absurd ((hcounts o).symm.trans h) (by simp)
    exact absurd ((hcounts o).symm.trans h) (by simp)
  have h₁ := (refsOk_closed _).initStdio h₀ hs.cur.symm hs.fds fun _ _ _ => trivial
  simp only [enter]
  generalize initStdio k0 0 = k at h₁
  generalize hq : ({ k.procs 0 with tf := tf, state := .runnable } : Proc) = q
  have hqf : q.fds = k.fds 0 := by rw [← hq]; rfl
  have hfds : (switchTo (k.setProc 0 q) 0).fds = k.fds := (switchTo_fds _ _).trans (setProc_fds_same hqf)
  have htable : (switchTo (k.setProc 0 q) 0).refTable = k.refTable := by
    funext s
    exact congrFun (congrFun hfds s.1) s.2
  refine ⟨htable ▸ h₁.exact, fun i hi fd => ?_⟩
  rw [hfds]
  refine h₁.idle i (fun h0 => hi ?_) fd
  rw [switchTo_tasks, h0, update_self]
  exact .inr (.inl rfl)

end Runs

theorem booted_refs (h : Booted k) : RefsInv k := by
  obtain ⟨b, hb⟩ := h
  obtain ⟨r, fs, k0, tf, _, _, _, hs, rfl⟩ := boot_spawned hb
  exact enter_refs hs tf

theorem reached_refs (h : Reached k) : RefsInv k :=
  h.invariant_of (fun _ h => reached_table h)
    (fun _ h => booted_refs h) fun _ e _ ok h => next_refs h ok e

/-- **The reference counts of open files are exact**, in every state of every run: the count of a
    live file is the number of descriptors that refer to it, a file is live exactly as long as there
    is such a descriptor, and only live processes have descriptors. -/
theorem file_refcounts_exact {k : KState} (h : Reached k) :
    (∀ p f, k.files p = some f → f.refcnt = {s : Slot × Fd | k.fds s.1 s.2 = some p}.ncard) ∧
    (∀ p, (k.files p).isSome ↔ ∃ i fd, k.fds i fd = some p) ∧
    (∀ i fd, k.fds i fd ≠ none → (k.tasks i).alive) := by
  have inv := reached_refs h
  refine ⟨fun p f hf => ?_, fun p => ?_, fun i fd hfd => ?_⟩
  · have hx := inv.exact.exact p f.refcnt (by simp [refCounts, hf])
    exact hx
  · have hl := inv.exact.live_iff (o := p)
    rw [refCounts, ne_eq, Option.map_eq_none_iff, ← ne_eq, Option.ne_none_iff_isSome] at hl
    rw [hl]
    exact ⟨fun ⟨s, hs⟩ => ⟨s.1, s.2, hs⟩, fun ⟨i, fd, hfd⟩ => ⟨(i, fd), hfd⟩⟩
  · by_contra ha
    exact hfd (inv.idle i ha fd)

/-- A pipe, another descriptor for its read end, and its write end closed. -/
def refsRun : List Event :=
  [.syscall {} (.pipe2 0x10000), .syscall {} (.dup 0), .syscall {} (.close 1)]

theorem file_refcounts_exact_tiny : ∃ p f, fdFile (runFrom next tiny refsRun) 0 = some (p, f) ∧ f.refcnt = 2 ∧
      f.refcnt = {s : Slot × Fd | (runFrom next tiny refsRun).fds s.1 s.2 = some p}.ncard := by
  have h : Reached (runFrom next tiny refsRun) :=
    Reachable.runFrom (.init tiny_booted) _ ⟨trivial, trivial, trivial, trivial⟩
  have hcount : (fdFile (runFrom next tiny refsRun) 0).map (fun r => r.2.refcnt) = some 2 := by
    decide +kernel
  obtain ⟨⟨p, f⟩, hf, hc⟩ := Option.map_eq_some_iff.1 hcount
  exact ⟨p, f, hf, hc, (file_refcounts_exact h).1 p f (CallClosed.fdFile_files hf)⟩

end Embedded.Kernel
