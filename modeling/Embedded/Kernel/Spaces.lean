import Embedded.Kernel.MemCalls
import Embedded.Kernel.Sched
import Embedded.Kernel.Trap

/-! # The address spaces of a running kernel

`KInv k` is the frame invariant of the whole kernel: the address spaces of the live processes and
the files share no frame, and every process has a space of its own. `Moved k e k'` says what an
event does to it: the invariant holds afterwards, and the memory map and the user pages of every
process alive then come from before the event in one of the ways `MapStep` lists. -/

namespace Embedded.Kernel

/-! ## The calls on descriptors

What survives the steps of file calls survives the system calls made of them. Reads and writes are
not among these where they need something: that is different for every property. -/

/-- The file calls other than reads and writes. -/
def Call.onDescriptor : Call → Bool
  | .openat .. | .close .. | .lseek .. | .llseek .. | .dup .. | .dup2 .. | .pipe2 .. | .fcntl64 ..
  | .chdir .. => true
  | _ => false

/-- The file calls other than `read`, which may sleep. -/
def Call.onFile : Call → Bool
  | .write .. | .readv .. | .writev .. => true
  | c => c.onDescriptor

variable {G : Fs → FsOp → Prop} {T : RfType → Prop} {L : KState → File → Nat → Prop}
  {R : KState → Multiset Nat → Prop} {k : KState}

theorem CallClosed.dispatch (c : CallClosed G T L R) (h : R k 0) {call : Call}
    (hcall : call.onDescriptor = true)
    (hopen : ∀ dirfd path flags mode, call = .openat dirfd path flags mode →
      OpenGuard G T k dirfd path flags.toNat)
    (hpipe : ∀ uptr, call = .pipe2 uptr → G k.toFs .pipe)
    (hfl : ∀ fd arg p f, call = .fcntl64 fd 4 arg → fdFile k fd = some (p, f) → L k f arg.toNat) :
    R (dispatch k call).2 0 := by
  cases call with
  | openat dirfd path flags mode =>
    exact c.setRet (c.sysOpenat h (hopen dirfd path flags mode rfl) mode.toNat) _
  | close fd => exact c.setRet (c.fdClose h fd) _
  | lseek fd off whence => exact c.setRet (c.sysLseek h fd off whence) _
  | llseek fd offHi offLo whence => exact c.setRet (c.sysLlseek h fd _ _ whence) _
  | dup fd => exact c.setRet (c.sysDup h fd) _
  | dup2 oldfd newfd => exact c.setRet (c.sysDup2 h oldfd newfd) _
  | pipe2 uptr => exact c.setRet (c.sysPipe2 h uptr.toNat (hpipe uptr rfl)) _
  | fcntl64 fd cmd arg =>
    refine c.setRet (c.sysFcntl64 h fd cmd arg.toNat fun p f hcmd hf => ?_) _
    exact hfl fd arg p f (by rw [hcmd]) hf
  | chdir path => exact c.setRet (c.sysChdir h path) _
  | _ => cases hcall

theorem CallClosed.file (c : CallClosed (fun _ _ => True) (fun _ => True) (fun _ _ _ => True) R) (h : R k 0)
    {call : Call} (hcall : call.onFile = true) : R (Kernel.dispatch k call).2 0 := by
  by_cases hd : call.onDescriptor = true
  · exact c.dispatch h hd (fun _ _ _ _ _ => ⟨fun _ _ _ => ⟨trivial, trivial⟩, fun _ _ _ _ _ => trivial⟩)
      (fun _ _ => trivial) fun _ _ _ _ _ _ => trivial
  cases call with
  | write fd buf =>
    exact c.setRet (c.sysWrite h fd buf (fun _ _ _ _ => trivial) fun _ _ _ _ => trivial) _
  | readv fd lens input => exact c.setRet (c.sysReadv h fd _ input fun _ _ _ => trivial) _
  | writev fd bufs =>
    refine c.setRet (c.sysWritev (fun _ _ => True) fd bufs h trivial ?_ ?_ ?_ ?_) _
    · exact fun _ _ _ => trivial
    · exact fun _ _ _ => trivial
    · exact fun _ _ _ _ _ _ _ _ => trivial
    exact fun _ _ _ _ _ _ => trivial
  | _ => exact absurd hcall hd

/-- The L1 tables of the live processes. -/
def KState.live (k : KState) : Set Nat := {l | ∃ i, (k.tasks i).alive ∧ l = (k.maps i).l1Pa}

/-- Process `i` has a user page behind entry `t` of slot `s`. -/
def KState.pages (k : KState) (i : Slot) (s t : Nat) : Prop :=
  ∃ f, k.mm.holds k.live (.page (k.maps i).l1Pa s t) f

/-- The frame invariant of the kernel. -/
structure KInv (k : KState) : Prop where
  fs : FsInv k.toFs k.live
  inj : ∀ i j, (k.tasks i).alive → (k.tasks j).alive → (k.maps i).l1Pa = (k.maps j).l1Pa → i = j
  cur : k.halted = false → (k.tasks k.cur).alive
  top : ∀ i, (k.tasks i).alive → (k.maps i).mmapTop % 4096 = 0 ∧ (k.maps i).mmapTop < 4294967296

theorem KInv.cur_mem {k : KState} (inv : KInv k) (h : k.halted = false) : k.proc.l1Pa ∈ k.live :=
  ⟨k.cur, inv.cur h, rfl⟩

/-- Where the memory map `mp` and the pages `P` of process `i` after the event `e` come from. -/
inductive MapStep (k : KState) (e : Event) (i : Slot) (mp : MemMap) (P : Nat → Nat → Prop) : Prop
  | same (ha : (k.tasks i).alive) (hm : mp = k.maps i) (hP : ∀ s t, P s t → k.pages i s t)
  | fork (ha : (k.tasks k.cur).alive) (hm : mp = { k.maps k.cur with l1Pa := mp.l1Pa })
      (hP : ∀ s t, P s t → k.pages k.cur s t)
  | exec (lr : LoadResult) (hok : lr.Ok) (hm : mp = lr.memMap mp.l1Pa)
      (hP : ∀ s t, P s t → imagePages lr s t ∨ stackBase ≤ pageVa s t)
  | brk (ha : (k.tasks i).alive) (tf : Trapframe) (addr : UInt32) (he : e = .syscall tf (.brk addr))
      (hi : i = k.cur) (hm : mp = { k.maps i with brk := addr.toNat })
      (hceil : addr.toNat < (k.maps i).brkCeiling)
      (hP : ∀ s t, P s t → k.pages i s t ∨
        (pageUp (k.maps i).brk ≤ pageVa s t ∧ pageVa s t < pageUp addr.toNat))
      (hgone : ∀ s t, P s t →
        ¬ (pageUp addr.toNat ≤ pageVa s t ∧ pageVa s t < pageUp (k.maps i).brk))
  | fixed (ha : (k.tasks i).alive) (tf : Trapframe) (addr len flags : UInt32) (fd : Int)
      (pgoff : UInt32) (he : e = .syscall tf (.mmap2 addr len flags fd pgoff)) (hi : i = k.cur)
      (hfix : flags.toNat &&& mapFixed ≠ 0) (hm : mp = k.maps i)
      (hP : ∀ s t, P s t → k.pages i s t ∨ mmapPages addr.toNat (pageUp len.toNat) s t)
  | placed (ha : (k.tasks i).alive) (base : Nat) (hm : mp = { k.maps i with mmapTop := base })
      (htop : base ≤ (k.maps i).mmapTop)
      (hP : ∀ s t, P s t → k.pages i s t ∨ base ≤ pageVa s t)
  | munmap (ha : (k.tasks i).alive) (stop : Nat) (hm : mp = { k.maps i with mmapTop := stop })
      (hP : ∀ s t, P s t → k.pages i s t)
      (hgone : ∀ s t, P s t → ¬ ((k.maps i).mmapTop ≤ pageVa s t ∧ pageVa s t < stop))

theorem MapStep.mono {k : KState} {e : Event} {i : Slot} {mp : MemMap} {P P' : Nat → Nat → Prop}
    (h : MapStep k e i mp P) (hPP : ∀ s t, P' s t → P s t) : MapStep k e i mp P' := by
  cases h with
  | same ha hm hP => exact .same ha hm fun s t h => hP s t (hPP s t h)
  | fork ha hm hP => exact .fork ha hm fun s t h => hP s t (hPP s t h)
  | exec lr hok hm hP => exact .exec lr hok hm fun s t h => hP s t (hPP s t h)
  | brk ha tf addr he hi hm hceil hP hgone =>
    exact .brk ha tf addr he hi hm hceil (fun s t h => hP s t (hPP s t h)) fun s t h => hgone s t (hPP s t h)
  | fixed ha tf addr len flags fd pgoff he hi hfix hm hP =>
    exact .fixed ha tf addr len flags fd pgoff he hi hfix hm fun s t h => hP s t (hPP s t h)
  | placed ha base hm htop hP =>
    exact .placed ha base hm htop fun s t h => hP s t (hPP s t h)
  | munmap ha stop hm hP hgone =>
    exact .munmap ha stop hm (fun s t h => hP s t (hPP s t h)) fun s t h => hgone s t (hPP s t h)

/-- What the event `e` does to the address spaces. -/
structure Moved (k : KState) (e : Event) (k' : KState) : Prop where
  inv : KInv k'
  step : ∀ i, (k'.tasks i).alive → MapStep k e i (k'.maps i) (k'.pages i)

/-! ## Events that leave the address spaces alone -/

/-- The live processes keep their address spaces and their pages. -/
structure SameSpaces (k k' : KState) : Prop where
  fs : FsStep k.toFs k'.toFs k.live
  alive : ∀ i, (k'.tasks i).alive ↔ (k.tasks i).alive
  maps : ∀ i, (k.tasks i).alive → k'.maps i = k.maps i
  cur : k'.halted = false → (k'.tasks k'.cur).alive

section Same

variable {k k' : KState}

theorem SameSpaces.live_eq (h : SameSpaces k k') : k'.live = k.live := by
  ext l
  constructor
  · rintro ⟨i, hi, rfl⟩
    have ha := (h.alive i).1 hi
    exact ⟨i, ha, by rw [h.maps i ha]⟩
  rintro ⟨i, hi, rfl⟩
  exact ⟨i, (h.alive i).2 hi, by rw [h.maps i hi]⟩

theorem SameSpaces.kinv (h : SameSpaces k k') (inv : KInv k) : KInv k' := by
  refine ⟨by rw [h.live_eq]; exact h.fs.inv, fun i j hi hj heq => ?_, h.cur, fun i hi => ?_⟩
  · have hi' := (h.alive i).1 hi
    have hj' := (h.alive j).1 hj
    rw [h.maps i hi', h.maps j hj'] at heq
    exact inv.inj i j hi' hj' heq
  have hi' := (h.alive i).1 hi
  rw [h.maps i hi']
  exact inv.top i hi'

theorem SameSpaces.moved (h : SameSpaces k k') (inv : KInv k) (e : Event) : Moved k e k' := by
  refine ⟨h.kinv inv, fun i hi => ?_⟩
  have hi' := (h.alive i).1 hi
  refine .same hi' (h.maps i hi') fun s t hP => ?_
  obtain ⟨f, hf⟩ := hP
  rw [h.live_eq, h.maps i hi'] at hf
  exact ⟨f, (h.fs.pages _ f rfl).1 hf⟩

theorem Calm.sameSpaces (h : Calm k k') (hfs : FsStep k.toFs k'.toFs k.live) (inv : KInv k) :
    SameSpaces k k' := by
  refine ⟨hfs, h.alive_iff, fun i _ => by rw [h.maps], fun hh => ?_⟩
  rw [h.cur, h.alive_iff]
  exact inv.cur (h.halted ▸ hh)

/-- A change of the process table that keeps the live processes alive. -/
theorem KInv.sched (inv : KInv k) (hfs : k'.toFs = k.toFs) (hmaps : k'.maps = k.maps)
    (halive : ∀ i, (k'.tasks i).alive ↔ (k.tasks i).alive)
    (hcur : k'.halted = false → (k'.tasks k'.cur).alive) : SameSpaces k k' :=
  ⟨by rw [hfs]; exact .refl inv.fs, halive, fun i _ => by rw [hmaps], hcur⟩

end Same

/-- The page count of a write does not wrap. -/
def FsOp.fits (_ : Fs) : FsOp → Prop
  | .write _ off src => off + src.length ≤ 0xFFFFF000
  | _ => True

/-- File calls keep the frame invariant, but for writes whose page count wraps. -/
theorem fsStep_closed (fs0 : Fs) (live : Set Nat) : FileClosed FsOp.fits fun k => FsStep fs0 k.toFs live where
  fs op hk hfits := by
    cases op with
    | kmalloc => exact kmalloc_step hk
    | pipe => exact ramfsPipe_step hk
    | pipeRead p n => exact ramfsPipeRead_step hk p n
    | pipeWrite p src => exact ramfsPipeWrite_step hk p src
    | write p off src => exact ramfsWrite_step hk p off src hfits
    | truncate p => exact ramfsTruncate_step hk p (Nat.zero_le _)
    | mkreg dir name mode => exact ramfsMkreg_step hk dir name mode
  kmalloc _ := trivial
  account _ _ _ hk := hk.setInode_same rfl rfl rfl rfl (hk.inv.sizes _)
  file _ _ hk := hk
  proc _ _ _ _ hk := hk
  wakeup _ hk := hk

/-! ## Memory calls -/

section Remap

variable {k : KState} {m : Mm} {mp : MemMap} {S : Nat → Nat → Prop}

theorem KState.remap_tasks (k : KState) (m : Mm) (mp : MemMap) : (k.remap m mp).tasks = k.tasks :=
  KState.setProc_tasks_same rfl

theorem KState.remap_maps (k : KState) (m : Mm) (mp : MemMap) :
    (k.remap m mp).maps = Function.update k.maps k.cur mp :=
  KState.setProc_maps _ _ _

theorem KState.remap_live (hmp : mp.l1Pa = k.proc.l1Pa) : (k.remap m mp).live = k.live := by
  have hl1 : ∀ i, ((k.remap m mp).maps i).l1Pa = (k.maps i).l1Pa := by
    intro i
    rw [k.remap_maps]
    by_cases h : i = k.cur
    · subst h
      rw [Function.update_self, hmp]
      rfl
    rw [Function.update_of_ne h]
  ext l
  simp only [KState.live, Set.mem_ofPred_eq, k.remap_tasks, hl1]

section

variable (inv : KInv k) (hrun : k.halted = false)
include inv hrun

/-- A memory call moves the caller's pages only. `hstep` is what it does to them. -/
theorem KInv.remap (e : Event) (ha : Adds k.mm m k.live k.proc.l1Pa S) (hmp : mp.l1Pa = k.proc.l1Pa)
    (htop : mp.mmapTop % 4096 = 0 ∧ mp.mmapTop < 4294967296)
    (hstep : ∀ P, (∀ s t, P s t → k.pages k.cur s t ∨ S s t) →
      (∀ s t, P s t → ∃ f, m.holds k.live (.page k.proc.l1Pa s t) f) →
      MapStep k e k.cur mp P) : Moved k e (k.remap m mp) := by
  have hlive := KState.remap_live (m := m) hmp
  have hmaps := k.remap_maps m mp
  have hcur : (k.remap m mp).maps k.cur = mp := by rw [hmaps, Function.update_self]
  have hother : ∀ i, i ≠ k.cur → (k.remap m mp).maps i = k.maps i := fun i hi => by
    rw [hmaps, Function.update_of_ne hi]
  have hl1 : ∀ i, ((k.remap m mp).maps i).l1Pa = (k.maps i).l1Pa := by
    intro i
    by_cases h : i = k.cur
    · subst h
      rw [hcur, hmp]
      rfl
    rw [hother i h]
  refine ⟨⟨?_, fun i j hi hj heq => ?_, ?_, fun i hi => ?_⟩, fun i hi => ?_⟩
  · rw [hlive]
    exact inv.fs.move ha.inv ha.loose
  · rw [k.remap_tasks] at hi hj
    rw [hl1, hl1] at heq
    exact inv.inj i j hi hj heq
  · rw [k.remap_tasks]
    exact inv.cur
  · rw [k.remap_tasks] at hi
    by_cases h : i = k.cur
    · rw [h, hcur]
      exact htop
    rw [hother i h]
    exact inv.top i hi
  rw [k.remap_tasks] at hi
  by_cases h : i = k.cur
  · subst h
    rw [hcur]
    refine hstep _ (fun s t hP => ?_) fun s t hP => ?_
    · obtain ⟨f, hf⟩ := hP
      rw [hlive, hcur, hmp] at hf
      exact (ha.sub s t f hf).imp (fun h => ⟨f, h⟩) id
    obtain ⟨f, hf⟩ := hP
    rw [hlive, hcur, hmp] at hf
    exact ⟨f, hf⟩
  refine .same hi (hother i h) fun s t hP => ?_
  obtain ⟨f, hf⟩ := hP
  rw [hlive, hother i h] at hf
  refine ⟨f, (ha.other _ f rfl ?_).1 hf⟩
  -- two live processes have different tables
  intro heq
  simp only [Ref.space, Option.some.injEq] at heq
  exact h (inv.inj i k.cur hi (inv.cur hrun) heq)

theorem sysBrk_moved (tf : Trapframe) (addr : UInt32) :
    Moved k (.syscall tf (.brk addr)) (sysBrk k addr.toNat).2 := by
  have ha := inv.cur hrun
  obtain ⟨m, ⟨hr, hadd⟩ | ⟨hr, hmoved⟩⟩ := sysBrk_cases inv.fs.mm (inv.cur_mem hrun) addr.toNat
  · rw [hr]
    refine inv.remap hrun _ hadd rfl (inv.top _ ha) fun P hP _ => ?_
    exact .same ha rfl fun s t h => (hP s t h).resolve_right id
  rw [hr]
  refine inv.remap hrun _ hmoved.toAdds rfl (inv.top _ ha) fun P hP hheld => ?_
  refine .brk ha tf addr rfl rfl rfl hmoved.ceiling hP fun s t h => ?_
  obtain ⟨f, hf⟩ := hheld s t h
  exact hmoved.gone s t f hf

theorem sysMmap2_moved (tf : Trapframe) (addr len flags : UInt32) (fd : Int) (pgoff : UInt32) :
    Moved k (.syscall tf (.mmap2 addr len flags fd pgoff))
      (sysMmap2 k addr.toNat len.toNat flags.toNat fd pgoff.toNat).2 := by
  have ha := inv.cur hrun
  have htop := inv.top _ ha
  have hm := sysMmap2_cases inv.fs.mm (inv.cur_mem hrun) htop.2 htop.1 addr.toNat len.toNat
    flags.toNat fd pgoff.toNat
  cases hm with
  | fail m hr _ hadd =>
    rw [hr]
    refine inv.remap hrun _ hadd rfl htop fun P hP _ => ?_
    exact .same ha rfl fun s t h => (hP s t h).resolve_right id
  | fixed m hfix hr hmod hadd =>
    rw [hr]
    refine inv.remap hrun _ hadd rfl htop fun P hP _ => ?_
    exact .fixed ha tf addr len flags fd pgoff rfl rfl hfix rfl hP
  | placed m base hfix hr hbase _ hmod hadd => ?_
  have hbase' : base + pageUp len.toNat = (k.maps k.cur).mmapTop := hbase
  rw [hr]
  refine inv.remap hrun _ hadd rfl ⟨hmod, by simp only; omega⟩ fun P hP _ => ?_
  exact .placed ha base rfl (by omega) fun s t h => (hP s t h).imp_right fun h => h.1

theorem sysMunmap_moved (e : Event) (addr len : UInt32) :
    Moved k e (sysMunmap k addr.toNat len.toNat).2 := by
  have ha := inv.cur hrun
  rcases sysMunmap_cases inv.fs.mm (inv.cur_mem hrun) addr.toNat len.toNat addr.toNat_lt with
    hr | ⟨m, hr, hun⟩
  · rw [hr]
    refine SameSpaces.moved ?_ inv e
    exact inv.sched rfl rfl (fun _ => Iff.rfl) inv.cur
  rw [hr]
  split
  · next htop =>
    refine inv.remap hrun _ hun.toAdds rfl ⟨pageUp_mod _, pageUp_lt _⟩ fun P hP hheld => ?_
    refine .munmap ha _ rfl (fun s t h => (hP s t h).resolve_right id) ?_
    rintro s t h ⟨h1, h2⟩
    obtain ⟨f, hf⟩ := hheld s t h
    exact hun.gone s t f hf ⟨htop.trans_le h1, h2⟩
  refine inv.remap hrun _ hun.toAdds rfl (inv.top _ ha) fun P hP _ => ?_
  exact .same ha rfl fun s t h => (hP s t h).resolve_right id

theorem userStore_moved (e : Event) (va : UInt32) (b : UInt8) : Moved k e (userStore k va.toNat b) := by
  simp only [userStore]
  split
  · exact SameSpaces.moved (inv.sched rfl rfl (fun _ => Iff.rfl) inv.cur) inv e
  rename_i hne
  have ev : Evolves k.mm { k.mm with mem := k.mm.mem.w8 (vmWalk k.mm k.proc.l1Pa va.toNat) b }
      k.live (k.mm.holds k.live) := inv.fs.mm.store8 (inv.cur_mem hrun) va.toNat_lt hne b
  have hs : SameSpaces k { k with mm := { k.mm with
      mem := k.mm.mem.w8 (vmWalk k.mm k.proc.l1Pa va.toNat) b } } :=
    ⟨(FsStep.refl inv.fs).evolves ev, fun _ => Iff.rfl, fun _ _ => rfl, inv.cur⟩
  exact hs.moved inv e

end

end Remap

end Embedded.Kernel
