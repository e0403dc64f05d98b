import Embedded.Kernel.Lifecycle
import Embedded.Kernel.PmmRuns

/-! # The state that boot hands over

`boot` in three stages: the kernel's own page table, the filesystem unpacked from the archive, and
the first process. `boot_spawned` says what a property of all runs has to start from. -/

namespace Embedded.Kernel

open List

variable {m : Mm} {b : Boot} {fs : Fs} {k : KState}

/-! ## The kernel's own table -/

section KernelTable

/-- The words `mmu_init` stores are the section descriptors. -/
theorem r32_fillSections (mem : Mem) (l1 : Nat) {i : Nat} (hi : i < 4096) :
    (fillSections mem l1).r32 (l1 + 4 * i) = sectDesc i := by
  have hb : ∀ j < 4, fillSections mem l1 (l1 + 4 * i + j) = UInt8.ofNat (sectDesc i / 256 ^ j) := by
    intro j hj
    unfold fillSections
    rw [if_pos (by omega), show (l1 + 4 * i + j - l1) / 4 = i by omega,
      show (l1 + 4 * i + j - l1) % 4 = j by omega]
  have h0 := hb 0 (by omega)
  have hlt : sectDesc i < 4294967296 := by
    unfold sectDesc
    split <;> omega
  simp only [Nat.add_zero, Nat.pow_zero, Nat.div_one] at h0
  simp only [Mem.r32, h0, hb 1 (by omega), hb 2 (by omega), hb 3 (by omega), UInt8.toNat_ofNat']
  omega

theorem sectDesc_not_coarse (i : Nat) : l1IsCoarse (sectDesc i) = false := by
  unfold l1IsCoarse sectDesc
  rw [beq_eq_false_iff_ne]
  split <;> omega

/-- A kernel table of sections in used frames, and no address space yet. -/
theorem inv_of_sections (hpmm : PmmOk m.pmm) (hal : m.kerL1 % 16384 = 0)
    (hsec : ∀ i < 4096, l1IsCoarse (m.l1Entry m.kerL1 i) = false)
    (hused : ∀ k < 4, m.used (m.kerL1 / 4096 + k)) : Inv m ∅ := by
  have hker : ∀ r f, m.holds ∅ r f → ∃ k < 4, r = .ker k ∧ f = m.kerL1 / 4096 + k := by
    intro r f h
    cases r with
    | ker k => exact ⟨k, h.1, rfl, h.2⟩
    | l1 l k | l2 l i | page l i k => exact absurd h.1 (by simp)
  refine ⟨hpmm, hal, hsec, fun l hl => absurd hl (by simp), fun l hl => absurd hl (by simp),
    fun r f h => ?_, fun r r' f h h' => ?_⟩
  · obtain ⟨k, hk, _, rfl⟩ := hker r f h
    exact hused k hk
  obtain ⟨k, _, rfl, hf⟩ := hker r f h
  obtain ⟨k', _, rfl, hf'⟩ := hker r' f h'
  rw [show k = k' by omega]

theorem mmuInit_inv (hpmm : PmmOk m.pmm) (h0 : (mmuInit m).kerL1 ≠ 0) : Inv (mmuInit m) ∅ := by
  unfold mmuInit at h0 ⊢
  rcases pmmAllocAligned_cases m 4 16384 hpmm with ⟨hz, _⟩ | ⟨a, hal⟩
  · rw [if_pos hz] at h0
    exact absurd rfl h0
  have hpos := a.pos
  rw [if_neg (by omega)]
  refine inv_of_sections a.pmmOk hal (fun i hi => ?_) fun k hk => ?_
  · simp only [Mm.l1Entry, r32_fillSections _ _ hi]
    exact sectDesc_not_coarse i
  exact (a.used _).2 (.inr ⟨by simp only; omega, by simp only; omega⟩)

theorem mmuSelftest_inv (inv : Inv m ∅) : Inv (mmuSelftest m) ∅ := by
  unfold mmuSelftest
  rcases pmmAllocAligned_cases m 256 0x100000 inv.pmm with ⟨hz, hm⟩ | ⟨a, hal⟩
  · rw [if_pos hz, hm]
    exact inv
  have hpos := a.pos
  have hfits := a.fits
  have inv1 := a.inv inv
  rw [if_neg (by omega)]
  refine inv_of_sections inv1.pmm inv1.kerAligned (fun i hi => ?_) fun k hk => ?_
  · simp only [mmuMapSection, Mm.l1Entry]
    by_cases h : i = 0x50000000 / 1048576
    · rw [h, Mem.r32_w32_self (by omega)]
      unfold l1IsCoarse
      rw [beq_eq_false_iff_ne]
      omega
    rw [Mem.r32_w32_of_ne (by omega)]
    exact inv1.kerSections i hi
  exact inv1.owns.alloc (.ker k) _ ⟨hk, rfl⟩

/-- A table that is there after the selftest was there before it. -/
theorem mmuSelftest_init_inv (hpmm : PmmOk m.pmm) (h : (mmuSelftest (mmuInit m)).kerL1 ≠ 0) :
    Inv (mmuSelftest (mmuInit m)) ∅ := by
  have hker : ∀ m : Mm, PmmOk m.pmm → (mmuSelftest m).kerL1 = m.kerL1 := by
    intro m ok
    unfold mmuSelftest
    rcases pmmAllocAligned_cases m 256 0x100000 ok with ⟨hz, hm⟩ | ⟨a, _⟩
    · rw [if_pos hz, hm]
    have := a.pos
    rw [if_neg (by omega)]
    exact a.kerL1
  have hmpmm : ∀ m : Mm, PmmOk m.pmm → PmmOk (mmuInit m).pmm := by
    intro m ok
    unfold mmuInit
    rcases pmmAllocAligned_cases m 4 16384 ok with ⟨hz, hm⟩ | ⟨a, _⟩
    · rw [if_pos hz, hm]
      exact ok
    have := a.pos
    rw [if_neg (by omega)]
    exact a.pmmOk
  refine mmuSelftest_inv (mmuInit_inv hpmm ?_)
  rwa [hker _ (hmpmm _ hpmm)] at h

theorem bootMm_inv (b : Boot) (h : (bootMm b).kerL1 ≠ 0) : Inv (bootMm b) ∅ := by
  have hinit := pmmInit_ok b.freeStart_pos (b.freeStart_le.trans (by decide))
    (b.ramTop_le.trans_lt (by decide))
  refine mmuSelftest_init_inv (pmmReserve_ok ?_ _ _) h
  split
  · exact hinit
  · exact pmmReserve_ok hinit _ _

end KernelTable

/-! ## The filesystem -/

theorem fsInv_empty (inv : Inv m ∅) (heap : List Answer) :
    FsInv { mm := m, heap := heap, inodes := fun _ => {}, root := 0, nextIno := 1 } ∅ :=
  ⟨inv, ⟨fun _ _ h => absurd h.1 (by simp), fun _ _ _ h => absurd h.1 (by simp)⟩,
    fun _ _ h => absurd h (by simp), fun _ h => absurd h (by simp), fun _ _ => Nat.zero_le _⟩

theorem loadArchive_step {fs0 : Fs} {r : Int × Fs} (h : FsStep fs0 fs ∅)
    (hr : loadArchive b fs = some r) : FsStep fs0 r.2 ∅ := by
  have hlen : b.archive.length ≤ 0xFFFFF000 := b.archive_le.trans (by omega)
  unfold loadArchive at hr
  split at hr
  · exact cpioLoop_step b.archive b.archiveSize hlen b.fuel 0 0 fs r h hr
  simp only at hr
  have hs : FsStep fs0 { fs with mm := (pmmAllocAligned fs.mm b.scratch 4096).2 } ∅ := by
    rcases pmmAllocAligned_cases fs.mm b.scratch 4096 h.inv.mm.pmm with ⟨_, hm⟩ | ⟨a, _⟩
    · rw [hm]
      exact h
    exact h.evolves (a.evolves h.inv.mm)
  split at hr
  · cases hr
    exact hs
  exact cpioLoop_step b.archive b.archiveSize hlen b.fuel 0 0 _ r hs hr

/-! ## The first process -/

/-- The kernel with `/init` loaded in slot `0`, before its standard descriptors are opened; `fs` is
    the filesystem it was loaded from. -/
structure Spawned (fs : Fs) (k : KState) : Prop where
  files : k.files = fun _ => none
  procs : ∀ i, i ≠ 0 → k.procs i = {}
  fds : k.fds 0 = fun _ => none
  task : k.tasks 0 = { pid := 1, state := .embryo }
  cur : k.cur = 0
  nextPid : k.nextPid = 2
  halted : k.halted = false
  tree : SameTree fs k.toFs
  map : ∃ lr l, lr.Ok ∧ k.maps 0 = lr.memMap l ∧ Scratch fs k.toFs ∅ l (freshPages lr)

/-- The end of `proc_spawn_elf` and `proc_run_first`: open the standard descriptors, enter. -/
def enter (k : KState) (tf : Trapframe) : KState :=
  let k := initStdio k 0
  switchTo (k.setProc 0 { k.procs 0 with tf := tf, state := .runnable }) 0

theorem spawnIn_spawned (inv : FsInv fs ∅) (ino : Nat) {argv : List Bytes}
    (hargv : ∀ s ∈ argv, s.length < 4096) (hk : Claimed (.empty fs) 0 (embryoTask (.empty fs)) k)
    (hfs : k.toFs = fs) (hok : (spawnIn k 0 ino argv).1 = true) :
    ∃ k0 tf, Spawned fs k0 ∧ (spawnIn k 0 ino argv).2
      = (initStdio k0 0).setProc 0 { (initStdio k0 0).procs 0 with tf := tf, state := .runnable } := by
  unfold spawnIn at hok ⊢
  have hmm : k.mm = fs.mm := by rw [hfs]
  simp only [hmm] at hok ⊢
  have hs1 : (vmCreate fs.mm).1 ≠ 0 → _ := Scratch.create inv
  generalize vmCreate fs.mm = r at hok hs1 ⊢
  obtain ⟨l, m⟩ := r
  -- the slot with its L1 table
  have hk1 := hk.setProc { k.toFs with mm := m } (p := { k.procs 0 with l1Pa := l }) rfl
  have ht1 : (k.procs 0).toTask = embryoTask (.empty fs) :=
    (congrFun hk.tasks 0).trans (Function.update_self ..)
  generalize hg : ({ k with mm := m }.setProc 0 { k.procs 0 with l1Pa := l } : KState) = k1 at hok hk1 ⊢
  have hfs1 : k1.toFs = { fs with mm := m } := by rw [← hg, ← hfs]; rfl
  have hp1 : k1.procs 0 = { k.procs 0 with l1Pa := l } := by
    rw [← hg]
    exact Function.update_self (0 : Slot) _ k.procs
  by_cases h0 : l = 0
  · rw [if_pos h0] at hok
    cases hok
  rw [if_neg h0] at hok ⊢
  have hs := hs1 h0
  -- the program
  rw [hfs1] at hok ⊢
  obtain ⟨hinv2, ha2, hok2⟩ := loadProgram_adds hs.inv (Set.mem_insert l ∅) ino
  have tree2 := loadProgram_tree { fs with mm := m } l ino
  have hs2 := hs.adds hinv2 ha2
  generalize loadProgram { fs with mm := m } l ino = s at hok tree2 hs2 hok2 ⊢
  obtain ⟨⟨e, lr⟩, fs2⟩ := s
  by_cases he : e ≠ 0
  · rw [if_pos he] at hok
    cases hok
  rw [if_neg he] at hok ⊢
  have he0 : e = 0 := by simpa using he
  have hs3 : Scratch fs fs2 ∅ l (imagePages lr) := hs2.mono fun _ _ h => h.resolve_left id he0
  -- its stack
  have ha4 := mapUserStack_adds hs3.inv.mm (Set.mem_insert l ∅)
  have hs4 : Scratch fs { fs2 with mm := (mapUserStack fs2.mm l).2 } ∅ l (freshPages lr) :=
    hs3.adds (hs3.inv.move ha4.inv ha4.loose) ha4
  generalize mapUserStack fs2.mm l = t at hok hs4 ⊢
  obtain ⟨e', m4⟩ := t
  by_cases he' : e' ≠ 0
  · rw [if_pos he'] at hok
    cases hok
  rw [if_neg he'] at hok ⊢
  -- its arguments
  have hs5 := hs4.evolves (setupUserStack_evolves hs4.inv.mm (Set.mem_insert l ∅) argv [] lr hargv (by simp))
  generalize setupUserStack m4 l userVaMax argv [] lr = u at hok hs5 ⊢
  obtain ⟨usp, m5⟩ := u
  by_cases hu : usp = 0
  · rw [if_pos hu] at hok
    cases hok
  rw [if_neg hu]
  refine ⟨_, _, ?_, rfl⟩
  have hk6 := hk1.setProc { fs2 with mm := m5 } (p := { k1.procs 0 with toMemMap := lr.memMap l }) rfl
  refine ⟨hk6.files, hk6.procs, ?_, ?_, hk6.cur, hk6.nextPid, hk6.halted,
    ⟨tree2.inodes, tree2.root⟩, lr, l, hok2 he0, ?_, hs5⟩
  · exact congrFun hk6.fds 0
  · refine (congrFun hk6.tasks 0).trans ((Function.update_self ..).trans ?_)
    rw [hp1]
    exact ht1
  exact (congrFun (KState.setProc_maps _ _ _) 0).trans (Function.update_self ..)

theorem parseShebang_short (hdr : Bytes) : (parseShebang hdr).2.1.length < 4096 ∧
    ∀ a, (parseShebang hdr).2.2 = some a → a.length < 4096 := by
  unfold parseShebang
  split
  · simp
  simp only
  split
  · simp
  rename_i h
  refine ⟨by simp only; omega, fun a ha => ?_⟩
  split at ha
  · next hlen =>
    cases ha
    omega
  cases ha

theorem procSpawnElf_spawned (inv : FsInv fs ∅) (hok : (procSpawnElf (.empty fs) initPath).1 = true) :
    ∃ k0 tf, Spawned fs k0 ∧ (procSpawnElf (.empty fs) initPath).2
      = (initStdio k0 0).setProc 0 { (initStdio k0 0).procs 0 with tf := tf, state := .runnable } := by
  have hshort : ∀ (c : Bool) (hdr : Bytes), ∀ s ∈ (if c then
      (parseShebang hdr).2.1 :: (parseShebang hdr).2.2.toList ++ [initPath] else [initPath]),
      s.length < 4096 := by
    intro c hdr s hs
    obtain ⟨h1, h2⟩ := parseShebang_short hdr
    have hp : initPath.length < 4096 := by decide
    split at hs
    · simp only [cons_append, mem_cons, mem_append, Option.mem_toList, not_mem_nil, or_false] at hs
      rcases hs with rfl | hs | rfl
      · exact h1
      · exact h2 s hs
      exact hp
    rw [mem_singleton.1 hs]
    exact hp
  have hcall : (procSpawnElf (.empty fs) initPath).1 = true → ∃ ino argv,
      (∀ s ∈ argv, s.length < 4096) ∧ procSpawnElf (.empty fs) initPath
        = spawnIn (allocProc (.empty fs)).2 0 ino argv := by
    simp only [procSpawnElf]
    generalize ramfsLookup (KState.empty fs).toFs (KState.empty fs).root initPath true = ino
    generalize ramfsRead (KState.empty fs).toFs ino 0 128 = got
    generalize (decide (got.1 ≥ 2) && decide ((parseShebang got.2).1 = 1)) = script
    have hargv := hshort script got.2
    generalize (if script = true then (parseShebang got.2).2.1 :: (parseShebang got.2).2.2.toList
      ++ [initPath] else [initPath]) = argv at hargv ⊢
    generalize (if script = true then ramfsLookup (KState.empty fs).toFs (KState.empty fs).root
      (parseShebang got.2).2.1 true else ino) = ino'
    split
    · intro h
      cases h
    split
    · intro h
      cases h
    exact fun _ => ⟨ino', argv, hargv, rfl⟩
  obtain ⟨ino, argv, hargv, heq⟩ := hcall hok
  rw [heq] at hok ⊢
  exact spawnIn_spawned inv ino hargv (allocProc_claimed (.empty fs) 0) rfl hok

theorem procRunFirst_eq (h : (k.tasks 0).state = .runnable) : procRunFirst k = some (switchTo k 0) := by
  have hf : (finRange 8).find? (fun i => decide ((k.procs i).state = .runnable)) = some 0 := by
    have h' : (k.procs 0).state = .runnable := h
    simp [finRange_succ, h']
  unfold procRunFirst
  rw [hf]
  rfl

/-- Boot ends in `/init`'s first instruction, in slot `0` of an otherwise empty process table. -/
theorem boot_spawned (h : boot b = some k) :
    ∃ r fs k0 tf, (bootFs b).root ≠ 0 ∧ loadArchive b (bootFs b) = some (r, fs) ∧ FsInv fs ∅ ∧
      Spawned fs k0 ∧ k = enter k0 tf := by
  simp only [boot] at h
  split at h
  · cases h
  rename_i hker
  have inv0 := fsInv_empty (bootMm_inv b hker) b.heap
  have hinit : FsStep _ (bootFs b) ∅ := ramfsInit_step (.refl inv0)
  split at h
  · cases h
  split at h
  · cases h
  rename_i hroot
  split at h
  · cases h
  rename_i r fs hload
  have inv := (loadArchive_step hinit hload).inv
  split at h
  · cases h
  split at h
  · next hok =>
    obtain ⟨k0, tf, hsp, heq⟩ := procSpawnElf_spawned inv hok
    rw [heq] at h
    rw [procRunFirst_eq] at h
    · cases h
      exact ⟨r, fs, k0, tf, hroot, hload, inv, hsp, rfl⟩
    rw [KState.setProc_tasks, Function.update_self]
  cases h

end Embedded.Kernel
