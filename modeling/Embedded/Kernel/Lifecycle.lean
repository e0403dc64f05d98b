import Embedded.Kernel.Spaces

/-! # Fork, exec and exit

The events that create and destroy address spaces. A space under construction belongs to no process
yet: `Scratch` is the frame invariant with one more space than the live processes have. It ends
destroyed, given to a new process (`fork`), or in the place of the caller's old space (`exec`). -/

namespace Embedded.Kernel

open Function (update update_self update_of_ne)
open List

variable {i : Slot} {l : Nat} {t : Task} {s : Bytes} {b : Bprm}

/-- `fs'` has grown out of `fs` with the extra address space `l`, whose pages are among `S`. -/
structure Scratch (fs fs' : Fs) (live : Set Nat) (l : Nat) (S : Nat → Nat → Prop) : Prop where
  fresh : l ∉ live
  inv : FsInv fs' (insert l live)
  other : ∀ r f, r.isTable = false → r.space ≠ some l →
    (fs'.mm.holds (insert l live) r f ↔ fs.mm.holds live r f)
  sub : ∀ s t f, fs'.mm.holds (insert l live) (.page l s t) f → S s t

section Scratch

variable {fs fs1 fs2 : Fs} {live : Set Nat} {l : Nat} {S S' : Nat → Nat → Prop}

theorem Scratch.create (inv : FsInv fs live) (h : (vmCreate fs.mm).1 ≠ 0) :
    Scratch fs { fs with mm := (vmCreate fs.mm).2 } live (vmCreate fs.mm).1 fun _ _ => False := by
  rcases vmCreate_cases inv.mm with ⟨h0, _⟩ | ⟨_, hfresh, hinv, hpages, hloose⟩
  · exact absurd h0 h
  refine ⟨hfresh, inv.move hinv hloose, fun r f ht _ => hpages r f ht, fun s t f hf => ?_⟩
  exact hfresh ((hpages _ f rfl).1 hf).1

variable (h : Scratch fs fs1 live l S)
include h

theorem Scratch.adds (inv : FsInv fs2 (insert l live)) (ha : Adds fs1.mm fs2.mm (insert l live) l S') :
    Scratch fs fs2 live l fun s t => S s t ∨ S' s t :=
  ⟨h.fresh, inv, fun r f ht hr => (ha.other r f ht hr).trans (h.other r f ht hr),
    fun s t f hf => (ha.sub s t f hf).imp (h.sub s t f) id⟩

theorem Scratch.mono (hS : ∀ s t, S s t → S' s t) : Scratch fs fs1 live l S' :=
  ⟨h.fresh, h.inv, h.other, fun s t f hf => hS s t (h.sub s t f hf)⟩

theorem Scratch.evolves {m : Mm} (ev : Evolves fs1.mm m (insert l live) (fs1.mm.holds (insert l live))) :
    Scratch fs { fs1 with mm := m } live l S :=
  (h.adds (h.inv.move ev.inv ev.loose) (ev.adds l)).mono fun _ _ hs => hs.elim id id

theorem Scratch.destroy : FsStep fs { fs1 with mm := vmDestroy fs1.mm l } live := by
  obtain ⟨hinv, hiff, hloose⟩ := vmDestroy_spec h.inv.mm (Set.mem_insert l live)
  have hset : insert l live \ {l} = live := by
    ext x
    simp only [Set.mem_sdiff, Set.mem_insert_iff, Set.mem_singleton_iff]
    refine ⟨fun hx => hx.1.resolve_left hx.2, fun hx => ⟨.inr hx, ?_⟩⟩
    rintro rfl
    exact h.fresh hx
  rw [hset] at hinv hiff hloose
  refine ⟨h.inv.move hinv hloose, fun r f ht => ?_⟩
  rw [hiff r f]
  cases r with
  | page l' s t =>
    have hd : fs1.mm.holds (insert l live \ {l}) (.page l' s t) f ↔
        Ref.space (.page l' s t) ≠ some l ∧ fs1.mm.holds (insert l live) (.page l' s t) f :=
      holds_diff_iff l _ f
    rw [hset] at hd
    by_cases hl : l' = l
    · subst hl
      exact ⟨fun hf => absurd hf.1 h.fresh, fun hf => absurd hf.1 h.fresh⟩
    have hsp : Ref.space (.page l' s t) ≠ some l := by simpa [Ref.space] using hl
    rw [hd, h.other _ f rfl hsp]
    exact and_iff_right hsp
  | ker k | l1 l' k | l2 l' i => simp [Ref.isTable] at ht

omit h

theorem FsInv.diff (inv : FsInv fs live) (l : Nat) : FsInv fs (live \ {l}) :=
  inv.move (inv.mm.diff l) fun _ hf => ⟨hf.1, fun r hr => hf.2 r ((holds_diff_iff l r _).1 hr).2⟩

end Scratch

section Slots

variable {k k' : KState}

/-- Only the slot `i` changed, and it holds no live process before or after. -/
theorem KInv.deadSlot (inv : KInv k) (hi : ¬ (k.tasks i).alive)
    (hi' : ¬ (k'.tasks i).alive) (htasks : ∀ j, j ≠ i → k'.tasks j = k.tasks j)
    (hmaps : ∀ j, j ≠ i → k'.maps j = k.maps j) (hfs : FsStep k.toFs k'.toFs k.live)
    (hcur : k'.cur = k.cur) (hh : k'.halted = k.halted) : SameSpaces k k' := by
  have hne : ∀ j, (k.tasks j).alive → j ≠ i := by
    rintro j hj rfl
    exact hi hj
  refine ⟨hfs, fun j => ?_, fun j hj => hmaps j (hne j hj), fun hrun => ?_⟩
  · by_cases h : j = i
    · subst h
      exact iff_of_false hi' hi
    rw [htasks j h]
  have hc := inv.cur (hh ▸ hrun)
  rw [hcur, htasks _ (hne _ hc)]
  exact hc

/-- A new process in the dead slot `i` takes the extra address space. -/
theorem Scratch.born {S : Nat → Nat → Prop}
    (h : Scratch k.toFs k'.toFs k.live l S) (inv : KInv k) (e : Event) (hi : ¬ (k.tasks i).alive)
    (hi' : (k'.tasks i).alive) (htasks : ∀ j, j ≠ i → k'.tasks j = k.tasks j)
    (hmaps : ∀ j, j ≠ i → k'.maps j = k.maps j) (hcur : k'.cur = k.cur)
    (hh : k'.halted = k.halted) (hl : (k'.maps i).l1Pa = l)
    (htop : (k'.maps i).mmapTop % 4096 = 0 ∧ (k'.maps i).mmapTop < 4294967296)
    (hstep : ∀ P, (∀ s t, P s t → S s t) → MapStep k e i (k'.maps i) P) : Moved k e k' := by
  have hne : ∀ j, (k.tasks j).alive → j ≠ i := by
    rintro j hj rfl
    exact hi hj
  have hold : ∀ j, j ≠ i → (k'.tasks j).alive → (k.tasks j).alive := fun j hj ha => by
    rwa [htasks j hj] at ha
  have hlive : k'.live = insert l k.live := by
    ext x
    simp only [Set.mem_insert_iff]
    constructor
    · rintro ⟨j, hj, rfl⟩
      by_cases h' : j = i
      · subst h'
        exact .inl hl
      exact .inr ⟨j, hold j h' hj, by rw [hmaps j h']⟩
    rintro (rfl | ⟨j, hj, rfl⟩)
    · exact ⟨i, hi', hl.symm⟩
    exact ⟨j, by rwa [htasks j (hne j hj)], by rw [hmaps j (hne j hj)]⟩
  have hdiff : ∀ j, j ≠ i → (k'.tasks j).alive → (k'.maps j).l1Pa ≠ l := by
    intro j hj ha heq
    rw [hmaps j hj] at heq
    exact h.fresh ⟨j, hold j hj ha, heq.symm⟩
  refine ⟨⟨by rw [hlive]; exact h.inv, fun j j' hj hj' heq => ?_, fun hrun => ?_, fun j hj => ?_⟩,
    fun j hj => ?_⟩
  · by_cases h1 : j = i <;> by_cases h2 : j' = i
    · rw [h1, h2]
    · subst h1
      exact absurd (heq.symm.trans hl) (hdiff j' h2 hj')
    · subst h2
      exact absurd (heq.trans hl) (hdiff j h1 hj)
    rw [hmaps j h1, hmaps j' h2] at heq
    exact inv.inj j j' (hold j h1 hj) (hold j' h2 hj') heq
  · have hc := inv.cur (hh ▸ hrun)
    rw [hcur, htasks _ (hne _ hc)]
    exact hc
  · by_cases h1 : j = i
    · subst h1
      exact htop
    rw [hmaps j h1]
    exact inv.top j (hold j h1 hj)
  by_cases h1 : j = i
  · subst h1
    refine hstep _ fun s t hP => ?_
    obtain ⟨f, hf⟩ := hP
    rw [hlive, hl] at hf
    exact h.sub s t f hf
  refine .same (hold j h1 hj) (hmaps j h1) fun s t hP => ?_
  obtain ⟨f, hf⟩ := hP
  have hsp : Ref.space (.page (k'.maps j).l1Pa s t) ≠ some l := by simpa [Ref.space] using hdiff j h1 hj
  rw [hlive] at hf
  refine ⟨f, ?_⟩
  rw [← hmaps j h1]
  exact (h.other _ f rfl hsp).1 hf

theorem SameSpaces.setRet (h : SameSpaces k k') (v : Int) : SameSpaces k (setRet k' v) :=
  ⟨h.fs, fun i => by rw [setRet_tasks]; exact h.alive i, fun i hi => by rw [setRet_maps]; exact h.maps i hi,
    by rw [setRet_tasks]; exact h.cur⟩

end Slots

/-! ## Fork -/

theorem not_alive_unused (h : t.state = .unused) : ¬ t.alive := by simp [Task.alive, h]

theorem Task.alive.ne_unused (h : t.alive) : t.state ≠ .unused := fun hs => not_alive_unused hs h

section Fork

variable {k k' : KState}

theorem Scratch.copy (inv : KInv k) (hrun : k.halted = false) (hl : (vmCreate k.mm).1 ≠ 0) :
    Scratch k.toFs { k.toFs with mm := (vmCopy (vmCreate k.mm).2 (vmCreate k.mm).1 k.proc.l1Pa).2 }
      k.live (vmCreate k.mm).1 (k.pages k.cur) := by
  have h := Scratch.create inv.fs hl
  have hsrc := inv.cur_mem hrun
  generalize vmCreate k.mm = r at h ⊢
  obtain ⟨l, m⟩ := r
  have hne : l ≠ k.proc.l1Pa := by
    rintro rfl
    exact h.fresh hsrc
  have ha := (vmCopy_copied h.inv.mm (Set.mem_insert l k.live) (Set.mem_insert_of_mem l hsrc) hne
    h.sub).1.toAdds
  have h' : Scratch k.toFs { k.toFs with mm := (vmCopy m l k.proc.l1Pa).2 } k.live l _ :=
    h.adds (h.inv.move ha.inv ha.loose) ha
  refine h'.mono fun s t hst => ?_
  obtain ⟨g, hg⟩ := hst.resolve_left id
  have hsp : Ref.space (.page k.proc.l1Pa s t) ≠ some l := by simpa [Ref.space] using hne.symm
  exact ⟨g, (h.other _ g rfl hsp).1 hg⟩

theorem Forked.moved (h : Forked k k') (inv : KInv k) (hrun : k.halted = false) (e : Event) :
    Moved k e k' := by
  have hself : SameSpaces k k := inv.sched rfl rfl (fun _ => Iff.rfl) inv.cur
  cases h with
  | full _ hk =>
    rw [hk]
    exact (hself.setRet _).moved inv e
  | fail i hi t ht m hm htasks hmaps _ _ hfs hcur _ hh =>
    have hstep : FsStep k.toFs { k.toFs with mm := m } k.live := by
      rcases hm with hm | hm
      · rcases vmCreate_cases inv.fs.mm with hno | hyes
        · rw [hm.2, hno.2]
          exact .refl inv.fs
        exact absurd hm.1 hyes.1
      rw [hm.2]
      exact (Scratch.copy inv hrun hm.1).destroy
    refine SameSpaces.moved ?_ inv e
    refine inv.deadSlot (not_alive_unused hi) ?_ (fun j hj => ?_) hmaps (by rw [hfs]; exact hstep) hcur hh
    · rw [htasks, update_self]
      exact not_alive_unused ht
    rw [htasks, update_of_ne hj]
  | child i hi hl htasks hmaps _ _ hfs hcur _ hh => ?_
  have ha := inv.cur hrun
  have hs : Scratch k.toFs k'.toFs k.live (vmCreate k.mm).1 (k.pages k.cur) := by
    rw [hfs]
    exact Scratch.copy inv hrun hl
  have hmi : k'.maps i = { k.maps k.cur with l1Pa := (vmCreate k.mm).1 } := by
    rw [hmaps, update_self]
    rfl
  refine hs.born inv e (not_alive_unused hi) ?_ (fun j hj => ?_) (fun j hj => ?_) hcur hh ?_ ?_ fun P hP => ?_
  · rw [htasks, update_self]
    exact .inl rfl
  · rw [htasks, update_of_ne hj]
  · rw [hmaps, update_of_ne hj]
  · rw [hmi]
  · rw [hmi]
    exact inv.top _ ha
  exact .fork ha (by rw [hmi]) hP

end Fork

/-! ## Exec -/

/-- The pages of a fresh program. -/
def freshPages (lr : LoadResult) (s t : Nat) : Prop :=
  imagePages lr s t ∨ stackBase ≤ pageVa s t

/-- The outcomes of `execve`: an error that leaves the caller as it was, or a fresh program in a new
    address space. What is said about memory holds when the frame invariant did. -/
inductive ExecOut (k : KState) : KState → Prop
  | fail (fs : Fs) (v : Int) (tree : SameTree k.toFs fs)
      (hfs : KInv k → k.halted = false → FsStep k.toFs fs k.live) :
      ExecOut k (setRet { k with toFs := fs } v)
  | ok (fs : Fs) (lr : LoadResult) (l : Nat) (tf : Trapframe) (tree : SameTree k.toFs fs)
      (hfs : KInv k → k.halted = false → lr.Ok ∧ Scratch k.toFs fs k.live l (freshPages lr)) :
      ExecOut k ({ k with toFs := { fs with mm := vmDestroy fs.mm k.proc.l1Pa } }.setProc k.cur
        { k.proc with toMemMap := lr.memMap l, tf := tf })

section Exec

attribute [local irreducible] vmDestroy

variable {k : KState}

theorem ExecOut.none (k : KState) (v : Int) : ExecOut k (setRet k v) :=
  .fail k.toFs v ⟨rfl, rfl⟩ fun inv _ => .refl inv.fs

theorem execCommit_out {fs : Fs} {lr : LoadResult} (tree : SameTree k.toFs fs)
    (hs : KInv k → k.halted = false → lr.Ok ∧ Scratch k.toFs fs k.live l (imagePages lr))
    {argv envp : List Bytes} (hargv : ∀ s ∈ argv, s.length < 4096)
    (henvp : ∀ s ∈ envp, s.length < 4096) :
    ExecOut k (execCommit { k with toFs := fs } l lr argv envp) := by
  -- the scratch space with the stack, and with the arguments on it
  have hstack : KInv k → k.halted = false →
      Scratch k.toFs { fs with mm := (mapUserStack fs.mm l).2 } k.live l (freshPages lr) := by
    intro inv hrun
    have h := (hs inv hrun).2
    have ha := mapUserStack_adds h.inv.mm (Set.mem_insert l k.live)
    exact h.adds (h.inv.move ha.inv ha.loose) ha
  have hargs : KInv k → k.halted = false → Scratch k.toFs { fs with
      mm := (setupUserStack (mapUserStack fs.mm l).2 l userVaMax argv envp lr).2 } k.live l
      (freshPages lr) := by
    intro inv hrun
    have h := hstack inv hrun
    exact h.evolves (setupUserStack_evolves h.inv.mm (Set.mem_insert l k.live) argv envp lr hargv henvp)
  simp only [execCommit]
  generalize mapUserStack fs.mm l = t at hstack hargs ⊢
  generalize setupUserStack t.2 l userVaMax argv envp lr = u at hargs ⊢
  split
  · exact .fail { fs with mm := vmDestroy t.2 l } _ ⟨tree.inodes, tree.root⟩
      fun inv hrun => (hstack inv hrun).destroy
  split
  · exact .fail { fs with mm := vmDestroy u.2 l } _ ⟨tree.inodes, tree.root⟩
      fun inv hrun => (hargs inv hrun).destroy
  exact .ok { fs with mm := u.2 } lr l _ ⟨tree.inodes, tree.root⟩
    fun inv hrun => ⟨(hs inv hrun).1, hargs inv hrun⟩

/-- Every string of the vectors fits the argument buffer. -/
structure Bprm.Short (b : Bprm) : Prop where
  argv : ∀ s, some s ∈ b.argv → s.length < 4096
  envp : ∀ s, some s ∈ b.envp → s.length < 4096

theorem mem_cVector {v : List (Option Bytes)} (h : s ∈ cVector v) : some s ∈ v := by
  induction v with
  | nil => simp [cVector] at h
  | cons o v ih => ?_
  cases o with
  | none => simp [cVector] at h
  | some a => ?_
  simp only [cVector, mem_cons] at h
  rcases h with rfl | h
  · exact mem_cons_self ..
  · exact mem_cons_of_mem _ (ih h)

theorem execImage_out (ino : Nat) (hb : b.Short) : ExecOut k (execImage k ino b) := by
  simp only [execImage]
  split
  · next h0 =>
    refine .fail { k.toFs with mm := (vmCreate k.mm).2 } _ ⟨rfl, rfl⟩ fun inv _ => ?_
    rcases vmCreate_cases inv.fs.mm with ⟨_, hm⟩ | ⟨hne, _⟩
    · rw [hm]
      exact .refl inv.fs
    exact absurd h0 hne
  rename_i h0
  have htree := loadProgram_tree { k.toFs with mm := (vmCreate k.mm).2 } (vmCreate k.mm).1 ino
  have hload : KInv k → k.halted = false →
      Scratch k.toFs (loadProgram { k.toFs with mm := (vmCreate k.mm).2 } (vmCreate k.mm).1 ino).2
        k.live (vmCreate k.mm).1 (fun s t => (loadProgram { k.toFs with mm := (vmCreate k.mm).2 }
          (vmCreate k.mm).1 ino).1.1 = 0 → imagePages (loadProgram { k.toFs with
            mm := (vmCreate k.mm).2 } (vmCreate k.mm).1 ino).1.2 s t) ∧
      ((loadProgram { k.toFs with mm := (vmCreate k.mm).2 } (vmCreate k.mm).1 ino).1.1 = 0 →
        (loadProgram { k.toFs with mm := (vmCreate k.mm).2 } (vmCreate k.mm).1 ino).1.2.Ok) := by
    intro inv _
    have h := Scratch.create inv.fs h0
    obtain ⟨hinv, ha, hok⟩ := loadProgram_adds h.inv (Set.mem_insert _ _) ino
    exact ⟨(h.adds hinv ha).mono fun s t hst => hst.resolve_left id, hok⟩
  generalize loadProgram { k.toFs with mm := (vmCreate k.mm).2 } (vmCreate k.mm).1 ino = s at htree hload ⊢
  have tree : SameTree k.toFs s.2 := ⟨htree.inodes, htree.root⟩
  split
  · exact .fail { s.2 with mm := vmDestroy s.2.mm (vmCreate k.mm).1 } _ ⟨tree.inodes, tree.root⟩
      fun inv hrun => (hload inv hrun).1.destroy
  rename_i hs0
  have hz : s.1.1 = 0 := by simpa using hs0
  exact execCommit_out tree
    (fun inv hrun => ⟨(hload inv hrun).2 hz, (hload inv hrun).1.mono fun _ _ h => h hz⟩)
    (fun a ha => hb.argv a (mem_cVector ha)) fun a ha => hb.envp a (mem_cVector ha)

theorem bprmDup_short {used : Nat} {c : Bytes} (h : (bprmDup used s).1 = some c) : c.length < 4096 := by
  unfold bprmDup at h
  split at h
  · cases h
    omega
  cases h

theorem bprmCopyVec_short (ss : List Bytes) : ∀ (n used : Nat) (cs : List (Option Bytes)),
    (bprmCopyVec ss n used).1 = some cs → ∀ s, some s ∈ cs → s.length < 4096 := by
  induction ss with
  | nil =>
    intro n used cs h s hs
    simp only [bprmCopyVec, Option.some.injEq] at h
    rw [← h] at hs
    cases hs
  | cons a ss ih => ?_
  intro n used cs h s hs
  simp only [bprmCopyVec] at h
  split at h
  · cases h
  split at h
  · cases h
  rename_i c hc
  simp only [Option.map_eq_some_iff] at h
  obtain ⟨cs', hcs', rfl⟩ := h
  rcases mem_cons.1 hs with heq | hs
  · cases heq
    exact bprmDup_short hc
  exact ih _ _ cs' hcs' s hs

theorem spliceArgs_short (hb : b.Short) (interp : Bytes) (arg : Option Bytes)
    (path : Bytes) : (spliceArgs b interp arg path).Short := by
  refine ⟨fun s hs => ?_, hb.envp⟩
  have htail : ∀ (n : Nat), some s ∈ (b.argv.drop 1).take n → s.length < 4096 :=
    fun n h => hb.argv s (mem_of_mem_drop (mem_of_mem_take h))
  cases arg with
  | none =>
    simp only [spliceArgs, mem_append, mem_singleton] at hs
    rcases hs with (h | h) | h
    · exact bprmDup_short h.symm
    · exact bprmDup_short h.symm
    exact htail _ h
  | some a => ?_
  simp only [spliceArgs, mem_append, mem_cons, not_mem_nil, or_false] at hs
  rcases hs with ((h | h) | h) | h
  · exact bprmDup_short h.symm
  · exact bprmDup_short h.symm
  · exact bprmDup_short h.symm
  exact htail _ h

theorem execLoop_out (depth : Nat) : ∀ (path : Bytes) (b : Bprm), b.Short →
    ExecOut k (execLoop k depth path b) := by
  induction depth with
  | zero => intro path b _; exact .none k _
  | succ depth ih => ?_
  intro path b hb
  simp only [execLoop]
  split
  · exact .none k _
  split
  · exact .none k _
  split
  · split
    · exact .none k _
    exact ih _ _ (spliceArgs_short hb _ _ _)
  exact execImage_out _ hb

theorem procExecve_out (k : KState) (path : Bytes) (argv envp : List Bytes) :
    ExecOut k (procExecve k path argv envp) := by
  simp only [procExecve]
  split
  · exact .none k _
  rename_i av hav
  split
  · exact .none k _
  next ev hev =>
  exact execLoop_out 4 _ _ ⟨bprmCopyVec_short _ _ _ _ hav, bprmCopyVec_short _ _ _ _ hev⟩

theorem ExecOut.moved {k' : KState} (h : ExecOut k k') (inv : KInv k) (hrun : k.halted = false)
    (e : Event) : Moved k e k' := by
  cases h with
  | fail fs v tree hfs =>
    have hs : SameSpaces k { k with toFs := fs } := ⟨hfs inv hrun, fun _ => Iff.rfl, fun _ _ => rfl, inv.cur⟩
    exact (hs.setRet v).moved inv e
  | ok fs lr l tf tree hfs => ?_
  obtain ⟨hok, hs⟩ := hfs inv hrun
  have hold := inv.cur_mem hrun
  have hlne : l ≠ k.proc.l1Pa := by
    rintro rfl
    exact hs.fresh hold
  obtain ⟨hinv, hiff, hloose⟩ := vmDestroy_spec hs.inv.mm (Set.mem_insert_of_mem l hold)
  have hfsinv := hs.inv.move hinv hloose
  generalize hm : vmDestroy fs.mm k.proc.l1Pa = m at hinv hiff hloose hfsinv ⊢
  have htasks : ({ k with toFs := { fs with mm := m } }.setProc k.cur
      { k.proc with toMemMap := lr.memMap l, tf := tf }).tasks = k.tasks :=
    KState.setProc_tasks_same rfl
  have hmaps : ({ k with toFs := { fs with mm := m } }.setProc k.cur
      { k.proc with toMemMap := lr.memMap l, tf := tf }).maps
        = update k.maps k.cur (lr.memMap l) := KState.setProc_maps _ _ _
  generalize hk : ({ k with toFs := { fs with mm := m } }.setProc k.cur
    { k.proc with toMemMap := lr.memMap l, tf := tf }) = k' at htasks hmaps ⊢
  have hfs' : k'.toFs = { fs with mm := m } := by rw [← hk]; rfl
  have hcur' : k'.cur = k.cur := by rw [← hk]; rfl
  clear hk
  have hmc : k'.maps k.cur = lr.memMap l := by rw [hmaps, update_self]
  have hmo : ∀ i, i ≠ k.cur → k'.maps i = k.maps i := fun i hi => by
    rw [hmaps, update_of_ne hi]
  have hdiff : ∀ i, i ≠ k.cur → (k.tasks i).alive → (k.maps i).l1Pa ≠ k.proc.l1Pa :=
    fun i hi ha heq => hi (inv.inj i k.cur ha (inv.cur hrun) heq)
  have hlive : k'.live = insert l k.live \ {k.proc.l1Pa} := by
    ext x
    simp only [Set.mem_sdiff, Set.mem_insert_iff, Set.mem_singleton_iff]
    constructor
    · rintro ⟨i, hi, rfl⟩
      rw [htasks] at hi
      by_cases hc : i = k.cur
      · rw [hc, hmc]
        exact ⟨.inl rfl, hlne⟩
      rw [hmo i hc]
      exact ⟨.inr ⟨i, hi, rfl⟩, hdiff i hc hi⟩
    rintro ⟨rfl | ⟨i, hi, rfl⟩, hx⟩
    · exact ⟨k.cur, by rw [htasks]; exact inv.cur hrun, by rw [hmc]; rfl⟩
    refine ⟨i, by rw [htasks]; exact hi, ?_⟩
    rw [hmo i]
    rintro rfl
    exact hx rfl
  have hpage : ∀ r f, k'.mm.holds k'.live r f → fs.mm.holds (insert l k.live) r f := by
    intro r f hr
    rw [hlive, hfs'] at hr
    exact ((holds_diff_iff _ r f).1 ((hiff r f).1 hr)).2
  refine ⟨⟨by rw [hlive, hfs']; exact hfsinv, fun i j hi hj heq => ?_, ?_, fun i hi => ?_⟩, fun i hi => ?_⟩
  · rw [htasks] at hi hj
    have hnl : ∀ j, (k.tasks j).alive → (k.maps j).l1Pa ≠ l := fun j hj heq => hs.fresh ⟨j, hj, heq.symm⟩
    by_cases h1 : i = k.cur <;> by_cases h2 : j = k.cur
    · rw [h1, h2]
    · rw [h1, hmc, hmo j h2] at heq
      exact absurd heq.symm (hnl j hj)
    · rw [h2, hmc, hmo i h1] at heq
      exact absurd heq (hnl i hi)
    rw [hmo i h1, hmo j h2] at heq
    exact inv.inj i j hi hj heq
  · intro _
    rw [hcur', htasks]
    exact inv.cur hrun
  · rw [htasks] at hi
    by_cases h1 : i = k.cur
    · rw [h1, hmc]
      exact (by decide : Kernel.mmapTop % 4096 = 0 ∧ Kernel.mmapTop < 4294967296)
    rw [hmo i h1]
    exact inv.top i hi
  rw [htasks] at hi
  by_cases h1 : i = k.cur
  · subst h1
    rw [hmc]
    refine .exec lr hok rfl fun s t hP => ?_
    obtain ⟨f, hf⟩ := hP
    rw [hmc] at hf
    exact hs.sub s t f (hpage _ f hf)
  refine .same hi (hmo i h1) fun s t hP => ?_
  obtain ⟨f, hf⟩ := hP
  have hsp : Ref.space (.page (k'.maps i).l1Pa s t) ≠ some l := by
    rw [hmo i h1]
    intro heq
    simp only [Ref.space, Option.some.injEq] at heq
    exact hs.fresh ⟨i, hi, heq.symm⟩
  refine ⟨f, ?_⟩
  rw [← hmo i h1]
  exact (hs.other _ f rfl hsp).1 (hpage _ f hf)

end Exec

/-! ## Exit -/

section Exit

variable {k k' : KState}

/-- The current process is gone, and its address space with it. -/
theorem KInv.reaped (inv : KInv k) (hrun : k.halted = false) (e : Event)
    (halive : ∀ i, (k'.tasks i).alive ↔ i ≠ k.cur ∧ (k.tasks i).alive)
    (hmaps : ∀ i, i ≠ k.cur → k'.maps i = k.maps i)
    (hfs : FsInv k'.toFs (k.live \ {k.proc.l1Pa}))
    (hpages : ∀ r f, r.isTable = false → k'.mm.holds (k.live \ {k.proc.l1Pa}) r f → k.mm.holds k.live r f)
    (hcur : k'.halted = false → (k'.tasks k'.cur).alive) : Moved k e k' := by
  have hlive : k'.live = k.live \ {k.proc.l1Pa} := by
    ext x
    simp only [Set.mem_sdiff, Set.mem_singleton_iff]
    constructor
    · rintro ⟨i, hi, rfl⟩
      obtain ⟨hne, ha⟩ := (halive i).1 hi
      rw [hmaps i hne]
      exact ⟨⟨i, ha, rfl⟩, fun heq => hne (inv.inj i k.cur ha (inv.cur hrun) heq)⟩
    rintro ⟨⟨i, hi, rfl⟩, hx⟩
    have hne : i ≠ k.cur := by
      rintro rfl
      exact hx rfl
    exact ⟨i, (halive i).2 ⟨hne, hi⟩, by rw [hmaps i hne]⟩
  refine ⟨⟨by rw [hlive]; exact hfs, fun i j hi hj heq => ?_, hcur, fun i hi => ?_⟩, fun i hi => ?_⟩
  · obtain ⟨h1, hi⟩ := (halive i).1 hi
    obtain ⟨h2, hj⟩ := (halive j).1 hj
    rw [hmaps i h1, hmaps j h2] at heq
    exact inv.inj i j hi hj heq
  · obtain ⟨h1, hi⟩ := (halive i).1 hi
    rw [hmaps i h1]
    exact inv.top i hi
  obtain ⟨h1, hi⟩ := (halive i).1 hi
  refine .same hi (hmaps i h1) fun s t hP => ?_
  obtain ⟨f, hf⟩ := hP
  rw [hlive, hmaps i h1] at hf
  exact ⟨f, hpages _ f rfl hf⟩

theorem reapCurrent_spec (k : KState) (code : Int) (sig : Nat) :
    (∀ live, FsInv k.toFs live → FsStep k.toFs (reapCurrent k code sig).toFs live) ∧
    ((reapCurrent k code sig).tasks k.cur).state = .zombie ∧
    (∀ i, i ≠ k.cur → (((reapCurrent k code sig).tasks i).alive ↔ (k.tasks i).alive)) ∧
    (∀ i, i ≠ k.cur → (reapCurrent k code sig).maps i = k.maps i) ∧
    (reapCurrent k code sig).cur = k.cur := by
  simp only [reapCurrent]
  have ht1 := KState.setProc_tasks k k.cur
    { k.proc with exitCode := code, killedSig := sig, state := .zombie }
  generalize hk1 : k.setProc k.cur { k.proc with exitCode := code, killedSig := sig, state := .zombie }
    = k1 at ht1 ⊢
  have hm1 : k1.maps = k.maps := by rw [← hk1]; exact KState.setProc_maps_same rfl
  have hfs1 : k1.toFs = k.toFs := by rw [← hk1]; rfl
  have hc1 : k1.cur = k.cur := by rw [← hk1]; rfl
  -- closing its files
  have hcalm : Calm k1 (fdtableCloseall k1 k1.cur) :=
    (calm_calls k1).fdtableCloseall (k := k1) (H := 0) (.refl k1) rfl
  have hstep : ∀ live, FsInv k.toFs live → FsStep k.toFs (fdtableCloseall k1 k1.cur).toFs live := by
    intro live hinv
    refine (fsStep_closed k.toFs live).calls.fdtableCloseall (k := k1) (H := 0) ?_ rfl
    rw [hfs1]
    exact .refl hinv
  generalize fdtableCloseall k1 k1.cur = k2 at hcalm hstep ⊢
  have ht3 : (k2.setProc k2.cur { k2.proc with l1Pa := 0 }).tasks = k2.tasks := KState.setProc_tasks_same rfl
  have hm3 := KState.setProc_maps k2 k2.cur { k2.proc with l1Pa := 0 }
  generalize hk3 : k2.setProc k2.cur { k2.proc with l1Pa := 0 } = k3 at ht3 hm3 ⊢
  have hfs3 : k3.toFs = k2.toFs := by rw [← hk3]; rfl
  have hc3 : k3.cur = k.cur := by rw [← hc1, ← hcalm.cur, ← hk3]; rfl
  clear hk3
  -- handing its children over
  have hre := (reparent_resched k3).trans (wakeParent_resched (reparent k3))
  generalize wakeParent (reparent k3) = k4 at hre ⊢
  refine ⟨fun live hinv => ?_, ?_, fun i hi => ?_, fun i hi => ?_, hre.cur.trans hc3⟩
  · rw [hre.toFs, hfs3]
    exact hstep live hinv
  · have hz : (k1.tasks k.cur).state = .zombie := by rw [ht1, update_self]
    have hz2 : (k2.tasks k.cur).state = .zombie := by
      rcases hcalm.tasks k.cur with h | h
      · rw [h, hz]
      rw [h.1] at hz
      cases hz
    rcases hre.state k.cur with h | h
    · rw [h, ht3, hz2]
    rw [ht3, hz2] at h
    cases h.1
  · rw [hre.alive_iff, ht3, hcalm.alive_iff, ht1, update_of_ne hi]
  rw [hre.maps, hm3, update_of_ne (by rw [hcalm.cur, hc1]; exact hi), hcalm.maps, hm1]

theorem reapCurrentAndSwitch_moved (inv : KInv k) (hrun : k.halted = false) (e : Event) (code : Int)
    (sig : Nat) : Moved k e (reapCurrentAndSwitch k code sig) := by
  obtain ⟨hstep, hz, halive, hmaps, hcur⟩ := reapCurrent_spec k code sig
  have hfs := hstep k.live inv.fs
  unfold reapCurrentAndSwitch
  simp only
  generalize reapCurrent k code sig = k4 at hstep hz halive hmaps hcur hfs ⊢
  have hall : ∀ i, (k4.tasks i).alive ↔ i ≠ k.cur ∧ (k.tasks i).alive := by
    intro i
    by_cases hi : i = k.cur
    · subst hi
      simp [Task.alive, hz]
    rw [halive i hi]
    exact (and_iff_right hi).symm
  cases hp : pickNext k4 with
  | none =>
    simp only
    refine inv.reaped hrun e (hall) (hmaps) (hfs.inv.diff _) (fun r f ht hr => ?_) fun h => by cases h
    exact (hfs.pages r f ht).1 ((holds_diff_iff _ r f).1 hr).2
  | some nx => ?_
  simp only
  have hnx : (k4.tasks nx).state = .runnable := by
    rcases pickNext_some hp with h | ⟨h, h'⟩
    · exact h
    rw [h, hcur, hz] at h'
    cases h'
  obtain ⟨hinv, hiff, hloose⟩ := vmDestroy_spec hfs.inv.mm (inv.cur_mem hrun)
  have hfsinv := hfs.inv.move hinv hloose
  generalize vmDestroy k4.mm k.proc.l1Pa = m at hinv hiff hloose hfsinv ⊢
  have htasks : ∀ i, ((switchTo k4 nx).tasks i).alive ↔ (k4.tasks i).alive := by
    intro i
    rw [switchTo_tasks]
    by_cases hi : i = nx
    · subst hi
      simp [Task.alive, hnx]
    rw [update_of_ne hi]
  refine inv.reaped hrun e (fun i => (htasks i).trans (hall i)) (fun i hi => ?_) hfsinv
    (fun r f ht hr => ?_) fun _ => ?_
  · exact (congrFun (switchTo_maps k4 nx) i).trans (hmaps i hi)
  · exact (hfs.pages r f ht).1 ((holds_diff_iff _ r f).1 ((hiff r f).1 hr)).2
  exact (htasks nx).2 (.inl hnx)

end Exit

end Embedded.Kernel
