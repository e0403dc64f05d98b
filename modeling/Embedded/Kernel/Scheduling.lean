import Embedded.Kernel.Isolation
import Embedded.Kernel.ProcTable

/-! # The kernel moves its process table by the rules

Every event is a move of the process table in the sense of `TStep`, so that the invariant of the
table holds in every state of every run. -/

namespace Embedded.Kernel

/-! ## What memory calls leave alone

`Still k k'` says that only memory, memory maps and registers differ: the process table as the
scheduler sees it, the descriptors, the open files and the inodes are the same. It holds of the
memory calls, of `execve` and of what a program does by itself, so that a property of processes and
files needs no proof for them. -/

/-- Nothing but memory, memory maps and registers differs. -/
structure Still (k k' : KState) : Prop where
  tree : SameTree k.toFs k'.toFs
  files : k'.files = k.files
  tasks : k'.tasks = k.tasks
  fds : k'.fds = k.fds
  cur : k'.cur = k.cur
  nextPid : k'.nextPid = k.nextPid
  halted : k'.halted = k.halted

section

variable {k k1 k' : KState}

theorem Still.refl (k : KState) : Still k k := ⟨⟨rfl, rfl⟩, rfl, rfl, rfl, rfl, rfl, rfl⟩

theorem Still.trans (h : Still k k1) (h' : Still k1 k') : Still k k' :=
  ⟨⟨h'.tree.inodes.trans h.tree.inodes, h'.tree.root.trans h.tree.root⟩, h'.files.trans h.files,
    h'.tasks.trans h.tasks, h'.fds.trans h.fds, h'.cur.trans h.cur, h'.nextPid.trans h.nextPid,
    h'.halted.trans h.halted⟩

theorem Still.setProc {i : Slot} {p : Proc} {fs : Fs} (htree : SameTree k.toFs fs)
    (ht : p.toTask = k.tasks i) (hf : p.fds = k.fds i) :
    Still k ({ k with toFs := fs }.setProc i p) := by
  have htasks : ({ k with toFs := fs }.setProc i p).tasks = k.tasks := KState.setProc_tasks_same ht
  have hfds : ({ k with toFs := fs }.setProc i p).fds = k.fds := KState.setProc_fds_same hf
  exact ⟨htree, rfl, htasks, hfds, rfl, rfl, rfl⟩

variable (k)

theorem setRet_still (v : Int) : Still k (setRet k v) := .setProc ⟨rfl, rfl⟩ rfl rfl

theorem saveTf_still (tf : Trapframe) : Still k (saveTf k tf) := .setProc ⟨rfl, rfl⟩ rfl rfl

theorem remap_still (m : Mm) (mp : MemMap) : Still k (k.remap m mp) := by
  have htree : SameTree k.toFs { k.toFs with mm := m } := ⟨rfl, rfl⟩
  exact .setProc htree rfl rfl

theorem mm_still (m : Mm) : Still k { k with mm := m } := ⟨⟨rfl, rfl⟩, rfl, rfl, rfl, rfl, rfl, rfl⟩

theorem sysBrk_still (addr : Nat) : Still k (sysBrk k addr).2 := by
  simp only [sysBrk]
  split
  · exact .refl k
  split
  · exact .refl k
  split
  · exact mm_still k _
  exact remap_still k _ { k.proc.toMemMap with brk := addr }

theorem copyFileInto_still (va len : Nat) (fd : Int) (foff : Nat) :
    Still k (copyFileInto k va len fd foff).2 := by
  unfold copyFileInto
  split
  · exact .refl k
  split
  · exact .refl k
  exact mm_still k _

theorem mmapAt_still (base len flags : Nat) (fd : Int) (foff : Nat) :
    Still k (mmapAt k base len flags fd foff).2 := by
  simp only [mmapAt]
  generalize mapZeroedRange k.mm k.proc.l1Pa base (pageUp len / 4096) = r
  have h1 := mm_still k r.2
  split
  · exact h1
  have hc : Still k (if flags &&& mapAnonymous = 0
      then copyFileInto { k with mm := r.2 } base len fd foff else (0, { k with mm := r.2 })).2 := by
    split
    · exact h1.trans (copyFileInto_still ..)
    exact h1
  generalize (if flags &&& mapAnonymous = 0
    then copyFileInto { k with mm := r.2 } base len fd foff else (0, { k with mm := r.2 })) = c at hc
  split
  · exact hc.trans (mm_still ..)
  split
  · exact hc
  exact hc.trans (remap_still c.2 c.2.mm { c.2.proc.toMemMap with mmapTop := base })

theorem sysMmap2_still (addr len flags : Nat) (fd : Int) (pgoff : Nat) :
    Still k (sysMmap2 k addr len flags fd pgoff).2 := by
  unfold sysMmap2
  split
  · exact .refl k
  split
  · exact .refl k
  split
  · exact .refl k
  split
  · exact .refl k
  split
  · exact .refl k
  exact mmapAt_still ..

theorem sysMunmap_still (addr len : Nat) : Still k (sysMunmap k addr len).2 := by
  unfold sysMunmap
  split
  · exact .refl k
  simp only
  split
  · exact remap_still k _ { k.proc.toMemMap with mmapTop := pageUp (add32 addr len) }
  exact mm_still k _

variable {k} in
theorem ExecOut.still (h : ExecOut k k') : Still k k' := by
  cases h with
  | fail fs v tree _ =>
    have h1 : Still k { k with toFs := fs } := ⟨tree, rfl, rfl, rfl, rfl, rfl, rfl⟩
    exact h1.trans (setRet_still ..)
  | ok fs lr l tf tree _ => exact .setProc ⟨tree.inodes, tree.root⟩ rfl rfl

theorem userStore_still (va : Nat) (b : UInt8) : Still k (userStore k va b) := by
  simp only [userStore]
  split
  · exact .refl k
  exact mm_still k _

end

open List KState
open Function (update update_self update_of_ne)

/-! ## Handing over children -/

theorem Task.Awake.refl (t : Task) : t.Awake t := .inl rfl

theorem Task.Awake.withParent {t t' : Task} (h : t.Awake t') (p : Option Slot) :
    ({ t with parent := p } : Task).Awake { t' with parent := p } := by
  rcases h with rfl | ⟨hs, rfl⟩
  · exact .refl _
  exact .inr ⟨hs, rfl⟩

theorem Task.Awake.eq {t t' : Task} (h : t.Awake t') (hb : t.state ≠ .blocked) : t' = t :=
  h.resolve_right fun hw => hb hw.1

theorem procWakeup_awake (k : KState) (c : Chan) (i : Slot) :
    (k.tasks i).Awake ((procWakeup k c).tasks i) := by
  rw [procWakeup_tasks]
  split
  · next h => exact .inr ⟨h.1, rfl⟩
  exact .refl _

/-- After a wakeup on a control block nobody sleeps on it. -/
theorem procWakeup_not_waits (k : KState) (p i : Slot) : ¬ ((procWakeup k (.proc p)).tasks i).waits p := by
  rw [procWakeup_tasks]
  split
  · exact fun h => absurd h.1 (by simp)
  next hn => exact hn

section Reparent

variable {k k' : KState} {initp : Slot}

theorem Orphan.congr (hcur : k'.cur = k.cur) {i : Slot} (h : (k.tasks i).SameFamily (k'.tasks i)) :
    k'.table.Orphan i ↔ k.table.Orphan i := by simp only [Table.Orphan, table, hcur, h.inUse, h.parent]

theorem reparentOne_spec (k : KState) (initp a : Slot) : (reparentOne initp k a).cur = k.cur ∧
    (k.table.Orphan a →
      ({ k.tasks a with parent := some initp } : Task).Awake ((reparentOne initp k a).tasks a)) ∧
    (∀ i, (i = a → ¬ k.table.Orphan a) → (k.tasks i).Awake ((reparentOne initp k a).tasks i)) ∧
    (k.table.Orphan a → (k.tasks a).state = .zombie →
      ¬ ((reparentOne initp k a).tasks initp).waits initp) := by
  simp only [reparentOne]
  split
  · next ho =>
    have ho' : k.table.Orphan a := ho
    have htasks := setProc_tasks k a { k.procs a with parent := some initp }
    have hself : (k.setProc a { k.procs a with parent := some initp }).tasks a
        = { k.tasks a with parent := some initp } := by
      rw [htasks, update_self]
      rfl
    have hother : ∀ i, i ≠ a → (k.setProc a { k.procs a with parent := some initp }).tasks i = k.tasks i := by
      intro i hi
      rw [htasks, update_of_ne hi]
    generalize hk1 : k.setProc a { k.procs a with parent := some initp } = k1 at hself hother ⊢
    have hc1 : k1.cur = k.cur := by rw [← hk1]; rfl
    split
    · refine ⟨hc1, fun _ => ?_, fun i hi => ?_, fun _ _ => procWakeup_not_waits k1 initp initp⟩
      · rw [← hself]
        exact procWakeup_awake ..
      have hia : i ≠ a := fun h => hi h ho'
      rw [← hother i hia]
      exact procWakeup_awake ..
    next hz =>
    refine ⟨hc1, fun _ => .inl hself, fun i hi => ?_, fun _ h => absurd h hz⟩
    exact .inl (hother i fun h => hi h ho')
  next ho => exact ⟨rfl, fun h => absurd h ho, fun _ _ => .refl _, fun h => absurd h ho⟩

/-- The loop: every child in the list goes to init, which is awake if one of them is dead. -/
theorem reparentAll_spec (slots : List Slot) : ∀ (k : KState), initp ≠ k.cur →
    (slots.foldl (reparentOne initp) k).cur = k.cur ∧
    (∀ i ∈ slots, k.table.Orphan i → ({ k.tasks i with parent := some initp } : Task).Awake
      ((slots.foldl (reparentOne initp) k).tasks i)) ∧
    (∀ i, (i ∈ slots → ¬ k.table.Orphan i) →
      (k.tasks i).Awake ((slots.foldl (reparentOne initp) k).tasks i)) ∧
    (∀ i ∈ slots, k.table.Orphan i → (k.tasks i).state = .zombie →
      ¬ ((slots.foldl (reparentOne initp) k).tasks initp).waits initp) := by
  induction slots with
  | nil => exact fun k _ => ⟨rfl, by simp, fun _ _ => .refl _, by simp⟩
  | cons a slots ih => ?_
  intro k hne
  obtain ⟨hcur, hmove, hkeep, hawake⟩ := reparentOne_spec k initp a
  simp only [foldl_cons]
  generalize reparentOne initp k a = k1 at hcur hmove hkeep hawake ⊢
  obtain ⟨hcur', hmove', hkeep', hawake'⟩ := ih k1 (by rw [hcur]; exact hne)
  generalize slots.foldl (reparentOne initp) k1 = k2 at hcur' hmove' hkeep' hawake' ⊢
  -- the round changes no other slot's relations, and its own slot is no orphan afterwards
  have horph : ∀ i, i ≠ a → (k1.table.Orphan i ↔ k.table.Orphan i) :=
    fun i hi => Orphan.congr hcur (hkeep i fun h => absurd h hi).sameFamily
  have hdone : ¬ k1.table.Orphan a := by
    by_cases ho : k.table.Orphan a
    · intro ho1
      have hp := (hmove ho).sameFamily.parent
      exact hne ((Option.some.inj (hp.symm.trans ho1.2.2)).trans hcur)
    rwa [Orphan.congr hcur (hkeep a fun _ => ho).sameFamily]
  have hwaits : (k2.tasks initp).waits initp → (k1.tasks initp).waits initp := by
    intro hw
    by_cases ho : initp ∈ slots ∧ k1.table.Orphan initp
    · exact (hmove' initp ho.1 ho.2).waits hw
    exact (hkeep' initp fun h1 h2 => ho ⟨h1, h2⟩).waits hw
  refine ⟨hcur'.trans hcur, fun i hi ho => ?_, fun i hi => ?_, fun i hi ho hz => ?_⟩
  · by_cases hia : i = a
    · subst hia
      exact (hmove ho).trans (hkeep' i fun _ => hdone)
    have h₁ := hkeep i fun h => absurd h hia
    exact (h₁.withParent _).trans (hmove' i ((mem_cons.1 hi).resolve_left hia) ((horph i hia).2 ho))
  · have h₁ : (k.tasks i).Awake (k1.tasks i) := by
      refine hkeep i ?_
      rintro rfl
      exact hi mem_cons_self
    refine h₁.trans (hkeep' i fun hmem => ?_)
    rw [Orphan.congr hcur h₁.sameFamily]
    exact hi (mem_cons_of_mem _ hmem)
  by_cases hia : i = a
  · subst hia
    exact fun hw => hawake ho hz (hwaits hw)
  have h₁ := hkeep i fun h => absurd h hia
  exact hawake' i ((mem_cons.1 hi).resolve_left hia) ((horph i hia).2 ho) (h₁.sameFamily.zombie.2 hz)

end Reparent

/-! ## Death -/

section Death

variable {k : KState}

theorem reparent_eq (k : KState) : reparent k = match k.table.initSlot with
    | none => k
    | some p => if p = k.cur then k else (List.finRange 8).foldl (reparentOne p) k := rfl

theorem reparent_spec (k : KState) : (reparent k).cur = k.cur ∧
    (∀ i, k.table.Orphan i → ∀ p, k.table.initSlot = some p → p ≠ k.cur →
      ({ k.tasks i with parent := some p } : Task).Awake ((reparent k).tasks i)) ∧
    (∀ i, (k.table.Orphan i → ∀ p, k.table.initSlot = some p → p = k.cur) →
      (k.tasks i).Awake ((reparent k).tasks i)) ∧
    (∀ i, k.table.Orphan i → (k.tasks i).state = .zombie → ∀ p, k.table.initSlot = some p →
      p ≠ k.cur → ¬ ((reparent k).tasks p).waits p) := by
  rw [reparent_eq]
  cases hinit : k.table.initSlot with
  | none =>
    exact ⟨rfl, fun _ _ _ hp => (nomatch hp), fun _ _ => .refl _, fun _ _ _ _ hp => (nomatch hp)⟩
  | some q => ?_
  simp only
  by_cases hq : q = k.cur
  · rw [if_pos hq]
    refine ⟨rfl, fun i _ p hp hne => ?_, fun _ _ => .refl _, fun i _ _ p hp hne => ?_⟩
    · exact absurd ((Option.some.inj hp).symm.trans hq) hne
    exact absurd ((Option.some.inj hp).symm.trans hq) hne
  rw [if_neg hq]
  obtain ⟨hcur, hmove, hkeep, hawake⟩ := reparentAll_spec (finRange 8) k hq
  refine ⟨hcur, fun i ho p hp _ => ?_, fun i hi => ?_, fun i ho hz p hp _ => ?_⟩
  · rw [← Option.some.inj hp]
    exact hmove i (mem_finRange i) ho
  · exact hkeep i fun _ ho => hq (hi ho q rfl)
  rw [← Option.some.inj hp]
  exact hawake i (mem_finRange i) ho hz

theorem wakeParent_spec (k : KState) : (wakeParent k).cur = k.cur ∧
    (∀ i, (k.tasks i).Awake ((wakeParent k).tasks i)) ∧
    ∀ p, (k.tasks k.cur).parent = some p → ¬ ((wakeParent k).tasks p).waits p := by
  unfold wakeParent
  split
  · next hn => exact ⟨rfl, fun _ => .refl _, fun p hp => absurd (hn.symm.trans hp) (by simp)⟩
  rename_i q hq
  refine ⟨rfl, procWakeup_awake k _, fun p hp => ?_⟩
  rw [Option.some.inj (hp.symm.trans hq)]
  exact procWakeup_not_waits k q q

theorem initSlot_congr {t t' : Table} (hpid : ∀ i, (t'.tasks i).pid = (t.tasks i).pid)
    (huse : ∀ i, (t'.tasks i).inUse ↔ (t.tasks i).inUse) : t'.initSlot = t.initSlot := by
  unfold Table.initSlot
  congr 1
  funext i
  have hu : ((t'.tasks i).state ≠ .unused) = ((t.tasks i).state ≠ .unused) := propext (huse i)
  simp only [hpid, hu]

/-- `reap_current_and_switch` up to the choice of the next process. -/
theorem reapCurrent_exited (hcur : (k.tasks k.cur).inUse) (code : Int) (sig : Nat) :
    k.table.Exited (reapCurrent k code sig).table := by
  simp only [reapCurrent]
  have htasks := setProc_tasks k k.cur { k.proc with exitCode := code, killedSig := sig, state := .zombie }
  generalize hk1 : k.setProc k.cur { k.proc with exitCode := code, killedSig := sig, state := .zombie }
    = k1 at htasks ⊢
  have hz1 : k1.tasks k.cur = { k.tasks k.cur with state := .zombie, exitCode := code, killedSig := sig } := by
    rw [htasks, update_self]
    rfl
  have ho1 : ∀ i, i ≠ k.cur → k1.tasks i = k.tasks i := fun i hi => by rw [htasks, update_of_ne hi]
  have hn1 : k1.cur = k.cur ∧ k1.nextPid = k.nextPid ∧ k1.halted = k.halted := by
    rw [← hk1]
    exact ⟨rfl, rfl, rfl⟩
  -- closing the files wakes sleepers
  have hcalm : Calm k1 (fdtableCloseall k1 k1.cur) :=
    (calm_calls k1).fdtableCloseall (k := k1) (H := 0) (.refl k1) rfl
  generalize fdtableCloseall k1 k1.cur = k2 at hcalm ⊢
  have ht3 : (k2.setProc k2.cur { k2.proc with l1Pa := 0 }).tasks = k2.tasks := setProc_tasks_same rfl
  generalize hk3 : k2.setProc k2.cur { k2.proc with l1Pa := 0 } = k3 at ht3 ⊢
  have hn3 : k3.cur = k.cur ∧ k3.nextPid = k.nextPid ∧ k3.halted = k.halted := by
    rw [← hk3]
    exact ⟨hcalm.cur.trans hn1.1, hcalm.nextPid.trans hn1.2.1, hcalm.halted.trans hn1.2.2⟩
  have hz3 : k3.tasks k.cur
      = { k.tasks k.cur with state := .zombie, exitCode := code, killedSig := sig } := by
    have ha : (k1.tasks k.cur).Awake (k2.tasks k.cur) := hcalm.tasks k.cur
    rw [ht3, ha.eq (by rw [hz1]; simp), hz1]
  have ho3 : ∀ i, i ≠ k.cur → (k.tasks i).Awake (k3.tasks i) := by
    intro i hi
    rw [ht3, ← ho1 i hi]
    exact hcalm.tasks i
  -- what the loop over the children sees
  have horph : ∀ i, i ≠ k.cur → (k3.table.Orphan i ↔ k.table.Orphan i) :=
    fun i hi => Orphan.congr hn3.1 (ho3 i hi).sameFamily
  have hnot : ¬ k3.table.Orphan k.cur := fun h => h.1 hn3.1.symm
  have hinit : k3.table.initSlot = k.table.initSlot := by
    refine initSlot_congr (fun i => ?_) fun i => ?_
    · by_cases hi : i = k.cur
      · have hpid : (k3.tasks k.cur).pid = (k.tasks k.cur).pid := by rw [hz3]
        rw [hi]
        exact hpid
      exact (ho3 i hi).sameFamily.pid
    by_cases hi : i = k.cur
    · rw [hi]
      refine iff_of_true ?_ hcur
      have hst : (k3.tasks k.cur).state = .zombie := by rw [hz3]
      exact fun h => absurd (hst.symm.trans h) (by simp)
    exact (ho3 i hi).sameFamily.inUse
  obtain ⟨hcur4, hmove, hkeep, hawake⟩ := reparent_spec k3
  have hs4 := reparent_resched k3
  rw [hinit, hn3.1] at hmove hkeep hawake
  generalize reparent k3 = k4 at hcur4 hmove hkeep hawake hs4 ⊢
  have hz4 : k4.tasks k.cur = k3.tasks k.cur := (hkeep _ fun h => absurd h hnot).eq (by rw [hz3]; simp)
  obtain ⟨hcur5, haw5, hpar5⟩ := wakeParent_spec k4
  have hs5 := wakeParent_resched k4
  refine ⟨hcur5.trans (hcur4.trans hn3.1), hs5.nextPid.trans (hs4.nextPid.trans hn3.2.1),
    hs5.halted.trans (hs4.halted.trans hn3.2.2), ⟨code, sig, ?_⟩, fun i ho p hp hne => ?_,
    fun i hi hk => ?_, fun i ho hz p hp hne hw => ?_, fun p hp => ?_⟩
  · have ha := haw5 k.cur
    rw [hz4, hz3] at ha
    exact ha.eq (by simp)
  · have hi : i ≠ k.cur := ho.1
    exact ((ho3 i hi).withParent _).trans ((hmove i ((horph i hi).2 ho) p hp hne).trans (haw5 i))
  · exact ((ho3 i hi).trans (hkeep i fun ho => hk ((horph i hi).1 ho))).trans (haw5 i)
  · have hi : i ≠ k.cur := ho.1
    exact hawake i ((horph i hi).2 ho) ((ho3 i hi).sameFamily.zombie.2 hz) p hp hne ((haw5 p).waits hw)
  refine hpar5 p ?_
  rw [hcur4, hn3.1, hz4, hz3]
  exact hp

end Death

/-! ## Every event is a move of the table -/

section Refine

attribute [local irreducible] vmDestroy

variable {k k' : KState}

theorem Still.table (h : Still k k') : k'.table = k.table := by
  unfold KState.table
  rw [h.tasks, h.cur, h.nextPid, h.halted]

theorem TStep.rfl (t : Table) : TStep t t := .wake t.tasks fun _ => .refl _

theorem Still.tstep (h : Still k k') : TStep k.table k'.table := by
  rw [h.table]
  exact .rfl _

theorem Calm.tstep (h : Calm k k') : TStep k.table k'.table := by
  have ht : k'.table = { k.table with tasks := k'.tasks } := by
    unfold table
    rw [h.cur, h.nextPid, h.halted]
  rw [ht]
  exact .wake _ h.tasks

theorem Forked.tstep (h : Forked k k') : TStep k.table k'.table := by
  cases h with
  | full hfull hk => exact hk ▸ (setRet_still ..).tstep
  | fail i hi t ht m hm htasks hmaps hfds hfiles hfs hcur hpid hh =>
    have htab : k'.table = { k.table with
        tasks := update k.tasks i t, nextPid := k.nextPid + 1 } := by
      unfold table
      rw [htasks, hcur, hpid, hh]
    rw [htab]
    exact .forkFailed i hi t ht
  | child i hi hl htasks hmaps hfds hfiles hfs hcur hpid hh => ?_
  have htab : k'.table = { k.table with
      tasks := update k.tasks i k.table.child, nextPid := k.nextPid + 1 } := by
    unfold table
    rw [htasks, hcur, hpid, hh]
    rfl
  rw [htab]
  exact .fork i hi

theorem switchTo_table (k : KState) (p : Proc) (nx : Slot) :
    (switchTo (k.setProc k.cur p) nx).table = (k.table.setCur p.toTask).switch nx := by
  have htasks : (switchTo (k.setProc k.cur p) nx).tasks = ((k.table.setCur p.toTask).switch nx).tasks := by
    rw [switchTo_tasks, setProc_tasks]
    rfl
  unfold table
  rw [htasks]
  rfl

/-- `read` sleeps on the inode of an empty pipe that has a writer. -/
theorem readBlockChan_some {fd : Int} {n : Nat} {c : Chan} (h : readBlockChan k fd n = some c) :
    ∃ p f, fdFile k fd = some (p, f) ∧ c = .inode f.inode ∧ (k.inodes f.inode).type = .pipe ∧
      (k.inodes f.inode).size = 0 ∧ 0 < (k.inodes f.inode).wrOpen := by
  unfold readBlockChan at h
  split at h
  · cases h
  split at h
  · cases h
  rename_i p f hf
  simp only at h
  split at h
  · cases h
  rename_i ht
  split at h
  · cases h
  split at h
  · next hs =>
    cases h
    exact ⟨p, f, hf, rfl, not_not.1 ht, hs.1, hs.2⟩
  cases h

theorem procSleep_tstep (c : Chan) (hwait : ∀ j, c = .proc j → j = k.cur ∧ k.table.Waiter k.cur) :
    TStep k.table (procSleep k c).2.table := by
  rcases procSleep_cases k c with h | ⟨nx, hne, hnx, h⟩
  · rw [h]
    exact .rfl _
  rw [h, switchTo_table]
  exact .sleep c nx hne hnx hwait

theorem procPreempt_tstep (k : KState) (tf : Trapframe) : TStep k.table (procPreempt k tf).table := by
  rcases procPreempt_cases k tf with h | ⟨nx, hne, hnx, h⟩
  · rw [h]
    exact .rfl _
  rw [h, switchTo_table]
  exact .preempt nx hne hnx

theorem procWait_tstep (k : KState) : TStep k.table (procWait k).2.table := by
  rcases procWait_cases k with ⟨i, hz, hp, h⟩ | ⟨hz, h | ⟨hchild, _, h⟩⟩
  · have htab : (setState k i .unused).table = { k.table with
        tasks := update k.tasks i { k.tasks i with state := .unused } } := by
      have htasks : (setState k i .unused).tasks = update k.tasks i { k.tasks i with state := .unused } :=
        setProc_tasks k i _
      unfold table
      rw [htasks]
      rfl
    rw [h, (setRet_still ..).table, htab]
    exact .collect i hz hp
  · rw [h]
    exact (setRet_still ..).tstep
  rw [h]
  obtain ⟨i, hi, hu⟩ := hchild
  refine procSleep_tstep _ fun j hj => ⟨?_, ⟨i, hu, hi⟩, hz⟩
  cases hj
  rfl

section

variable (hcur : (k.tasks k.cur).inUse)
include hcur

theorem reapCurrentAndSwitch_tstep (code : Int) (sig : Nat) :
    TStep k.table (reapCurrentAndSwitch k code sig).table := by
  have hex := reapCurrent_exited hcur code sig
  have hc := (reapCurrent_spec k code sig).2
  unfold reapCurrentAndSwitch
  simp only
  generalize reapCurrent k code sig = k1 at hex hc ⊢
  split
  · exact .exitLast _ hex
  rename_i nx hnx
  have hrunnable : (k1.tasks nx).state = .runnable := by
    refine (pickNext_some hnx).resolve_right fun h => ?_
    rw [h.1, hc.2.2.2, hc.1] at h
    cases h.2
  have htab : table { switchTo k1 nx with mm := vmDestroy k1.mm k.proc.l1Pa } = k1.table.switch nx := by
    have htasks : (switchTo k1 nx).tasks = (k1.table.switch nx).tasks := switchTo_tasks k1 nx
    have h₁ : (switchTo k1 nx).table = k1.table.switch nx := by
      unfold table
      rw [htasks]
      rfl
    exact h₁
  rw [htab]
  exact .exit _ hex nx hrunnable

theorem dispatch_tstep (c : Call) : TStep k.table (dispatch k c).2.table := by
  -- a file call, and the return value
  have hcalm : ∀ {k' : KState} (v : Int), Calm k k' → TStep k.table (setRet k' v).table := by
    intro k' v h
    rw [(setRet_still k' v).table]
    exact h.tstep
  have hstill : ∀ {k' : KState} (v : Int), Still k k' → TStep k.table (setRet k' v).table :=
    fun v h => (h.trans (setRet_still ..)).tstep
  have cc := calm_calls k
  have hk := Calm.refl k
  by_cases hf : c.onFile = true
  · exact (cc.file hk hf : Calm k _).tstep
  cases c with
  | fork => exact (doFork_forked k 0 hcur).tstep
  | clone flags childStack =>
    simp only [dispatch]
    unfold procClone
    split
    · exact (setRet_still ..).tstep
    exact (doFork_forked k _ hcur).tstep
  | execve path argv envp => exact (procExecve_out k path argv envp).still.tstep
  | wait4 => exact procWait_tstep k
  | exit code => exact reapCurrentAndSwitch_tstep hcur code 0
  | read fd n input =>
    simp only [dispatch]
    unfold trapRead
    have hr : Calm k (sysRead k fd n.toNat input).2 :=
      cc.sysRead (H := 0) hk fd n.toNat input fun _ _ _ _ => trivial
    split
    · exact hcalm _ hr
    rename_i chan hchan
    simp only
    split
    · refine procSleep_tstep chan fun j hj => ?_
      obtain ⟨p, f, _, hc, _⟩ := readBlockChan_some hchan
      rw [hc] at hj
      cases hj
    exact hcalm _ hr
  | brk addr => exact hstill _ (sysBrk_still k _)
  | mmap2 addr len flags fd pgoff => exact hstill _ (sysMmap2_still k ..)
  | munmap addr len => exact hstill _ (sysMunmap_still k ..)
  | other r => exact hstill _ (.refl k)
  | _ => exact absurd rfl hf

/-- **The kernel refines the process table**: every event is one of its moves. -/
theorem next_tstep (hrun : k.halted = false) (e : Event) : TStep k.table (next k e).table := by
  unfold next step
  rw [hrun]
  simp only [Bool.false_eq_true, if_false]
  have hsave : ∀ tf, (saveTf k tf).table = k.table := fun tf => (saveTf_still k tf).table
  have hcur' : ∀ tf, ((saveTf k tf).tasks (saveTf k tf).cur).inUse := by
    intro tf
    rw [saveTf_tasks]
    exact hcur
  cases e with
  | syscall tf c => exact hsave tf ▸ dispatch_tstep (hcur' tf) c
  | tick tf => exact procPreempt_tstep k tf
  | fault kind tf =>
    simp only [faultTrap]
    rw [← hsave tf]
    split
    · exact .stop
    exact reapCurrentAndSwitch_tstep (hcur' tf) _ _
  | store va b => exact (userStore_still k _ b).tstep

end

end Refine

/-! ## Runs -/

theorem enter_table {fs : Fs} {k0 : KState} (hs : Spawned fs k0) (tf : Trapframe) :
    (enter k0 tf).table.Ok := by
  have hcalm : Calm k0 (initStdio k0 0) :=
    (calm_calls k0).initStdio (k := k0) (H := 0) (.refl k0) hs.cur.symm hs.fds fun _ _ _ => trivial
  refine Table.ok_first ?_ (fun i hi => ?_) rfl (hcalm.nextPid.trans hs.nextPid)
  · have ha : (k0.tasks 0).Awake ((initStdio k0 0).procs 0).toTask := hcalm.tasks 0
    show (switchTo _ 0).tasks 0 = _
    rw [switchTo_tasks, update_self, setProc_tasks, update_self]
    show { ((initStdio k0 0).procs 0).toTask with state := .running } = _
    rw [ha.eq (by rw [hs.task]; simp), hs.task]
  have h₀ : k0.tasks i = {} := congrArg Proc.toTask (hs.procs i hi)
  have ha : (k0.tasks i).Awake ((initStdio k0 0).tasks i) := hcalm.tasks i
  show ((switchTo _ 0).tasks i).state = _
  rw [switchTo_tasks, update_of_ne hi, setProc_tasks, update_of_ne hi, ha.eq (by rw [h₀]; simp), h₀]

theorem booted_table {k : KState} (h : Booted k) : k.table.Ok := by
  obtain ⟨b, hb⟩ := h
  obtain ⟨r, fs, k0, tf, _, _, _, hs, rfl⟩ := boot_spawned hb
  exact enter_table hs tf

theorem reached_table {k : KState} (h : Reached k) : k.table.Ok := by
  refine h.invariant (fun _ => booted_table) fun k e _ ok => ?_
  cases hh : k.halted with
  | true => rwa [next_halted hh]
  | false => ?_
  have hcur : (k.tasks k.cur).state = .running := ok.cur hh
  refine (next_tstep ?_ hh e).ok ok hh
  rw [Task.inUse, hcur]
  decide

/-- **The process table is consistent and no exit is missed**, in every state of every run. While
    the kernel runs, exactly the current process is running (and nobody else is when it has stopped).
    A parent pointer of a process leads to a process: the one that forked it, or init when that one
    has exited. Who sleeps in `wait` has a child, and none of its children is dead. -/
theorem proc_table_consistent {k : KState} (h : Reached k) : (∀ i, (k.tasks i).state = .running → i = k.cur) ∧
    (k.halted = false → (k.tasks k.cur).state = .running) ∧
    (∀ i j, (k.tasks i).state ≠ .unused → (k.tasks i).parent = some j → (k.tasks j).state ≠ .unused ∧
      ((k.tasks j).pid = (k.tasks i).creator ∨
        ((k.tasks j).pid = 1 ∧ ∀ m, (k.tasks m).alive → (k.tasks m).pid ≠ (k.tasks i).creator))) ∧
    (∀ i, (k.tasks i).state = .blocked → (k.tasks i).waitChan = some (.proc i) →
      (∃ m, (k.tasks m).state ≠ .unused ∧ (k.tasks m).parent = some i) ∧
      ∀ m, (k.tasks m).state = .zombie → (k.tasks m).parent ≠ some i) := by
  have ok := reached_table h
  refine ⟨ok.running, ok.cur, fun i j hi hj => ?_, fun i hb hc => (ok.wait i i ⟨hb, hc⟩).2⟩
  refine (ok.parent i j hi hj).imp_right (Or.imp_right fun hg => ⟨?_, fun m hm heq => ?_⟩)
  · rw [hg.1]
    exact ok.init.2.1
  have hz := hg.2 m hm.ne_unused heq
  have hz : (k.tasks m).state = .zombie := hz
  simp [Task.alive, hz] at hm

/-- A run in which init forks, waits, and its child exits. -/
def waitRun : List Event :=
  [.syscall {} .fork, .syscall {} .wait4, .syscall {} (.exit 7), .syscall {} .wait4]

theorem proc_table_consistent_wait : Reached (runFrom next tiny waitRun) ∧
    ∀ i, ((runFrom next tiny waitRun).tasks i).state = .running → i = (runFrom next tiny waitRun).cur := by
  have h : Reached (runFrom next tiny waitRun) :=
    Reachable.runFrom (.init tiny_booted) _ ⟨trivial, trivial, trivial, trivial, trivial⟩
  exact ⟨h, (proc_table_consistent h).1⟩

/-- When init, all alone, exits, no process is running. -/
theorem exit_of_init_runs_nobody : Reached (next tiny (.syscall {} (.exit 0))) ∧
    ∀ i, ((next tiny (.syscall {} (.exit 0))).tasks i).state ≠ .running := by
  refine ⟨.step _ (.init tiny_booted) trivial, ?_⟩
  decide +kernel

end Embedded.Kernel
