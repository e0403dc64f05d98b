import Embedded.Kernel.Image
import Embedded.Kernel.Mmap

/-! # What the memory calls do

One lemma for each of `sys_brk`, `sys_mmap2` and `sys_munmap`: the state they leave is the old one
with another memory and one field of the caller's memory map changed, together with the user pages
that may be new and, where a later argument needs it, those that are gone. -/

namespace Embedded.Kernel

open List

variable {l base n i j : Nat}

/-- `k` with the memory `m` and the memory map `mp` for the current process. -/
def KState.remap (k : KState) (m : Mm) (mp : MemMap) : KState :=
  { k with mm := m }.setProc k.cur { k.proc with toMemMap := mp }

theorem KState.remap_self (k : KState) : k.remap k.mm k.proc.toMemMap = k := by
  unfold KState.remap KState.setProc KState.proc
  simp only [Function.update_eq_self]

theorem KState.remap_mm (k : KState) (m : Mm) : k.remap m k.proc.toMemMap = { k with mm := m } := by
  unfold KState.remap KState.setProc KState.proc
  simp only [Function.update_eq_self]

section

variable {k : KState} {live : Set Nat}

theorem inPages_pageRange (hb : base + n * 4096 ≤ 4294967296)
    (hmod : base % 4096 = 0) (h : inPages l (pageRange base n) i j) :
    base ≤ pageVa i j ∧ pageVa i j < base + n * 4096 := by
  obtain ⟨va, hva, heq⟩ := h
  obtain ⟨t, ht, rfl⟩ := mem_pageRange hva hb
  simp only [pageRef, Ref.page.injEq, true_and] at heq
  rw [← heq.1, ← heq.2, pageVa_index (by omega)]
  omega

/-- The pages of a range are gone after they were given back. -/
theorem unmapList_not_mem {m : Mm} (inv : Inv m live) (hl : l ∈ live)
    (hb : base + n * 4096 ≤ 4294967296) (hmod : base % 4096 = 0) {f : Nat}
    (h : (unmapList m l (pageRange base n)).holds live (.page l i j) f) :
    ¬ (base ≤ pageVa i j ∧ pageVa i j < base + n * 4096) := by
  have hspec := unmapList_spec hl (pageRange base n) m inv fun va hva => mem_pageRange_lt hva
  obtain ⟨hnot, _, _, _, hj, _⟩ := (hspec.pages _ f rfl).1 h
  rintro ⟨h1, h2⟩
  refine hnot (pageVa i j) ?_ (pageRef_slot hj).symm
  simp only [pageRange, mem_map, mem_range]
  exact ⟨(pageVa i j - base) / 4096, by omega, by unfold add32 pageVa at *; omega⟩

/-! ## `brk` -/

/-- What `sys_brk` does when it moves the break to `addr`. -/
structure BrkMoved (k : KState) (live : Set Nat) (addr : Nat) (m : Mm) : Prop
    extends Adds k.mm m live k.proc.l1Pa
      (fun i j => pageUp k.proc.brk ≤ pageVa i j ∧ pageVa i j < pageUp addr) where
  start : k.proc.brkStart ≤ addr
  ceiling : addr < k.proc.brkCeiling
  gone : ∀ i j f, m.holds live (.page k.proc.l1Pa i j) f →
    ¬ (pageUp addr ≤ pageVa i j ∧ pageVa i j < pageUp k.proc.brk)

theorem sysBrk_cases (inv : Inv k.mm live) (hl : k.proc.l1Pa ∈ live) (addr : Nat) :
    ∃ m, ((sysBrk k addr).2 = k.remap m k.proc.toMemMap ∧ Adds k.mm m live k.proc.l1Pa fun _ _ => False) ∨
      ((sysBrk k addr) = ((addr : Int), k.remap m { k.proc.toMemMap with brk := addr }) ∧
        BrkMoved k live addr m) := by
  simp only [sysBrk]
  split
  · exact ⟨k.mm, .inl ⟨k.remap_self.symm, .refl inv⟩⟩
  rename_i hstart
  split
  · exact ⟨k.mm, .inl ⟨k.remap_self.symm, .refl inv⟩⟩
  rename_i hceil
  have ho := pageUp_lt k.proc.brk
  have hom := pageUp_mod k.proc.brk
  have hn := pageUp_lt addr
  have hnm := pageUp_mod addr
  have hlt : ∀ lo hi, ∀ va ∈ pagesBetween lo hi, va < 4294967296 := fun lo hi va hva => mem_pageRange_lt hva
  split
  · next hfail =>
    exact ⟨_, .inl ⟨(k.remap_mm _).symm, mapPages_fail_adds hl false _ inv (hlt _ _) hfail.2⟩⟩
  refine ⟨_, .inr ⟨rfl, ?_⟩⟩
  by_cases hgrow : pageUp addr > pageUp k.proc.brk
  · rw [if_pos hgrow]
    refine ⟨(mapPages_adds hl false _ inv (hlt _ _)).mono fun i j h => ?_, by omega,
      by omega, fun i j f _ => by omega⟩
    have := inPages_pageRange (by omega) hom h
    omega
  rw [if_neg hgrow]
  refine ⟨unmapList_adds hl _ inv (hlt _ _), by omega, by omega, fun i j f h => ?_⟩
  have := unmapList_not_mem inv hl (by omega) hnm h
  omega

/-! ## `mmap2` and `munmap` -/

/-- The loop of `ramfs_read` gives the bytes of the file one after the other. -/
theorem readLoop_eq {mem : Mem} {pages : Nat → Nat} {off fuel : Nat} :
    ∀ done, n ≤ done + fuel → readLoop mem pages off n fuel done = (List.range (n - done)).map fun i =>
        mem (pages ((off + done + i) / 4096) + (off + done + i) % 4096) := by
  induction fuel with
  | zero => intro done h; rw [readLoop, Nat.sub_eq_zero_of_le (by omega : n ≤ done)]; rfl
  | succ fuel ih => ?_
  intro done h
  rw [readLoop]
  split
  · simp only
    generalize hc : min (4096 - (off + done) % 4096) (n - done) = c
    rw [ih _ (by omega), show n - done = c + (n - (done + c)) by omega, range_add,
      map_append, map_map, Mem.read]
    congr 1
    · refine map_congr_left fun i hi => ?_
      have := mem_range.1 hi
      rw [show (off + done + i) / 4096 = (off + done) / 4096 by omega,
        show (off + done + i) % 4096 = (off + done) % 4096 + i by omega, Nat.add_assoc]
    refine map_congr_left fun i _ => ?_
    simp only [Function.comp, Nat.add_assoc]
  rw [Nat.sub_eq_zero_of_le (by omega)]
  rfl

theorem ramfsRead_length (fs : Fs) (p off n : Nat) :
    ((ramfsRead fs p off n).1 < 0 ∧ (ramfsRead fs p off n).2 = []) ∨
      ((ramfsRead fs p off n).1 = (ramfsRead fs p off n).2.length ∧ (ramfsRead fs p off n).2.length ≤ n) := by
  simp only [ramfsRead]
  split
  · exact .inl ⟨by decide, rfl⟩
  split
  · exact .inr ⟨rfl, Nat.zero_le _⟩
  rw [readLoop_eq _ (by omega), length_map, length_range]
  refine .inr ⟨by simp, ?_⟩
  split <;> omega

/-- `copy_file_into` stores to mapped pages of the address space only. -/
theorem copyFileLoop_evolves (fs : Fs) (hl : l ∈ live) (va len ino foff fuel : Nat) :
    ∀ (done : Nat) (mem : Mem), Inv { fs.mm with mem := mem } live → Evolves { fs.mm with mem := mem }
        { fs.mm with mem := copyFileLoop fs l va len ino foff fuel done mem } live
        (Mm.holds { fs.mm with mem := mem } live) := by
  induction fuel with
  | zero => intro done mem inv; exact .refl inv
  | succ fuel ih => ?_
  intro done mem inv
  simp only [copyFileLoop]
  split
  · split
    · exact .refl inv
    rename_i hne
    split
    · exact .refl inv
    generalize hpg : add32 va done = pVa at hne ⊢
    have hlt : pVa < 4294967296 := by
      rw [← hpg]
      exact Nat.mod_lt _ (by omega)
    have hdown := pageDown_le pVa
    have hlt' : pageDown pVa < 4294967296 := by omega
    have hal := inv.vmWalk_aligned hl hlt' (pageDown_mod pVa)
    have hread := ramfsRead_length { fs with mm := { fs.mm with mem := mem } } ino
      (add32 foff done) (min (4096 - pVa % 4096) (len - done))
    generalize (ramfsRead { fs with mm := { fs.mm with mem := mem } } ino
      (add32 foff done) (min (4096 - pVa % 4096) (len - done))) = r at hread ⊢
    have hlen : r.2.length ≤ 4096 - pVa % 4096 := by
      rcases hread with ⟨_, h⟩ | ⟨_, h⟩
      · simp [h]
      omega
    -- the bytes of a round stay inside one page
    have hmem : ∀ x, x / 4096 ≠ vmWalk { fs.mm with mem := mem } l (pageDown pVa) / 4096 →
        mem.write (vmWalk { fs.mm with mem := mem } l (pageDown pVa) + pVa % 4096) r.2 x = mem x := by
      intro x hx
      refine Mem.write_of_not_mem ?_
      rintro ⟨h1, h2⟩
      omega
    have ev := inv.store hl (by omega) hne hmem
    split
    · exact ev
    exact ev.trans (ih _ _ ev.inv)
  exact .refl inv

/-- What `sys_mmap2` does when it maps `span` bytes at `base`. -/
def mmapPages (base span i j : Nat) : Prop := base ≤ pageVa i j ∧ pageVa i j < base + span

/-- The end of `sys_mmap2`: an error without new pages, or the range is mapped and a placed mapping
    has moved `mmap_top`. -/
theorem mmapAt_cases (inv : Inv k.mm live) (hl : k.proc.l1Pa ∈ live) (len flags : Nat)
    (fd : Int) (foff : Nat) (hmod : base % 4096 = 0) (hlen : 0 < pageUp len)
    (hb : base + pageUp len ≤ 4294967296 ∨ (userVaMax ≤ base ∧ base < 4294967296)) :
    ∃ m, ((mmapAt k base len flags fd foff).2 = k.remap m k.proc.toMemMap ∧
        (mmapAt k base len flags fd foff).1 < 0 ∧ Adds k.mm m live k.proc.l1Pa fun _ _ => False) ∨
      (mmapAt k base len flags fd foff = ((base : Int), k.remap m (if flags &&& mapFixed ≠ 0
          then k.proc.toMemMap else { k.proc.toMemMap with mmapTop := base })) ∧
        base < userVaMax ∧ Adds k.mm m live k.proc.l1Pa (mmapPages base (pageUp len))) := by
  have hnp : pageUp len / 4096 * 4096 = pageUp len := by
    have := pageUp_mod len
    omega
  have hlt : ∀ va ∈ pageRange base (pageUp len / 4096), va < 4294967296 := fun va hva => mem_pageRange_lt hva
  simp only [mmapAt]
  by_cases hfail : (mapZeroedRange k.mm k.proc.l1Pa base (pageUp len / 4096)).1 = false
  · rw [if_pos hfail]
    exact ⟨_, .inl ⟨(k.remap_mm _).symm, by simp, mapPages_fail_adds hl true _ inv hlt hfail⟩⟩
  rw [if_neg hfail]
  have hlow : base < userVaMax ∧ base + pageUp len ≤ 4294967296 := by
    have hbase : base ∈ pageRange base (pageUp len / 4096) := by
      simp only [pageRange, mem_map, mem_range]
      exact ⟨0, by omega, by unfold add32; omega⟩
    have hlt' := ((mapPages_spec hl true (pageRange base (pageUp len / 4096)) k.mm [] inv (by simp)
      hlt).2.2.2 (Bool.eq_true_of_not_eq_false hfail) base hbase).2
    omega
  have hmap : Adds k.mm (mapZeroedRange k.mm k.proc.l1Pa base (pageUp len / 4096)).2 live
      k.proc.l1Pa (mmapPages base (pageUp len)) := by
    refine (mapPages_adds hl true _ inv hlt).mono fun i j h => ?_
    have := inPages_pageRange (by omega) hmod h
    unfold mmapPages
    omega
  generalize mapZeroedRange k.mm k.proc.l1Pa base (pageUp len / 4096) = r at hmap ⊢
  obtain ⟨ok, m1⟩ := r
  -- filling the range from the file changes no mapping
  have hcopy : ∃ c m2, (if flags &&& mapAnonymous = 0
        then copyFileInto { k with mm := m1 } base len fd foff else (0, { k with mm := m1 }))
        = (c, { k with mm := m2 }) ∧ c ≤ 0 ∧ Evolves m1 m2 live (m1.holds live) := by
    split
    · unfold copyFileInto
      split
      · exact ⟨_, m1, rfl, by decide, .refl hmap.inv⟩
      split
      · exact ⟨_, m1, rfl, by decide, .refl hmap.inv⟩
      exact ⟨_, _, rfl, le_rfl, copyFileLoop_evolves { k.toFs with mm := m1 } hl _ _ _ _ _ _ _ hmap.inv⟩
    exact ⟨0, m1, rfl, le_rfl, .refl hmap.inv⟩
  obtain ⟨c, m2, heq, hc, ev⟩ := hcopy
  rw [heq]
  simp only
  by_cases hne : c ≠ 0
  · rw [if_pos hne]
    refine ⟨_, .inl ⟨(k.remap_mm _).symm, by omega, ?_⟩⟩
    have hun := unmapList_adds (S := mmapPages base (pageUp len)) hl
      (pageRange base (pageUp len / 4096)) ev.inv hlt
    have hall := hmap.trans ((ev.adds k.proc.l1Pa).trans hun)
    refine ⟨hall.toKeeps, hall.other, fun i j f h => (hall.sub i j f h).imp_right fun hin => ?_⟩
    have hnot := unmapList_not_mem ev.inv hl (by omega) hmod h
    unfold mmapPages at hin
    omega
  rw [if_neg hne]
  refine ⟨m2, .inr ⟨?_, hlow.1, hmap.trans (ev.adds _)⟩⟩
  split
  · rw [k.remap_mm]
  · rfl

/-- Where `sys_mmap2` puts a mapping: at the page-aligned address asked for; or right below
    `mmap_top`, above the break, where a difference that wraps is no user address. -/
theorem mmapBase_cases {p : Proc} {addr span flags : Nat}
    (h : mmapBase p addr span flags = .ok base) (hspan : span ≤ userVaMax)
    (htop : p.mmapTop < 4294967296) :
    (flags &&& mapFixed ≠ 0 ∧ base = addr ∧ addr % 4096 = 0 ∧ addr + span ≤ userVaMax) ∨
    (flags &&& mapFixed = 0 ∧ base < 4294967296 ∧ pageUp p.brk ≤ base ∧
      ((span ≤ p.mmapTop ∧ base = p.mmapTop - span) ∨
        (userVaMax ≤ base ∧ base = 4294967296 + p.mmapTop - span))) := by
  unfold mmapBase at h
  split at h
  · next hfix =>
    split at h
    · cases h
    rename_i hal
    split at h
    · cases h
    rename_i hr
    cases h
    refine .inl ⟨hfix, rfl, by omega, ?_⟩
    unfold add32 userVaMax at *
    omega
  rename_i hfix
  have hfix' : flags &&& mapFixed = 0 := by simpa using hfix
  split at h
  · cases h
  split at h
  · cases h
  rename_i hbrk
  cases h
  refine .inr ⟨hfix', ?_⟩
  unfold sub32 userVaMax at *
  omega

/-- The outcomes of `sys_mmap2`: an error without new pages, a mapping at the address asked for, or
    one right below `mmap_top`, which moves down to it. -/
inductive Mmapped (k : KState) (live : Set Nat) (addr len flags : Nat) (r : Int × KState) : Prop
  | fail (m : Mm) (hr : r.2 = k.remap m k.proc.toMemMap) (hneg : r.1 < 0)
      (hadd : Adds k.mm m live k.proc.l1Pa fun _ _ => False)
  | fixed (m : Mm) (hfix : flags &&& mapFixed ≠ 0) (hr : r = ((addr : Int), k.remap m k.proc.toMemMap))
      (hmod : addr % 4096 = 0) (hadd : Adds k.mm m live k.proc.l1Pa (mmapPages addr (pageUp len)))
  | placed (m : Mm) (base : Nat) (hfix : flags &&& mapFixed = 0)
      (hr : r = ((base : Int), k.remap m { k.proc.toMemMap with mmapTop := base }))
      (htop : base + pageUp len = k.proc.mmapTop) (hbrk : pageUp k.proc.brk ≤ base)
      (hmod : base % 4096 = 0) (hadd : Adds k.mm m live k.proc.l1Pa (mmapPages base (pageUp len)))

theorem sysMmap2_cases (inv : Inv k.mm live) (hl : k.proc.l1Pa ∈ live)
    (htop : k.proc.mmapTop < 4294967296) (hmod : k.proc.mmapTop % 4096 = 0) (addr len flags : Nat)
    (fd : Int) (pgoff : Nat) :
    Mmapped k live addr len flags (sysMmap2 k addr len flags fd pgoff) := by
  have hnone : ∀ e : Int, e < 0 → Mmapped k live addr len flags (e, k) :=
    fun e he => .fail k.mm k.remap_self.symm he (.refl inv)
  unfold sysMmap2
  split
  · exact hnone _ (by decide)
  rename_i hlen
  split
  · exact hnone _ (by decide)
  split
  · exact hnone _ (by decide)
  split
  · exact hnone _ (by decide)
  have hspan : pageUp len ≤ userVaMax ∧ 0 < pageUp len := by
    unfold pageUp pageDown add32 userVaMax userVaMin at *
    omega
  have hum := pageUp_mod len
  cases hbase : mmapBase k.proc addr (pageUp len) flags with
  | error e =>
    simp only
    refine hnone e ?_
    unfold mmapBase at hbase
    repeat' split at hbase
    all_goals first | (cases hbase; decide) | cases hbase
  | ok base => ?_
  simp only
  rcases mmapBase_cases hbase hspan.1 htop with
    ⟨hfix, rfl, hal, hend⟩ | ⟨hfix, hb, hbrk, hcase⟩
  · obtain ⟨m, ⟨hr, hneg, hadd⟩ | ⟨hr, _, hadd⟩⟩ := mmapAt_cases inv hl len flags fd
      (pgoff * 4096) hal hspan.2 (.inl (by unfold userVaMax at hend; omega))
    · exact .fail m hr hneg hadd
    rw [if_pos hfix] at hr
    exact .fixed m hfix hr hal hadd
  have hbm : base % 4096 = 0 := by omega
  obtain ⟨m, ⟨hr, hneg, hadd⟩ | ⟨hr, hlow, hadd⟩⟩ := mmapAt_cases inv hl len flags fd
    (pgoff * 4096) hbm hspan.2 (by omega)
  · exact .fail m hr hneg hadd
  rw [if_neg (by simpa using hfix)] at hr
  exact .placed m base hfix hr (by omega) hbrk hbm hadd

/-- What `sys_munmap` of a page-aligned address does. -/
structure Munmapped (k : KState) (live : Set Nat) (addr len : Nat) (m : Mm) : Prop
    extends Adds k.mm m live k.proc.l1Pa (fun _ _ => False) where
  gone : ∀ i j f, m.holds live (.page k.proc.l1Pa i j) f →
    ¬ (addr ≤ pageVa i j ∧ pageVa i j < pageUp (add32 addr len))

theorem sysMunmap_cases (inv : Inv k.mm live) (hl : k.proc.l1Pa ∈ live) (addr len : Nat)
    (haddr : addr < 4294967296) :
    (sysMunmap k addr len).2 = k ∨
    ∃ m, (sysMunmap k addr len).2 = k.remap m (if addr = k.proc.mmapTop
        then { k.proc.toMemMap with mmapTop := pageUp (add32 addr len) } else k.proc.toMemMap) ∧
      Munmapped k live addr len m := by
  unfold sysMunmap
  split
  · exact .inl rfl
  rename_i hmod
  have hs := pageUp_lt (add32 addr len)
  have hsm := pageUp_mod (add32 addr len)
  refine .inr ⟨unmapList k.mm k.proc.l1Pa (pagesBetween addr (pageUp (add32 addr len))), ?_,
    unmapList_adds hl _ inv fun va hva => mem_pageRange_lt hva, fun i j f h => ?_⟩
  · simp only
    split
    · rfl
    exact (k.remap_mm _).symm
  have := unmapList_not_mem inv hl (by omega) (by omega) h
  omega

end

end Embedded.Kernel
