import Embedded.Kernel.Isolation

/-! # The layout of a process

The heap grows up from the program image to `brk_ceiling`, the mappings the kernel places grow down
from `mmap_top`, and nothing but these two numbers keeps them apart from each other, from the
dynamic loader and from what a `MAP_FIXED` mapping put between them. Two invariants say what can be
mapped between the break and `mmap_top`, and under which rules for the callers a growing heap and a
placed mapping take only pages that were free. -/

namespace Embedded.Kernel

/-- What every fresh program has and every way of `MapStep` keeps, every live process has. -/
theorem reached_local {ok : KState → Event → Prop} {Q : MemMap → (Nat → Nat → Prop) → Prop}
    (hfits : ∀ k e, ok k e → Event.fits k e)
    (hfresh : ∀ lr l P, lr.Ok → (∀ s t, P s t → freshPages lr s t) → Q (lr.memMap l) P)
    (hstep : ∀ k e i mp P, ok k e → (∀ j, (k.tasks j).alive → Q (k.maps j) (k.pages j)) →
      MapStep k e i mp P → Q mp P)
    {k : KState} (h : ReachedIf ok k) : ∀ i, (k.tasks i).alive → Q (k.maps i) (k.pages i) := by
  refine h.invariant_of (I := fun k => ∀ i, (k.tasks i).alive → Q (k.maps i) (k.pages i))
    (J := KInv) (fun s hs => reached_kinv (hs.mono hfits)) (fun k hk i hi => ?_)
    fun k e hok inv ih i hi => ?_
  · have fresh := booted_fresh hk
    obtain ⟨lr, l, hlr, hmap, hpages⟩ := fresh.map
    rw [fresh.alone i hi, hmap]
    exact hfresh lr l _ hlr hpages
  cases hh : k.halted with
  | true =>
    rw [next_halted hh] at hi ⊢
    exact ih i hi
  | false => exact hstep k e i _ _ hok ih ((next_moved inv hh (hfits k e hok)).step i hi)

/-- A page that is not mapped has no translation. -/
theorem KInv.vmWalk_eq_zero {k : KState} (inv : KInv k) (hrun : k.halted = false) {va : Nat}
    (hva : va < 4294967296) (h : ¬ k.pages k.cur (l1Index va) (l2Index va)) :
    vmWalk k.mm k.proc.l1Pa va = 0 :=
  Kernel.vmWalk_eq_zero inv.fs.mm (inv.cur_mem hrun) hva fun f hf => h ⟨f, hf⟩

/-! ## The heap -/

/-- The rule for callers under which the heap stays free: it does not grow past `mmap_top`, and no
    `MAP_FIXED` mapping lands between the break and the lower of `mmap_top` and `brk_ceiling`. -/
def heapRule (k : KState) : Event → Prop
  | .syscall _ (.brk addr) =>
    pageUp k.proc.brk < pageUp addr.toNat → pageUp addr.toNat ≤ k.proc.mmapTop
  | .syscall _ (.mmap2 addr len flags _ _) =>
    flags.toNat &&& mapFixed ≠ 0 → addr.toNat + pageUp len.toNat ≤ pageUp k.proc.brk ∨
      min k.proc.mmapTop k.proc.brkCeiling ≤ addr.toNat
  | _ => True

/-- Nothing is mapped between the break and the lower of `mmap_top` and `brk_ceiling`. -/
structure HeapFree (mp : MemMap) (P : Nat → Nat → Prop) : Prop where
  ceiling : mp.brkCeiling % 4096 = 0
  free : ∀ s t, P s t → pageUp mp.brk ≤ pageVa s t → min mp.mmapTop mp.brkCeiling ≤ pageVa s t

theorem heapFree_fresh (lr : LoadResult) (l : Nat) (P : Nat → Nat → Prop) (hlr : lr.Ok)
    (hP : ∀ s t, P s t → freshPages lr s t) : HeapFree (lr.memMap l) P := by
  refine ⟨?_, fun s t h hge => ?_⟩
  · simp only [LoadResult.memMap]
    split <;> rfl
  have hbrk := pageUp_of_mod hlr.page hlr.bound
  simp only [LoadResult.memMap] at hge ⊢
  rcases hP s t h with (himg | ⟨hlo, hhi⟩) | hstack
  · omega
  · cases hd : lr.dynamic with
    | false =>
      rw [hlr.static hd] at hhi
      omega
    | true =>
      simp only [if_true]
      omega
  have htop : Kernel.mmapTop ≤ stackBase := by decide
  omega

theorem heapFree_step (k : KState) (e : Event) (i : Slot) (mp : MemMap) (P : Nat → Nat → Prop)
    (hok : Event.fits k e ∧ heapRule k e)
    (ih : ∀ j, (k.tasks j).alive → HeapFree (k.maps j) (k.pages j)) (h : MapStep k e i mp P) :
    HeapFree mp P := by
  cases h with
  | same ha hm hP => exact hm ▸ ⟨(ih i ha).ceiling, fun s t h => (ih i ha).free s t (hP s t h)⟩
  | fork ha hm hP =>
    rw [hm]
    exact ⟨(ih _ ha).ceiling, fun s t h => (ih _ ha).free s t (hP s t h)⟩
  | exec lr hlr hm hP => exact hm ▸ heapFree_fresh lr _ P hlr hP
  | brk ha tf addr he hi hm hceil hP hgone =>
    rw [hm]
    refine ⟨(ih i ha).ceiling, fun s t h hge => ?_⟩
    simp only at hge ⊢
    rcases hP s t h with hold | hnew
    · -- a page given back by a falling break is gone
      have := hgone s t h
      exact (ih i ha).free s t hold (by omega)
    omega
  | fixed ha tf addr len flags fd pgoff he hi hfix hm hP =>
    subst he hi
    rw [hm]
    refine ⟨(ih _ ha).ceiling, fun s t h hge => ?_⟩
    rcases hP s t h with hold | hnew
    · exact (ih _ ha).free s t hold hge
    have hrule : addr.toNat + pageUp len.toNat ≤ pageUp (k.maps k.cur).brk ∨
        min (k.maps k.cur).mmapTop (k.maps k.cur).brkCeiling ≤ addr.toNat := hok.2 hfix
    unfold mmapPages at hnew
    omega
  | placed ha base hm htop hP =>
    rw [hm]
    refine ⟨(ih i ha).ceiling, fun s t h hge => ?_⟩
    simp only at hge ⊢
    rcases hP s t h with hold | hnew
    · have := (ih i ha).free s t hold hge
      omega
    omega
  | munmap ha stop hm hP hgone => ?_
  rw [hm]
  refine ⟨(ih i ha).ceiling, fun s t h hge => ?_⟩
  simp only at hge ⊢
  have := (ih i ha).free s t (hP s t h) hge
  have := hgone s t h
  omega

/-- A `brk` that returns the address it was asked for found it below the ceiling. -/
theorem sysBrk_ret {k : KState} {addr : Nat} (h : (sysBrk k addr).1 = addr) :
    addr = k.proc.brk ∨ addr < k.proc.brkCeiling := by
  simp only [sysBrk] at h
  split at h
  · exact .inl (by omega)
  split at h
  · exact .inl (by omega)
  · next hceil => exact .inr (by omega)

/-- **The heap grows into free pages** in every run that keeps to `heapRule`: no page that a
    successful `brk` maps was mapped before. -/
theorem brk_grows_free {k : KState} (h : ReachedIf (fun k e => Event.fits k e ∧ heapRule k e) k)
    (hrun : k.halted = false) (tf : Trapframe) (addr : UInt32)
    (hrule : heapRule k (.syscall tf (.brk addr)))
    (hret : (step k (.syscall tf (.brk addr))).1.ret = addr.toNat) (va : Nat) (hva : va % 4096 = 0)
    (hlo : pageUp k.proc.brk ≤ va) (hhi : va < pageUp addr.toNat) :
    vmWalk k.mm k.proc.l1Pa va = 0 := by
  have inv := reached_kinv (h.mono fun _ _ h => h.1)
  have hfree := reached_local (fun _ _ h => h.1) heapFree_fresh heapFree_step h k.cur (inv.cur hrun)
  have hret' : (sysBrk (saveTf k tf) addr.toNat).1 = addr.toNat := by
    unfold step at hret
    rw [hrun] at hret
    exact hret
  refine inv.vmWalk_eq_zero hrun (hhi.trans (pageUp_lt _)) fun hP => ?_
  have hmin := hfree.free _ _ hP
  rw [pageVa_index hva] at hmin
  have hmin : min k.proc.mmapTop k.proc.brkCeiling ≤ va := hmin hlo
  have htop := hrule (by omega)
  have hsaved : (saveTf k tf).proc.toMemMap = k.proc.toMemMap := congrFun (saveTf_maps k tf) k.cur
  have hcases := sysBrk_ret hret'
  rw [hsaved] at hcases
  rcases hcases with hsame | hlt
  · have : pageUp addr.toNat = pageUp k.proc.brk := congrArg pageUp hsame
    omega
  have hceil : pageUp addr.toNat ≤ k.proc.brkCeiling := pageUp_le_of_le (Nat.le_of_lt hlt) hfree.ceiling
  omega

/-- A mapping of one page, placed by the kernel. -/
def placeOne : Event := .syscall {} (.mmap2 0 0x1000 0x22 (-1) 0)

theorem brk_grows_free_tiny : (step (next tiny placeOne) (.syscall {} (.brk 0x12000))).1.ret = 0x12000 ∧
    vmWalk (next tiny placeOne).mm (next tiny placeOne).proc.l1Pa 0x11000 = 0 := by
  obtain ⟨hret, hrun, hbrk, htop⟩ : (step (next tiny placeOne) (.syscall {} (.brk 0x12000))).1.ret = 0x12000 ∧
      (next tiny placeOne).halted = false ∧ pageUp (next tiny placeOne).proc.brk = 0x11000 ∧
      (next tiny placeOne).proc.mmapTop = 0x37FFF000 := by decide +kernel
  have hup : pageUp (0x12000 : UInt32).toNat = 0x12000 := by decide
  have hreach : ReachedIf (fun k e => Event.fits k e ∧ heapRule k e) (next tiny placeOne) :=
    .step _ (.init tiny_booted) ⟨trivial, fun h => absurd (by decide) h⟩
  refine ⟨hret, brk_grows_free hreach hrun {} 0x12000 (fun _ => ?_) hret 0x11000 rfl ?_ ?_⟩
  · omega
  · omega
  · omega

/-- `mmap2(0x11000, 0x1000, .., MAP_PRIVATE | MAP_ANONYMOUS | MAP_FIXED, ..)`: a page right above
    the break of the first program. -/
def mapAboveBreak : Event := .syscall {} (.mmap2 0x11000 0x1000 0x32 (-1) 0)

/-- Growing the heap by one page then replaces the mapping. -/
theorem brk_replaces_mapping : Reached (next tiny mapAboveBreak) ∧
    (step (next tiny mapAboveBreak) (.syscall {} (.brk 0x12000))).1.ret = 0x12000 ∧
    pageUp (next tiny mapAboveBreak).proc.brk = 0x11000 ∧
    vmWalk (next tiny mapAboveBreak).mm (next tiny mapAboveBreak).proc.l1Pa 0x11000 ≠ 0 ∧
    vmWalk (next (next tiny mapAboveBreak) (.syscall {} (.brk 0x12000))).mm
      (next tiny mapAboveBreak).proc.l1Pa 0x11000
        ≠ vmWalk (next tiny mapAboveBreak).mm (next tiny mapAboveBreak).proc.l1Pa 0x11000 := by
  refine ⟨.step _ (.init tiny_booted) trivial, ?_⟩
  decide +kernel

/-! ## Placed mappings -/

/-- The rule for callers under which placed mappings are fresh: no `MAP_FIXED` mapping lands between
    the break and `mmap_top`, and what the kernel places stays clear of the dynamic loader. -/
def placeRule (k : KState) : Event → Prop
  | .syscall _ (.mmap2 addr len flags _ _) =>
    if flags.toNat &&& mapFixed ≠ 0 then
      addr.toNat + pageUp len.toNat ≤ pageUp k.proc.brk ∨ k.proc.mmapTop ≤ addr.toNat
    else
      k.proc.mmapTop ≤ Kernel.interpBase ∨ k.proc.interpEnd ≤ k.proc.mmapTop - pageUp len.toNat
  | _ => True

/-- Only the dynamic loader is mapped between the break and `mmap_top`. -/
def LoaderOnly (mp : MemMap) (P : Nat → Nat → Prop) : Prop :=
  ∀ s t, P s t → pageUp mp.brk ≤ pageVa s t → pageVa s t < mp.mmapTop →
    Kernel.interpBase ≤ pageVa s t ∧ pageVa s t < mp.interpEnd

theorem loaderOnly_fresh (lr : LoadResult) (l : Nat) (P : Nat → Nat → Prop) (hlr : lr.Ok)
    (hP : ∀ s t, P s t → freshPages lr s t) : LoaderOnly (lr.memMap l) P := by
  intro s t h hge hlt
  have hbrk := pageUp_of_mod hlr.page hlr.bound
  simp only [LoadResult.memMap] at hge hlt ⊢
  rcases hP s t h with (himg | hloader) | hstack
  · omega
  · exact hloader
  have htop : Kernel.mmapTop ≤ stackBase := by decide
  omega

theorem loaderOnly_step (k : KState) (e : Event) (i : Slot) (mp : MemMap) (P : Nat → Nat → Prop)
    (hok : Event.fits k e ∧ placeRule k e)
    (ih : ∀ j, (k.tasks j).alive → LoaderOnly (k.maps j) (k.pages j)) (h : MapStep k e i mp P) :
    LoaderOnly mp P := by
  cases h with
  | same ha hm hP => exact hm ▸ fun s t h => ih i ha s t (hP s t h)
  | fork ha hm hP =>
    rw [hm]
    exact fun s t h => ih _ ha s t (hP s t h)
  | exec lr hlr hm hP => exact hm ▸ loaderOnly_fresh lr _ P hlr hP
  | brk ha tf addr he hi hm hceil hP hgone =>
    rw [hm]
    intro s t h hge hlt
    simp only at hge hlt ⊢
    rcases hP s t h with hold | hnew
    · have := hgone s t h
      exact ih i ha s t hold (by omega) hlt
    omega
  | fixed ha tf addr len flags fd pgoff he hi hfix hm hP =>
    subst he hi
    rw [hm]
    intro s t h hge hlt
    rcases hP s t h with hold | hnew
    · exact ih _ ha s t hold hge hlt
    have hrule := hok.2
    rw [placeRule, if_pos hfix] at hrule
    have hrule : addr.toNat + pageUp len.toNat ≤ pageUp (k.maps k.cur).brk ∨
        (k.maps k.cur).mmapTop ≤ addr.toNat := hrule
    unfold mmapPages at hnew
    omega
  | placed ha base hm htop hP =>
    rw [hm]
    intro s t h hge hlt
    simp only at hge hlt ⊢
    rcases hP s t h with hold | hnew
    · exact ih i ha s t hold hge (by omega)
    omega
  | munmap ha stop hm hP hgone => ?_
  rw [hm]
  intro s t h hge hlt
  simp only at hge hlt ⊢
  -- above the old `mmap_top` everything was given back
  have := hgone s t h
  exact ih i ha s t (hP s t h) hge (by omega)

/-- **A placed mapping is fresh** in every run that keeps to `placeRule`: no page of the range that a
    successful `mmap2` without `MAP_FIXED` returns was mapped before. -/
theorem mmap2_places_fresh {k : KState}
    (h : ReachedIf (fun k e => Event.fits k e ∧ placeRule k e) k) (hrun : k.halted = false)
    (tf : Trapframe) (addr len flags : UInt32) (fd : Int) (pgoff : UInt32)
    (hfix : flags.toNat &&& mapFixed = 0)
    (hrule : placeRule k (.syscall tf (.mmap2 addr len flags fd pgoff))) (base : Nat)
    (hret : (step k (.syscall tf (.mmap2 addr len flags fd pgoff))).1.ret = base) (va : Nat)
    (hva : va % 4096 = 0) (hlo : base ≤ va) (hhi : va < base + pageUp len.toNat) :
    vmWalk k.mm k.proc.l1Pa va = 0 := by
  have inv := reached_kinv (h.mono fun _ _ h => h.1)
  have hfree := reached_local (fun _ _ h => h.1) loaderOnly_fresh loaderOnly_step h k.cur (inv.cur hrun)
  have htop : k.proc.mmapTop % 4096 = 0 ∧ k.proc.mmapTop < 4294967296 := inv.top k.cur (inv.cur hrun)
  have hret' : (sysMmap2 (saveTf k tf) addr.toNat len.toNat flags.toNat fd pgoff.toNat).1 = base := by
    unfold step at hret
    rw [hrun] at hret
    exact hret
  have inv' := inv.saveTf tf
  have hsaved : (saveTf k tf).proc.toMemMap = k.proc.toMemMap := congrFun (saveTf_maps k tf) k.cur
  have hcases := sysMmap2_cases inv'.fs.mm (inv'.cur_mem hrun) (by rw [hsaved]; exact htop.2)
    (by rw [hsaved]; exact htop.1) addr.toNat len.toNat flags.toNat fd pgoff.toNat
  cases hcases with
  | fail m hr hneg _ => omega
  | fixed m hfix' => exact absurd hfix hfix'
  | placed m base' _ hr htop' hbrk hmod => ?_
  rw [hsaved] at htop' hbrk
  have hbase : base' = base := by
    rw [hr] at hret'
    exact Int.ofNat_inj.1 hret'
  refine inv.vmWalk_eq_zero hrun (by omega) fun hP => ?_
  have hl := hfree _ _ hP
  rw [pageVa_index hva] at hl
  have hl : pageUp k.proc.brk ≤ va → va < k.proc.mmapTop →
    Kernel.interpBase ≤ va ∧ va < k.proc.interpEnd := hl
  rw [placeRule, if_neg (by simpa using hfix)] at hrule
  omega

theorem mmap2_places_fresh_tiny :
    (step (next tiny placeOne) (.syscall {} (.mmap2 0 0x1000 0x22 (-1) 0))).1.ret = (0x37FFE000 : Nat) ∧
    vmWalk (next tiny placeOne).mm (next tiny placeOne).proc.l1Pa 0x37FFE000 = 0 := by
  obtain ⟨hret, hrun, hend, hend'⟩ :
      (step (next tiny placeOne) (.syscall {} (.mmap2 0 0x1000 0x22 (-1) 0))).1.ret = (0x37FFE000 : Nat) ∧
      (next tiny placeOne).halted = false ∧ tiny.proc.interpEnd = 0 ∧
      (next tiny placeOne).proc.interpEnd = 0 := by decide +kernel
  have hrule : ∀ k : KState, k.proc.interpEnd = 0 → placeRule k placeOne := by
    intro k hk
    simp only [placeRule, placeOne]
    rw [if_neg (by decide), hk]
    exact .inr (Nat.zero_le _)
  have hreach : ReachedIf (fun k e => Event.fits k e ∧ placeRule k e) (next tiny placeOne) :=
    .step _ (.init tiny_booted) ⟨trivial, hrule _ hend⟩
  exact ⟨hret, mmap2_places_fresh hreach hrun {} 0 0x1000 0x22 (-1) 0 (by decide)
    (hrule _ hend') 0x37FFE000 hret 0x37FFE000 (by omega) (by omega) (by decide)⟩

/-- The same call right below `mmap_top`. -/
def mapBelowTop : Event := .syscall {} (.mmap2 0x37FFF000 0x1000 0x32 (-1) 0)

/-- The next page the kernel places is that one. -/
theorem mmap2_places_on_mapping : Reached (next tiny mapBelowTop) ∧
    (step (next tiny mapBelowTop) (.syscall {} (.mmap2 0 0x1000 0x22 (-1) 0))).1.ret = 0x37FFF000 ∧
    vmWalk (next tiny mapBelowTop).mm (next tiny mapBelowTop).proc.l1Pa 0x37FFF000 ≠ 0 := by
  refine ⟨.step _ (.init tiny_booted) trivial, ?_⟩
  decide +kernel

end Embedded.Kernel
