import Embedded.Kernel.Isolation

/-! # Growing a file out of memory

`ensure_pages` records the frames it takes beyond `npages` and moves `npages` only at its end. When
it fails half way the data is as before, but neither a retry nor `ramfs_truncate` looks at the frames
already taken. -/

namespace Embedded.Kernel

open Function (update update_self update_of_ne)

variable {fs fs' : Fs} {live : Set Nat} {p need : Nat} {r : Int × Fs}

/-- The calls that grow the file `p`, with the number of pages they ask for. -/
inductive Grows (fs : Fs) (p : Nat) : Nat → Int × Fs → Prop
  | write (off : Nat) (src : Bytes) :
    Grows fs p (add32 (off + src.length) 4095 / 4096) (ramfsWrite fs p off src)
  | truncate (n : Nat) : Grows fs p (add32 n 4095 / 4096) (ramfsTruncate fs p n)

theorem Grows.oom (h : Grows fs p need r) (hr : r.1 = -12) : (fs.inodes p).type = .reg ∧
    r.2 = (ensurePages fs p need).2 ∧ (ensurePages fs p need).1 ≠ 0 := by
  cases h with
  | write off src =>
    simp only [ramfsWrite] at hr ⊢
    split_ifs at hr ⊢ with ht _ h0
    · cases hr
    · cases hr
    exact ⟨by simpa using ht, rfl, h0⟩
  | truncate n => ?_
  simp only [ramfsTruncate] at hr ⊢
  split_ifs at hr ⊢ with ht _ h0
  · cases hr
  · exact ⟨by simpa using ht, rfl, h0⟩

/-! ## What a failure leaves -/

/-- The array of slots is what it was where it was used, and so is the memory. -/
theorem growSlots_same (inv : FsInv fs live) (ht : (fs.inodes p).type = .reg) (need : Nat) :
    ∃ pages cap, (growSlots fs p need).2.inodes p = { fs.inodes p with pages := pages, cap := cap } ∧
      (∀ i < (fs.inodes p).npages, pages i = (fs.inodes p).pages i) ∧
      ∀ x, fs.mm.used (x / 4096) → (growSlots fs p need).2.mm.used (x / 4096) ∧
        (growSlots fs p need).2.mm.mem x = fs.mm.mem x := by
  have hmem : ∀ x, fs.mm.used (x / 4096) → (kmalloc fs).2.mm.used (x / 4096) ∧
      (kmalloc fs).2.mm.mem x = fs.mm.mem x := by
    intro x hx
    unfold kmalloc
    split
    · exact ⟨hx, rfl⟩
    rename_i a rest _
    split
    · exact ⟨hx, rfl⟩
    rcases pmmAllocAligned_cases fs.mm a.npages 4096 inv.mm.pmm with ⟨_, hm⟩ | ⟨ha, _⟩
    · simp [hm, hx]
    refine ⟨(ha.used _).2 (.inl hx), ?_⟩
    simp only [ha.mem]
    refine Mem.zero_of_not_mem fun h => ha.fresh _ ?_ ?_ hx
    · omega
    have := ha.aligned
    omega
  have hroom := inv.room p ht
  simp only [growSlots]
  split
  · split
    · exact ⟨(fs.inodes p).pages, (fs.inodes p).cap, by rw [kmalloc_inodes], fun _ _ => rfl, hmem⟩
    exact ⟨_, _, update_self .., fun i hi => if_neg (by omega), hmem⟩
  exact ⟨(fs.inodes p).pages, (fs.inodes p).cap, rfl, fun _ _ => rfl, fun _ h => ⟨h, rfl⟩⟩

/-- A loop that fails took nothing, or keeps a frame that was free. -/
theorem fillPages_fails {m : Mm} (inv : Inv m live) {n i : Nat} {pages : Nat → Nat}
    (h : (fillPages n i m pages).1 = false) :
    (pmmAllocPage m).1 = 0 ∧ (fillPages n i m pages).2.1 = m ∨
    (pmmAllocPage m).1 ≠ 0 ∧ ¬ m.used ((pmmAllocPage m).1 / 4096) ∧
      (fillPages n i m pages).2.1.used ((pmmAllocPage m).1 / 4096) := by
  cases n with
  | zero => simp [fillPages] at h
  | succ n => ?_
  simp only [fillPages]
  rcases pmmAllocPage_cases m inv.pmm with ⟨h0, hm⟩ | a
  · rw [if_pos h0]
    exact .inl ⟨h0, hm⟩
  have hpos := a.pos
  rw [if_neg (by omega)]
  have fl := fillPages_filled n (i + 1) _ (update pages i (pmmAllocPage m).1) (a.inv inv)
  exact .inr ⟨by omega, a.fresh _ (by omega) (by omega),
    (fl.evolves.loose _ (a.loose inv (by omega) (by omega))).1⟩

/-- The frames in use after the slots `i, i + 1, …` were given back. -/
theorem freePages_used (n : Nat) : ∀ (i : Nat) (m : Mm) (pages : Nat → Nat), PmmOk m.pmm →
    ∀ f, (freePages n i m pages).1.used f ↔
      m.used f ∧ ∀ j, i ≤ j → j < i + n → pages j ≠ 0 → f ≠ pages j / 4096 := by
  induction n with
  | zero => exact fun i m pages _ f => ⟨fun h => ⟨h, fun j _ _ => by omega⟩, fun h => h.1⟩
  | succ n ih => ?_
  intro i m pages ok f
  have hstep : ∀ P : Nat → Prop, (∀ j, i ≤ j → j < i + (n + 1) → P j) ↔
      P i ∧ ∀ j, i + 1 ≤ j → j < i + 1 + n → P j := fun P =>
    ⟨fun h => ⟨h i (by omega) (by omega), fun j h1 h2 => h j (by omega) (by omega)⟩,
      fun h j h1 h2 => (Nat.eq_or_lt_of_le h1).elim (· ▸ h.1) fun h' => h.2 j h' (by omega)⟩
  rw [hstep fun j => pages j ≠ 0 → f ≠ pages j / 4096]
  simp only [freePages]
  split
  · next h0 => simp [ih _ _ _ ok f, h0]
  rename_i h0
  have hfree := pmmFreePage_spec m (pages i) ok
  rw [ih _ _ _ hfree.pmmOk f, hfree.used f, and_assoc]
  refine and_congr_right fun _ => and_congr (by simp [h0]) ?_
  refine forall_congr' fun j => forall_congr' fun hj => ?_
  rw [update_of_ne (by omega)]

theorem ramfsRead_congr (ht : (fs'.inodes p).type = (fs.inodes p).type)
    (hs : (fs'.inodes p).size = (fs.inodes p).size)
    (h : ∀ x < (fs.inodes p).size, fs'.mm.mem ((fs'.inodes p).pages (x / 4096) + x % 4096) =
      fs.mm.mem ((fs.inodes p).pages (x / 4096) + x % 4096)) (off n : Nat) :
    ramfsRead fs' p off n = ramfsRead fs p off n := by
  unfold ramfsRead
  simp only [ht, hs]
  split
  · rfl
  split
  · rfl
  rw [readLoop_eq 0 (by omega), readLoop_eq 0 (by omega)]
  refine Prod.ext rfl (List.map_congr_left fun i hi => h _ ?_)
  rw [List.mem_range] at hi
  split at hi <;> omega

/-! ## Out of memory -/

/-- The file is as it was, and freeing it leaves in use what `m` has in use but for its pages. -/
structure Harmless (fs : Fs) (p : Nat) (m : Mm) (fs' : Fs) : Prop where
  size : (fs'.inodes p).size = (fs.inodes p).size
  data : ∀ off n, ramfsRead fs' p off n = ramfsRead fs p off n
  freed : ∀ f, (ramfsTruncate fs' p 0).2.mm.used f ↔ m.used f ∧
    ∀ i < (fs.inodes p).npages, f ≠ (fs.inodes p).pages i / 4096

theorem harmless_of_same (inv : FsInv fs live) (ht : (fs.inodes p).type = .reg)
    {pages : Nat → Nat} {cap : Nat}
    (hino : fs'.inodes p = { fs.inodes p with pages := pages, cap := cap })
    (hpages : ∀ i < (fs.inodes p).npages, pages i = (fs.inodes p).pages i)
    (hmem : ∀ x, fs.mm.used (x / 4096) → fs'.mm.mem x = fs.mm.mem x) (ok : PmmOk fs'.mm.pmm) :
    Harmless fs p fs'.mm fs' := by
  have hsize := inv.sizes p ht
  have hused : ∀ i < (fs.inodes p).npages, fs.mm.used ((fs.inodes p).pages i / 4096) :=
    fun i hi => (inv.owns.alloc (p, i) _ ⟨ht, hi, rfl⟩).1
  refine ⟨by rw [hino], ramfsRead_congr (by rw [hino]) (by rw [hino]) fun x hx => ?_, fun f => ?_⟩
  · have hi : x / 4096 < (fs.inodes p).npages := by omega
    have hal := inv.aligned p _ ht hi
    have hu := hused _ hi
    rw [hino]
    simp only [hpages _ hi]
    refine hmem _ ?_
    rwa [show ((fs.inodes p).pages (x / 4096) + x % 4096) / 4096 =
      (fs.inodes p).pages (x / 4096) / 4096 by omega]
  have hfree := freePages_used (fs.inodes p).npages 0 fs'.mm pages ok f
  simp only [ramfsTruncate, hino, ht, ne_eq, not_true_eq_false, if_false, add32, Nat.zero_add,
    Nat.reduceMod, Nat.reduceDiv, Nat.not_lt_zero, gt_iff_lt, Nat.sub_zero]
  refine hfree.trans (and_congr_right fun _ => ⟨fun h i hi => ?_, fun h j _ hj _ => ?_⟩)
  · rw [← hpages i hi]
    refine h i (Nat.zero_le i) (by omega) fun h0 => ?_
    -- page 0 is not managed
    have hu := (hused i hi).1
    have hok := inv.mm.pmm
    have := hok.pos
    have := hok.aligned
    rw [← hpages i hi, h0] at hu
    omega
  rw [hpages j (by omega)]
  exact h j (by omega)

/-- The allocators fail before a frame is taken for the file: the heap has no larger array, or there
    is no page at all. -/
def failsAtOnce (fs : Fs) (p need : Nat) : Prop :=
  if need > (fs.inodes p).cap then (kmalloc fs).1 = 0 ∨ (pmmAllocPage (kmalloc fs).2.mm).1 = 0
  else (pmmAllocPage fs.mm).1 = 0

/-- A file that cannot grow keeps size and data; freeing it then gives back every frame taken for it
    exactly when the failure came before the first. -/
theorem Grows.harmless_iff (inv : FsInv fs live) (h : Grows fs p need r) (hr : r.1 = -12) :
    Harmless fs p (growSlots fs p need).2.mm r.2 ↔ failsAtOnce fs p need := by
  obtain ⟨ht, hr2, hne⟩ := h.oom hr
  obtain ⟨pages, cap, hino, hpages, hmem⟩ := growSlots_same inv ht need
  have hg := (growSlots_step (.refl inv) p need).inv
  have hfails : failsAtOnce fs p need ↔
      (growSlots fs p need).1 = false ∨ (pmmAllocPage (growSlots fs p need).2.mm).1 = 0 := by
    unfold failsAtOnce growSlots
    simp only
    split
    · split
      · next h0 => simp [h0]
      · next h0 => simp [h0, Fs.setInode]
    · simp
  rw [hr2, hfails]
  unfold ensurePages at hne ⊢
  generalize growSlots fs p need = g at *
  obtain ⟨ok, fs1⟩ := g
  simp only at *
  cases ok with
  | false =>
    have := harmless_of_same inv ht hino hpages (fun x hx => (hmem x hx).2) hg.mm.pmm
    simpa using this
  | true => ?_
  have fl := fillPages_filled (need - (fs1.inodes p).npages) (fs1.inodes p).npages fs1.mm
    (fs1.inodes p).pages hg.mm
  have hf := @fillPages_fails live fs1.mm hg.mm (need - (fs1.inodes p).npages) (fs1.inodes p).npages
    (fs1.inodes p).pages
  generalize fillPages _ _ _ _ = q at *
  obtain ⟨ok, m, pages'⟩ := q
  cases ok with
  | true => simp at hne
  | false => ?_
  simp only [Bool.false_eq_true, if_false, if_true, reduceCtorEq, false_or] at *
  have hino' : ({ fs1 with mm := m }.setInode p { fs1.inodes p with pages := pages' }).inodes p =
      { fs.inodes p with pages := pages', cap := cap } := by
    rw [hino]
    exact update_self ..
  have hold : ∀ i < (fs.inodes p).npages, pages' i = (fs.inodes p).pages i := fun i hi => by
    refine (fl.old i (by rw [hino]; exact hi)).trans ?_
    rw [hino]
    exact hpages i hi
  have hsame : Harmless fs p m _ := harmless_of_same inv ht hino' hold
    (fun x hx => (fl.mem x (hmem x hx).1).trans (hmem x hx).2) fl.evolves.inv.pmm
  rcases hf trivial with ⟨h0, rfl⟩ | ⟨h0, hfresh, hused⟩
  · exact iff_of_true hsame h0
  -- the first frame taken is in no slot that is given back
  · refine iff_of_false (fun hh => hfresh ?_) h0
    refine ((hh.freed _).1 ((hsame.freed _).2 ⟨hused, fun i hi he => hfresh ?_⟩)).1
    rw [he]
    exact (hmem _ (inv.owns.alloc (p, i) _ ⟨ht, hi, rfl⟩).1).1

/-- There is no memory for a byte a megabyte into `/init`, and the last frame is not given back. -/
theorem tiny_write_fails : (ramfsWrite tiny.toFs 2 0x100000 [1]).1 = -12 ∧
    ¬ (growSlots tiny.toFs 2 257).2.mm.used 262204 ∧
    (ramfsTruncate (ramfsWrite tiny.toFs 2 0x100000 [1]).2 2 0).2.mm.used 262204 := by
  unfold Mm.used
  decide +kernel

end Embedded.Kernel
