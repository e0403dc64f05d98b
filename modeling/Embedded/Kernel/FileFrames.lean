import Embedded.Kernel.AddrSpace
import Embedded.Kernel.Cpio

/-! # The frames of files

Regular files keep their data in frames of the page allocator, the same that back user memory.
`FsInv fs live` adds them to the frame invariant: a frame of a file is used, belongs to one page of
one file, and is held by none of the address spaces `live`. Every function of `ramfs.c` keeps it and
moves no user page (`FsStep`). -/

namespace Embedded.Kernel

open List
open Function (update update_self update_of_ne)

variable {m' : Mm} {p : Nat} {n : RfInode}

/-- Page `r.2` of the regular file `r.1` lies in the frame `f`. -/
def Fs.holds (fs : Fs) (r : Nat × Nat) (f : Nat) : Prop :=
  (fs.inodes r.1).type = .reg ∧ r.2 < (fs.inodes r.1).npages ∧
    f = (fs.inodes r.1).pages r.2 / 4096

/-- The frame invariant of address spaces and files together. -/
structure FsInv (fs : Fs) (live : Set Nat) : Prop where
  mm : Inv fs.mm live
  owns : Owns fs.holds (fs.mm.loose live)
  aligned : ∀ p i, (fs.inodes p).type = .reg → i < (fs.inodes p).npages →
    (fs.inodes p).pages i % 4096 = 0
  room : ∀ p, (fs.inodes p).type = .reg → (fs.inodes p).npages ≤ (fs.inodes p).cap
  sizes : ∀ p, (fs.inodes p).type = .reg → (fs.inodes p).size ≤ (fs.inodes p).npages * 4096

/-- A step that keeps the invariant and every user page. -/
structure FsStep (fs fs' : Fs) (live : Set Nat) : Prop where
  inv : FsInv fs' live
  pages : ∀ r f, r.isTable = false → (fs'.mm.holds live r f ↔ fs.mm.holds live r f)

section

variable {fs0 fs fs' : Fs} {live live' : Set Nat}

theorem FsStep.refl (inv : FsInv fs live) : FsStep fs fs live := ⟨inv, fun _ _ _ => Iff.rfl⟩

/-- Changes of memory that keep loose frames loose keep the files'. -/
theorem FsInv.move (h : FsInv fs live) {m' : Mm} (inv : Inv m' live')
    (hloose : ∀ f, fs.mm.loose live f → m'.loose live' f) : FsInv { fs with mm := m' } live' :=
  ⟨inv, h.owns.mono (fun _ _ hr => hr) fun r f hr => hloose f (h.owns.alloc r f hr), h.aligned, h.room,
    h.sizes⟩

/-- An inode may be replaced by one whose pages are aligned, have room and cover its size. -/
theorem FsInv.setInode (inv : FsInv fs live) (hm : Inv m' live)
    (howns : Owns ({ fs with mm := m' }.setInode p n).holds (m'.loose live))
    (hal : n.type = .reg → ∀ i < n.npages, n.pages i % 4096 = 0) (hcap : n.type = .reg → n.npages ≤ n.cap)
    (hsize : n.type = .reg → n.size ≤ n.npages * 4096) : FsInv ({ fs with mm := m' }.setInode p n) live := by
  refine ⟨hm, howns, ?_, ?_, ?_⟩
  · exact (Function.forall_update_iff fs.inodes fun _ n => ∀ i, n.type = .reg → i < n.npages → n.pages i % 4096 = 0).2
      ⟨fun i ht => hal ht i, fun q _ => inv.aligned q⟩
  · exact (Function.forall_update_iff fs.inodes fun _ n => n.type = .reg → n.npages ≤ n.cap).2
      ⟨hcap, fun q _ => inv.room q⟩
  exact (Function.forall_update_iff fs.inodes fun _ n => n.type = .reg → n.size ≤ n.npages * 4096).2
    ⟨hsize, fun q _ => inv.sizes q⟩

variable (h : FsStep fs0 fs live)
include h

theorem FsStep.evolves
    (ev : Evolves fs.mm m' live (fs.mm.holds live)) : FsStep fs0 { fs with mm := m' } live :=
  ⟨h.inv.move ev.inv ev.loose, fun r f ht => (ev.pages r f ht).trans (h.pages r f ht)⟩

/-- Neither the heap's answers nor the root nor the inode counter matter. -/
theorem FsStep.congr (hm : fs'.mm = fs.mm) (hi : fs'.inodes = fs.inodes) : FsStep fs0 fs' live := by
  have hh : fs'.holds = fs.holds := by unfold Fs.holds; rw [hi]
  refine ⟨⟨by rw [hm]; exact h.inv.mm, by rw [hm, hh]; exact h.inv.owns, ?_, ?_, ?_⟩, ?_⟩
  · rw [hi]
    exact h.inv.aligned
  · rw [hi]
    exact h.inv.room
  · rw [hi]
    exact h.inv.sizes
  rw [hm]
  exact h.pages

/-- An inode may be replaced by one that has no page the old one did not have. -/
theorem FsStep.setInode
    (hn : n.type = .reg → ∀ i < n.npages, (fs.inodes p).type = .reg ∧ i < (fs.inodes p).npages ∧
      n.pages i = (fs.inodes p).pages i) (hcap : n.type = .reg → n.npages ≤ n.cap)
    (hsize : n.type = .reg → n.size ≤ n.npages * 4096) : FsStep fs0 (fs.setInode p n) live := by
  have hsub : ∀ r f, (fs.setInode p n).holds r f → fs.holds r f := by
    rintro ⟨q, i⟩ f ⟨ht, hi, hf⟩
    by_cases hq : q = p
    · subst hq
      simp only [Fs.setInode, update_self] at ht hi hf
      obtain ⟨ht', hi', hpg⟩ := hn ht i hi
      exact ⟨ht', hi', by rw [hf, hpg]⟩
    simp only [Fs.setInode, update_of_ne hq] at ht hi hf
    exact ⟨ht, hi, hf⟩
  have inv := h.inv
  refine ⟨inv.setInode inv.mm (inv.owns.mono hsub fun r f hr => inv.owns.alloc r f (hsub r f hr))
    (fun ht i hi => ?_) hcap hsize, h.pages⟩
  obtain ⟨ht', hi', hpg⟩ := hn ht i hi
  rw [hpg]
  exact inv.aligned p i ht' hi'

/-- Fields other than the type, the pages and the size do not matter. -/
theorem FsStep.setInode_same (ht : n.type = (fs.inodes p).type) (hnp : n.npages = (fs.inodes p).npages)
    (hpg : n.pages = (fs.inodes p).pages) (hcap : n.cap = (fs.inodes p).cap)
    (hsize : n.type = .reg → n.size ≤ n.npages * 4096) : FsStep fs0 (fs.setInode p n) live := by
  refine h.setInode (fun hr i hi => ⟨ht ▸ hr, hnp ▸ hi, by rw [hpg]⟩) (fun hr => ?_) hsize
  rw [hnp, hcap]
  exact h.inv.room p (ht ▸ hr)

/-- An inode that is no regular file has no pages. -/
theorem FsStep.setInode_nonreg (hn : n.type ≠ .reg) : FsStep fs0 (fs.setInode p n) live :=
  h.setInode (fun ht => absurd ht hn) (fun ht => absurd ht hn) fun ht => absurd ht hn

/-! ## The heap and the tree -/

omit h in
@[simp] theorem kmalloc_inodes (fs : Fs) : (kmalloc fs).2.inodes = fs.inodes := by
  unfold kmalloc
  split
  · rfl
  split <;> rfl

omit h in
@[simp] theorem kmalloc_root (fs : Fs) : (kmalloc fs).2.root = fs.root := by
  unfold kmalloc
  split
  · rfl
  split <;> rfl

omit h in
/-- `kmalloc` may take frames for the arena; no user page changes. -/
theorem kmalloc_evolves (inv : Inv fs.mm live) : Evolves fs.mm (kmalloc fs).2.mm live (fs.mm.holds live) := by
  unfold kmalloc
  split
  · exact .refl inv
  rename_i a rest _
  split
  · exact .refl inv
  rcases pmmAllocAligned_cases fs.mm a.npages 4096 inv.pmm with ⟨_, hm⟩ | ⟨ha, _⟩
  · simp only [hm]
    exact .refl inv
  exact ha.evolves inv

theorem kmalloc_step : FsStep fs0 (kmalloc fs).2 live :=
  (h.evolves (kmalloc_evolves h.inv.mm)).congr rfl (kmalloc_inodes fs)

theorem inodeNew_step (t : RfType) (mode : Nat) : FsStep fs0 (inodeNew fs t mode).2 live := by
  have hk := kmalloc_step h
  simp only [inodeNew]
  split
  · exact hk
  have hnew : FsStep fs0 ((kmalloc fs).2.setInode (kmalloc fs).1
      { type := t, ino := (kmalloc fs).2.nextIno, mode := mode, nlink := 1 }) live :=
    hk.setInode (fun _ i hi => absurd hi (by simp)) (fun _ => le_rfl) fun _ => Nat.zero_le _
  exact hnew.congr rfl rfl

omit h in
theorem inodeNew_self {t : RfType} {mode : Nat} (h : (inodeNew fs t mode).1 ≠ 0) :
    ((inodeNew fs t mode).2.inodes (inodeNew fs t mode).1).type = t := by
  simp only [inodeNew] at h ⊢
  split at h
  · exact absurd rfl h
  next hne => simp only [if_neg hne, Fs.setInode, update_self]

theorem kfreeInode_step (p : Nat) : FsStep fs0 (kfreeInode fs p) live := h.setInode_nonreg nofun

section

variable (dir : Nat) (name : Bytes)

theorem dirLink_step (child : Nat) : FsStep fs0 (dirLink fs dir name child).2 live := by
  have hk := kmalloc_step h
  simp only [dirLink]
  split
  · exact hk
  exact hk.setInode_same rfl rfl rfl rfl (hk.inv.sizes dir)

theorem linkOrFree_step (n : Nat) : FsStep fs0 (linkOrFree fs dir name n).2 live := by
  have hd := dirLink_step h dir name n
  simp only [linkOrFree]
  split
  · exact hd
  exact kfreeInode_step hd n

theorem ramfsMkreg_step (mode : Nat) : FsStep fs0 (ramfsMkreg fs dir name mode).2 live := by
  have hn := inodeNew_step h .reg ((mode &&& 0o7777) ||| 0o100000)
  simp only [ramfsMkreg]
  split
  · exact hn
  exact linkOrFree_step hn dir name _

theorem ramfsMkdir_step (mode : Nat) : FsStep fs0 (ramfsMkdir fs dir name mode).2 live := by
  have hn := inodeNew_step h .dir ((mode &&& 0o7777) ||| 0o40000)
  simp only [ramfsMkdir]
  split
  · exact hn
  refine linkOrFree_step ?_ dir name _
  exact hn.setInode_same rfl rfl rfl rfl (hn.inv.sizes _)

end

theorem ramfsMklnk_step (dir : Nat) (name target : Bytes) :
    FsStep fs0 (ramfsMklnk fs dir name target).2 live := by
  have hn := inodeNew_step h .lnk 0o120777
  simp only [ramfsMklnk]
  split
  · exact hn
  next h0 =>
  have hk := kmalloc_step hn
  split
  · exact kfreeInode_step hk _
  refine linkOrFree_step (hk.setInode_nonreg ?_) dir name _
  simp only [kmalloc_inodes, inodeNew_self h0]
  nofun

theorem ramfsMknod_step (dir : Nat) (name : Bytes) (mode maj min : Nat) :
    FsStep fs0 (ramfsMknod fs dir name mode maj min).2 live := by
  have hn := inodeNew_step h .chr mode
  simp only [ramfsMknod]
  split
  · exact hn
  refine linkOrFree_step ?_ dir name _
  exact hn.setInode_same rfl rfl rfl rfl (hn.inv.sizes _)

theorem ramfsInit_step : FsStep fs0 (ramfsInit fs) live := by
  have hn := inodeNew_step h .dir 0o40755
  unfold ramfsInit
  generalize inodeNew fs .dir 0o40755 = r at hn ⊢
  obtain ⟨p, fs1⟩ := r
  have hroot : FsStep fs0 (fs1.setInode p { fs1.inodes p with parent := p }) live :=
    hn.setInode_same rfl rfl rfl rfl (hn.inv.sizes p)
  exact hroot.congr rfl rfl

/-! ## File data -/

/-- What `fillPages` leaves, after a success and after a failure. -/
structure Filled (m : Mm) (pages : Nat → Nat) (live : Set Nat) (n i : Nat)
    (r : Bool × Mm × (Nat → Nat)) : Prop where
  evolves : Evolves m r.2.1 live (m.holds live)
  mem : ∀ x, m.used (x / 4096) → r.2.1.mem x = m.mem x
  old : ∀ j < i, r.2.2 j = pages j
  new : r.1 = true → ∀ j, i ≤ j → j < i + n → r.2.2 j % 4096 = 0 ∧ ¬ m.used (r.2.2 j / 4096) ∧
    r.2.1.loose live (r.2.2 j / 4096) ∧ ∀ o < 4096, r.2.1.mem (r.2.2 j + o) = 0
  inj : r.1 = true → ∀ j j', i ≤ j → j < i + n → i ≤ j' → j' < i + n →
    r.2.2 j / 4096 = r.2.2 j' / 4096 → j = j'

omit h in
theorem fillPages_filled (n : Nat) : ∀ (i : Nat) (m : Mm) (pages : Nat → Nat), Inv m live →
      Filled m pages live n i (fillPages n i m pages) := by
  induction n with
  | zero =>
    intro i m pages inv
    exact ⟨.refl inv, fun _ _ => rfl, fun _ _ => rfl, fun _ j hj hj' => by omega,
      fun _ j _ hj hj' => by omega⟩
  | succ n ih => ?_
  intro i m pages inv
  simp only [fillPages]
  rcases pmmAllocPage_cases m inv.pmm with ⟨h0, hm⟩ | a
  · rw [if_pos h0, hm]
    exact ⟨.refl inv, fun _ _ => rfl, fun _ _ => rfl, nofun, nofun⟩
  have hpos := a.pos
  have hal := a.aligned
  rw [if_neg (by omega)]
  generalize pmmAllocPage m = q at a hpos hal
  obtain ⟨pa, m1⟩ := q
  have hr := ih (i + 1) m1 (update pages i pa) (a.inv inv)
  generalize fillPages n (i + 1) m1 (update pages i pa) = r at hr ⊢
  have hfresh : ¬ m.used (pa / 4096) := a.fresh _ (by omega) (by omega)
  have hused : m1.used (pa / 4096) := (a.used _).2 (.inr (by omega))
  have hi : r.2.2 i = pa := by rw [hr.old i (by omega), update_self]
  refine ⟨(a.evolves inv).trans hr.evolves, fun x hx => ?_, fun j hj => ?_, fun hok j hj hj' => ?_,
    fun hok j j' hj hj2 hj' hj'₂ heq => ?_⟩
  · rw [hr.mem x ((a.used _).2 (.inl hx)), a.mem]
    refine Mem.zero_of_not_mem ?_
    rintro ⟨h1, h2⟩
    exact a.fresh _ (by omega) (by omega) hx
  · rw [hr.old j (by omega), update_of_ne (by omega)]
  · rcases Nat.eq_or_lt_of_le hj with rfl | hlt
    · rw [hi]
      refine ⟨hal, hfresh, hr.evolves.loose _ (a.loose inv (by omega) (by omega)), fun o ho => ?_⟩
      rw [hr.mem _ (by rw [show (pa + o) / 4096 = pa / 4096 by omega]; exact hused), a.mem]
      exact if_pos (by omega)
    obtain ⟨h1, h2, h3, h4⟩ := hr.new hok j (by omega) (by omega)
    exact ⟨h1, fun hu => h2 ((a.used _).2 (.inl hu)), h3, h4⟩
  -- the frame of slot `i` was used when the later ones were handed out
  have hne : ∀ j'', i < j'' → j'' < i + (n + 1) → r.2.2 j'' / 4096 ≠ pa / 4096 := by
    intro j'' h1 h2 h3
    refine (hr.new hok j'' (by omega) (by omega)).2.1 ?_
    rw [h3]
    exact hused
  rcases Nat.eq_or_lt_of_le hj with rfl | hlt
  · rcases Nat.eq_or_lt_of_le hj' with rfl | hlt'
    · rfl
    rw [hi] at heq
    exact absurd heq.symm (hne j' hlt' hj'₂)
  rcases Nat.eq_or_lt_of_le hj' with rfl | hlt'
  · rw [hi] at heq
    exact absurd heq (hne j hlt hj2)
  exact hr.inj hok j j' (by omega) (by omega) (by omega) (by omega) heq

/-- An inode takes the pages `fillPages` found for it. -/
theorem FsStep.fill {n : Nat} {r : Bool × Mm × (Nat → Nat)}
    (fl : Filled fs.mm (fs.inodes p).pages live n (fs.inodes p).npages r) (hok : r.1 = true)
    (hcap : (fs.inodes p).npages + n ≤ (fs.inodes p).cap) :
    FsStep fs0 ({ fs with mm := r.2.1 }.setInode p
      { fs.inodes p with pages := r.2.2, npages := (fs.inodes p).npages + n }) live := by
  have hm := h.evolves fl.evolves
  have hnew := fl.new hok
  -- a page of the new state is an old one, or one of those just filled
  have hsub : ∀ q f, ({ fs with mm := r.2.1 }.setInode p
      { fs.inodes p with pages := r.2.2, npages := (fs.inodes p).npages + n }).holds q f →
      (q.1 = p ∧ (fs.inodes p).npages ≤ q.2 ∧ q.2 < (fs.inodes p).npages + n ∧
        f = r.2.2 q.2 / 4096) ∨ fs.holds q f := by
    rintro ⟨q, i⟩ f ⟨ht, hi, hf⟩
    by_cases hq : q = p
    · subst hq
      simp only [Fs.setInode, update_self] at ht hi hf
      by_cases hlt : i < (fs.inodes q).npages
      · exact .inr ⟨ht, hlt, by rw [hf, fl.old i hlt]⟩
      exact .inl ⟨rfl, by simpa using hlt, hi, hf⟩
    simp only [Fs.setInode, update_of_ne hq] at ht hi hf
    exact .inr ⟨ht, hi, hf⟩
  refine ⟨h.inv.setInode hm.inv.mm (hm.inv.owns.extend _ ?_ ?_ hsub fun f hf => hf) (fun ht i hi => ?_)
    (fun _ => hcap) fun ht => (h.inv.sizes p ht).trans (Nat.mul_le_mul_right _ (Nat.le_add_right _ _)), hm.pages⟩
  · rintro ⟨q, i⟩ f ⟨_, hlo, hhi, rfl⟩
    obtain ⟨_, hfresh, hloose, _⟩ := hnew i hlo hhi
    exact ⟨hloose, fun r' hr' => hfresh (h.inv.owns.alloc r' _ hr').1⟩
  · rintro ⟨q, i⟩ ⟨q', i'⟩ f ⟨rfl, hlo, hhi, hf⟩ ⟨rfl, hlo', hhi', hf'⟩
    rw [fl.inj hok i i' hlo hhi hlo' hhi' (by rw [← hf, hf'])]
  by_cases hlt : i < (fs.inodes p).npages
  · simp only [fl.old i hlt]
    exact h.inv.aligned p i ht hlt
  exact (hnew i (by simpa using hlt) hi).1

theorem growSlots_step (p pages : Nat) : FsStep fs0 (growSlots fs p pages).2 live := by
  simp only [growSlots]
  split
  · split
    · exact kmalloc_step h
    refine (kmalloc_step h).setInode (fun ht i hi => ?_) (fun ht => ?_) (h.inv.sizes p)
    · rw [kmalloc_inodes]
      have := h.inv.room p ht
      exact ⟨ht, hi, if_neg (by simp only at hi; omega)⟩
    have := h.inv.room p ht
    simp only
    split <;> split <;> omega
  exact h

omit h in
theorem growSlots_cap (fs : Fs) (p pages : Nat) (h : (growSlots fs p pages).1 = true) :
    pages ≤ ((growSlots fs p pages).2.inodes p).cap := by
  simp only [growSlots] at h ⊢
  split at h
  · next hgt =>
    rw [if_pos hgt]
    split at h
    · simp at h
    rename_i hne
    rw [if_neg hne]
    simp only [Fs.setInode, update_self]
    split <;> split <;> omega
  next hle =>
  rw [if_neg hle]
  exact Nat.le_of_not_lt hle

theorem ensurePages_step (p pages : Nat) : FsStep fs0 (ensurePages fs p pages).2 live := by
  have hg := growSlots_step h p pages
  have hcap := growSlots_cap fs p pages
  unfold ensurePages
  generalize growSlots fs p pages = g at hg hcap ⊢
  obtain ⟨ok, fs1⟩ := g
  simp only at hg hcap ⊢
  cases ok with
  | false => exact hg
  | true => ?_
  have fl := fillPages_filled (pages - (fs1.inodes p).npages)
    (fs1.inodes p).npages fs1.mm (fs1.inodes p).pages hg.inv.mm
  simp only [if_true]
  split
  · next hok =>
    have hmax : max pages (fs1.inodes p).npages
        = (fs1.inodes p).npages + (pages - (fs1.inodes p).npages) := by omega
    rw [hmax]
    by_cases ht : (fs1.inodes p).type = .reg
    · refine hg.fill fl hok ?_
      have := hg.inv.room p ht
      have := hcap rfl
      omega
    exact (hg.evolves fl.evolves).setInode_nonreg ht
  exact (hg.evolves fl.evolves).setInode (fun ht i hi => ⟨ht, hi, fl.old i hi⟩) (hg.inv.room p) (hg.inv.sizes p)

omit h in
/-- After a success the file has `pages` pages at least, and its size and type are as before. -/
theorem ensurePages_ok (fs : Fs) (p pages : Nat) (h : (ensurePages fs p pages).1 = 0) :
    pages ≤ ((ensurePages fs p pages).2.inodes p).npages ∧
      ((ensurePages fs p pages).2.inodes p).type = (fs.inodes p).type ∧
      ((ensurePages fs p pages).2.inodes p).size = (fs.inodes p).size := by
  have hsame : (growSlots fs p pages).1 = true →
      ((growSlots fs p pages).2.inodes p).type = (fs.inodes p).type ∧
      ((growSlots fs p pages).2.inodes p).size = (fs.inodes p).size := by
    simp only [growSlots]
    split
    · split
      · simp
      simp [Fs.setInode]
    simp
  simp only [ensurePages] at h ⊢
  split at h
  · next hg =>
    rw [if_pos hg]
    split at h
    · next hf =>
      rw [if_pos hf]
      simp only [Fs.setInode, update_self]
      exact ⟨by omega, hsame hg⟩
    simp at h
  simp at h

omit h in
/-- `ramfs_write` stores to the pages of the range only. -/
theorem writeLoop_of_not_mem (pages : Nat → Nat) (off : Nat) (src : Bytes) (x fuel : Nat) :
    ∀ (done : Nat) (mem : Mem),
      (∀ pos, off + done ≤ pos → pos < off + src.length → pages (pos / 4096) + pos % 4096 ≠ x) →
      writeLoop pages off src fuel done mem x = mem x := by
  induction fuel with
  | zero => intro done mem _; rfl
  | succ fuel ih => ?_
  intro done mem hx
  simp only [writeLoop]
  split
  · next hlt =>
    rw [ih _ _ fun pos h1 h2 => hx pos (by omega) h2]
    refine Mem.write_of_not_mem ?_
    rintro ⟨h1, h2⟩
    simp only [length_take, length_drop] at h2
    -- the byte of the chunk that would have been stored at `x`
    have hpos := hx (x - pages ((off + done) / 4096) + (off + done) / 4096 * 4096) (by omega) (by omega)
    rw [show (x - pages ((off + done) / 4096) + (off + done) / 4096 * 4096) / 4096
      = (off + done) / 4096 by omega] at hpos
    omega
  rfl

omit h in
theorem FsInv.page_loose (inv : FsInv fs live) {p i : Nat} (ht : (fs.inodes p).type = .reg)
    (hi : i < (fs.inodes p).npages) : fs.mm.loose live ((fs.inodes p).pages i / 4096) :=
  inv.owns.alloc (p, i) _ ⟨ht, hi, rfl⟩

theorem FsStep.write {mem : Mem} (hmem : ∀ x, ¬ fs.mm.loose live (x / 4096) → mem x = fs.mm.mem x) :
    FsStep fs0 { fs with mm := { fs.mm with mem := mem } } live := by
  have hagree : TablesAgree fs.mm { fs.mm with mem := mem } live := by
    refine ⟨rfl, fun r f _ hr x hx => hmem x fun hl => ?_⟩
    rw [hx] at hl
    exact hl.2 r hr
  exact h.evolves (hagree.evolves_mem h.inv.mm)

/-- `ramfs_write` stores to frames of the file only, when the page count it asks for does not
    wrap. -/
theorem ramfsWrite_step (p off : Nat) (src : Bytes)
    (hend : off + src.length ≤ 0xFFFFF000) : FsStep fs0 (ramfsWrite fs p off src).2 live := by
  have he := ensurePages_step h p (add32 (off + src.length) 4095 / 4096)
  have hok := ensurePages_ok fs p (add32 (off + src.length) 4095 / 4096)
  simp only [ramfsWrite]
  split
  · exact h
  rename_i hreg
  rw [if_neg (by omega)]
  generalize ensurePages fs p (add32 (off + src.length) 4095 / 4096) = r at he hok ⊢
  obtain ⟨ret, fs1⟩ := r
  simp only at he hok ⊢
  split
  · exact he
  rename_i h0
  obtain ⟨hnp, hty, _⟩ := hok (by simpa using h0)
  have ht : (fs1.inodes p).type = .reg := hty.trans (by simpa using hreg)
  have hw : FsStep fs0 { fs1 with mm := { fs1.mm with
      mem := writeLoop (fs1.inodes p).pages off src src.length 0 fs1.mm.mem } } live := by
    refine he.write fun x hx => writeLoop_of_not_mem _ _ _ _ _ _ _ fun pos h1 h2 heq => hx ?_
    have hi : pos / 4096 < (fs1.inodes p).npages := by
      unfold add32 at hnp
      omega
    have hal := he.inv.aligned p _ ht hi
    have hl := he.inv.page_loose ht hi
    rwa [show x / 4096 = (fs1.inodes p).pages (pos / 4096) / 4096 by omega]
  split
  · refine hw.setInode_same rfl rfl rfl rfl fun _ => ?_
    unfold add32 at hnp
    simp only
    omega
  exact hw

/-- What `freePages` leaves. -/
structure Freed (m : Mm) (pages : Nat → Nat) (live : Set Nat) (n i : Nat)
    (r : Mm × (Nat → Nat)) : Prop where
  inv : Inv r.1 live
  holds : ∀ q f, r.1.holds live q f ↔ m.holds live q f
  loose : ∀ f, m.loose live f → (∀ j, i ≤ j → j < i + n → f ≠ pages j / 4096) → r.1.loose live f
  mem : r.1.mem = m.mem
  old : ∀ j, j < i ∨ i + n ≤ j → r.2 j = pages j

omit h in
theorem freePages_freed (n : Nat) : ∀ (i : Nat) (m : Mm) (pages : Nat → Nat), Inv m live →
      (∀ j, i ≤ j → j < i + n → m.loose live (pages j / 4096)) →
      (∀ j j', i ≤ j → j < j' → j' < i + n → pages j / 4096 ≠ pages j' / 4096) →
      Freed m pages live n i (freePages n i m pages) := by
  induction n with
  | zero =>
    intro i m pages inv _ _
    exact ⟨inv, fun _ _ => Iff.rfl, fun _ h _ => h, rfl, fun _ _ => rfl⟩
  | succ n ih => ?_
  intro i m pages inv hloose hinj
  simp only [freePages]
  split
  · have hr := ih (i + 1) m pages inv (fun j h1 h2 => hloose j (by omega) (by omega))
      fun j j' h1 h2 h3 => hinj j j' (by omega) h2 (by omega)
    exact ⟨hr.inv, hr.holds, fun f hf hne => hr.loose f hf fun j h1 h2 => hne j (by omega) (by omega),
      hr.mem, fun j hj => hr.old j (by omega)⟩
  have hfree := pmmFreePage_spec m (pages i) inv.pmm
  have hli := hloose i (by omega) (by omega)
  have hagree : TablesAgree m (pmmFreePage m (pages i)) live := hfree.tablesAgree
  have hiff := hagree.holds_iff inv
  -- the frames still to come stay loose: they are others than the one just freed
  have hkeep : ∀ f, m.loose live f → f ≠ pages i / 4096 →
      (pmmFreePage m (pages i)).loose live f := fun f hf hne =>
    ⟨(hfree.used f).2 ⟨hf.1, hne⟩, fun r hr => hf.2 r ((hiff r f).1 hr)⟩
  have hupd : ∀ j, i < j → update pages i 0 j = pages j := fun j hj => update_of_ne (by omega) ..
  have hr := ih (i + 1) (pmmFreePage m (pages i)) (update pages i 0) (hfree.inv inv hli.2) (fun j h1 h2 => by
      rw [hupd j (by omega)]
      exact hkeep _ (hloose j (by omega) (by omega)) (hinj i j (by omega) (by omega) (by omega)).symm)
    (fun j j' h1 h2 h3 => by
      rw [hupd j (by omega), hupd j' (by omega)]
      exact hinj j j' (by omega) h2 (by omega))
  refine ⟨hr.inv, fun q f => (hr.holds q f).trans (hiff q f), fun f hf hne => ?_,
    by rw [hr.mem, hfree.mem], fun j hj => ?_⟩
  · refine hr.loose f (hkeep f hf (hne i (by omega) (by omega))) fun j h1 h2 => ?_
    rw [hupd j (by omega)]
    exact hne j (by omega) (by omega)
  rw [hr.old j (by omega), update_of_ne (by omega)]

theorem ramfsTruncate_step (p : Nat) {newsize : Nat} (hsize : newsize ≤ 0xFFFFF000) :
    FsStep fs0 (ramfsTruncate fs p newsize).2 live := by
  simp only [ramfsTruncate]
  split
  · exact h
  rename_i hreg
  have ht : (fs.inodes p).type = .reg := by simpa using hreg
  have hneed : newsize ≤ add32 newsize 4095 / 4096 * 4096 := by
    unfold add32
    omega
  generalize add32 newsize 4095 / 4096 = need at hneed
  split
  · have he := ensurePages_step h p need
    split
    · exact he
    next h0 =>
    refine he.setInode_same rfl rfl rfl rfl fun _ => hneed.trans (Nat.mul_le_mul_right _ ?_)
    exact (ensurePages_ok fs p need (by simpa using h0)).1
  next hsmall =>
  have hpage : ∀ j, need ≤ j → j < need + ((fs.inodes p).npages - need) →
      fs.holds (p, j) ((fs.inodes p).pages j / 4096) :=
    fun j h1 h2 => ⟨ht, by simp only; omega, rfl⟩
  have fr := freePages_freed ((fs.inodes p).npages - need) need fs.mm (fs.inodes p).pages
    h.inv.mm (fun j h1 h2 => h.inv.owns.alloc _ _ (hpage j h1 h2)) fun j j' h1 h2 h3 heq => by
      have := h.inv.owns.uniq _ _ _ (hpage j h1 (by omega)) (heq ▸ hpage j' (by omega) (by omega))
      simp only [Prod.mk.injEq, true_and] at this
      omega
  generalize freePages ((fs.inodes p).npages - need) need fs.mm (fs.inodes p).pages = r at fr ⊢
  obtain ⟨m', pages'⟩ := r
  have hold : ∀ j < need, pages' j = (fs.inodes p).pages j := fun j hj => fr.old j (.inl hj)
  -- what a file still holds is none of the frames given back
  have hsub : ∀ q f, ({ fs with mm := m' }.setInode p { fs.inodes p with
      pages := pages', npages := min need (fs.inodes p).npages, size := newsize }).holds q f →
      fs.holds q f ∧ (q.1 = p → q.2 < need) := by
    rintro ⟨q, i⟩ f ⟨ht', hi, hf⟩
    by_cases hq : q = p
    · subst hq
      simp only [Fs.setInode, update_self] at ht' hi hf
      exact ⟨⟨ht', by simp only; omega, by rw [hf, hold i (by omega)]⟩, fun _ => by simp only; omega⟩
    simp only [Fs.setInode, update_of_ne hq] at ht' hi hf
    exact ⟨⟨ht', hi, hf⟩, fun h' => absurd h' hq⟩
  refine ⟨h.inv.setInode fr.inv (h.inv.owns.mono (fun q f hq => (hsub q f hq).1) fun q f hq => ?_)
    (fun _ i hi => ?_) (fun _ => ?_) fun _ => ?_, fun q f ht' => (fr.holds q f).trans (h.pages q f ht')⟩
  · obtain ⟨hq', hlt⟩ := hsub q f hq
    refine fr.loose f (h.inv.owns.alloc q f hq') fun j h1 h2 hf => ?_
    have heq := h.inv.owns.uniq _ _ _ hq' (hf ▸ hpage j h1 h2)
    subst heq
    omega
  · simp only at hi ⊢
    rw [hold i (by omega)]
    exact h.inv.aligned p i ht (by omega)
  · have := h.inv.room p ht
    simp only
    omega
  have hold' : newsize ≤ (fs.inodes p).npages * 4096 := (Nat.le_of_not_lt hsmall).trans (h.inv.sizes p ht)
  show newsize ≤ min need (fs.inodes p).npages * 4096
  rw [Nat.min_def]
  split
  · exact hneed
  · exact hold'

/-! ## Pipes -/

theorem ramfsPipe_step : FsStep fs0 (ramfsPipe fs).2 live := by
  have hn := inodeNew_step h .pipe 0o10600
  have hk := kmalloc_step hn
  simp only [ramfsPipe]
  split
  · exact hn
  split
  · exact kfreeInode_step hk _
  exact hk

omit h in
theorem pipeGet_type (n : Nat) : ∀ p : RfInode, (pipeGet n p).2.type = p.type := by
  induction n with
  | zero => intro p; rfl
  | succ n ih => ?_
  intro p
  simp only [pipeGet]
  split
  · rw [ih]
  rfl

omit h in
theorem pipePut_type (bs : Bytes) : ∀ p : RfInode, (pipePut bs p).2.type = p.type := by
  induction bs with
  | nil => intro p; rfl
  | cons b bs ih => ?_
  intro p
  simp only [pipePut]
  split
  · rw [ih]
  rfl

theorem ramfsPipeRead_step (p n : Nat) : FsStep fs0 (ramfsPipeRead fs p n).2 live := by
  simp only [ramfsPipeRead]
  split
  · exact h
  next ht => exact h.setInode_nonreg (by rw [pipeGet_type]; simp_all)

theorem ramfsPipeWrite_step (p : Nat) (src : Bytes) : FsStep fs0 (ramfsPipeWrite fs p src).2 live := by
  simp only [ramfsPipeWrite]
  split
  · exact h
  rename_i ht
  split
  · exact h
  exact h.setInode_nonreg (by rw [pipePut_type]; simp_all)

/-! ## Unpacking an archive -/

omit h in
theorem makeParents_step (comps : List Bytes) :
    ∀ (dir : Nat) (fs : Fs), FsStep fs0 fs live → FsStep fs0 (makeParents comps dir fs).2 live := by
  intro dir fs h
  fun_induction makeParents comps dir fs with
  | case1 dir fs => exact h
  | case2 leaf dir fs => exact h
  | case3 leaf dir fs => exact h
  | case4 dir fs comp rest => exact h
  | case5 dir fs comp rest hne hlen child r hr =>
    simp only [r]
    split
    · exact ramfsMkdir_step h _ _ _
    exact h
  | case6 dir fs comp rest hne hlen child r hr ih =>
    refine ih ?_
    simp only [r]
    split
    · exact ramfsMkdir_step h _ _ _
    exact h

theorem cpioLeaf_step (dir : Nat) (leaf : Bytes) (e : CpioEntry)
    (hdata : e.data.length ≤ 0xFFFFF000) : FsStep fs0 (cpioLeaf fs dir leaf e) live := by
  simp only [cpioLeaf]
  split
  · split
    · exact ramfsMkdir_step h dir leaf _
    exact h
  split
  · exact ramfsMklnk_step h dir leaf _
  split
  · exact ramfsMknod_step h dir leaf _ _ _
  split
  · have hr : FsStep fs0 (if ramfsChild fs dir leaf = 0 then ramfsMkreg fs dir leaf (e.mode &&& 0o7777)
        else (ramfsChild fs dir leaf, fs)).2 live := by
      split
      · exact ramfsMkreg_step h dir leaf _
      exact h
    generalize (if ramfsChild fs dir leaf = 0 then ramfsMkreg fs dir leaf (e.mode &&& 0o7777)
      else (ramfsChild fs dir leaf, fs)) = r at hr ⊢
    split
    · exact ramfsWrite_step hr r.1 0 e.data (by omega)
    exact hr
  exact h

theorem cpioCreate_step (e : CpioEntry)
    (hdata : e.data.length ≤ 0xFFFFF000) : FsStep fs0 (cpioCreate fs e) live := by
  have hp := makeParents_step (components e.name) fs.root fs h
  simp only [cpioCreate]
  split
  · exact cpioLeaf_step hp _ _ e hdata
  exact hp

omit h

theorem cpioParse_data_le {b : Bytes} {size off off' : Nat} {e : CpioEntry}
    (h : cpioParse b size off = .entry e off') : e.data.length ≤ b.length := by
  simp only [cpioParse] at h
  split at h
  · cases h
  split at h
  · split at h <;> cases h
  split at h
  · cases h
  split at h
  · cases h
  split at h
  · cases h
  obtain ⟨rfl, -⟩ := h
  simp only [length_take, length_drop]
  omega

theorem cpioLoop_step (b : Bytes) (size : Nat) (hb : b.length ≤ 0xFFFFF000) (fuel : Nat) :
    ∀ (off : Nat) (count : Int) (fs : Fs) (r : Int × Fs), FsStep fs0 fs live →
      cpioLoop b size fuel off count fs = some r → FsStep fs0 r.2 live := by
  induction fuel with
  | zero => intro off count fs r _ hr; simp [cpioLoop] at hr
  | succ fuel ih => ?_
  intro off count fs r h hr
  simp only [cpioLoop] at hr
  split at hr
  · cases hr
    exact h
  · cases hr
    exact h
  · split at hr
    · cases hr
      exact h
    exact ih _ _ _ _ h hr
  rename_i e off' hp
  have hc : FsStep fs0 (if e.name = dot then fs else cpioCreate fs e) live := by
    split
    · exact h
    exact cpioCreate_step h e ((cpioParse_data_le hp).trans hb)
  split at hr
  · cases hr
    exact hc
  exact ih _ _ _ _ hc hr

end

end Embedded.Kernel
