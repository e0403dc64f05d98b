import Embedded.Kernel.Isolation

/-! # What system calls report and what they do

`munmap` returns `0` for every page-aligned address, also where the end of the range wraps and its
loop does nothing. A `vm_copy` that returns 0 copies the parent. `readv` reaches `sys_read` without
the test that makes `read` sleep, so the two differ where `read` would. -/

namespace Embedded.Kernel

open List

variable {va addr len n : Nat}

section Walk

variable {m m' : Mm} {live : Set Nat} {l : Nat}

/-- A page is mapped as before when its reference holds what it held. -/
theorem vmWalk_congr (inv : Inv m live) (inv' : Inv m' live) (hl : l ∈ live) (hva : va < 4294967296)
    (h : ∀ f, m'.holds live (pageRef l va) f ↔ m.holds live (pageRef l va) f) :
    vmWalk m' l va = vmWalk m l va := by
  by_cases hw : vmWalk m l va = 0
  · rw [hw]
    refine vmWalk_eq_zero inv' hl hva fun f hf => ?_
    exact (vmWalk_ne_zero_iff inv hl hva).2 ⟨f, (h f).1 hf⟩ hw
  obtain ⟨f, hf⟩ := (vmWalk_ne_zero_iff inv hl hva).1 hw
  rw [vmWalk_of_holds inv hf, vmWalk_of_holds inv' ((h f).2 hf)]

theorem vmWalk_frame (inv : Inv m live) (hl : l ∈ live) (hva : va < 4294967296)
    (hw : vmWalk m l va ≠ 0) : m.holds live (pageRef l va) (vmWalk m l va / 4096) := by
  obtain ⟨f, hf⟩ := (vmWalk_ne_zero_iff inv hl hva).1 hw
  rwa [vmWalk_of_holds inv hf, show (f * 4096 + va % 4096) / 4096 = f by omega]

theorem pageRef_eq_iff {va' : Nat} (h : va % 4096 = 0) (h' : va' % 4096 = 0) :
    pageRef l va = pageRef l va' ↔ va = va' := by
  simp only [pageRef, Ref.page.injEq, true_and]
  refine ⟨fun he => ?_, fun he => by rw [he]; exact ⟨rfl, rfl⟩⟩
  rw [← pageVa_index h, ← pageVa_index h', he.1, he.2]

/-! ## `fork` -/

/-- The child `dst` after a fork of `src`, from `m` to `m'`. -/
structure ForkCopied (m m' : Mm) (live : Set Nat) (dst src : Nat) : Prop where
  mapped : ∀ va < 4294967296, vmWalk m' dst va ≠ 0 ↔ vmWalk m src va ≠ 0
  equal : ∀ va < 4294967296, vmWalk m src va ≠ 0 →
    m'.mem (vmWalk m' dst va) = m.mem (vmWalk m src va)
  fresh : ∀ va < 4294967296, vmWalk m' dst va ≠ 0 → ∀ l ∈ live, ∀ va' < 4294967296,
    vmWalk m l va' ≠ 0 → vmWalk m' dst va / 4096 ≠ vmWalk m l va' / 4096
  apart : ∀ va < 4294967296, ∀ va' < 4294967296, vmWalk m' dst va ≠ 0 → vmWalk m' dst va' ≠ 0 →
    vmWalk m' dst va / 4096 = vmWalk m' dst va' / 4096 → va / 4096 = va' / 4096
  kept : ∀ l ∈ live, l ≠ dst → ∀ va < 4294967296, vmWalk m' l va = vmWalk m l va ∧
    (vmWalk m l va ≠ 0 → m'.mem (vmWalk m l va) = m.mem (vmWalk m l va))

/-- **A `vm_copy` that returns 0, into an address space without pages, copies every page of the
    parent**, each to a frame that was free, and changes nothing of the other address spaces. -/
theorem vmCopy_copies {dst src : Nat} (inv : Inv m live) (hd : dst ∈ live) (hs : src ∈ live) (hne : dst ≠ src)
    (hempty : ∀ va < 4294967296, vmWalk m dst va = 0) (h0 : (vmCopy m dst src).1 = 0) :
    ForkCopied m (vmCopy m dst src).2 live dst src := by
  obtain ⟨h, hall⟩ := vmCopy_copied inv hd hs hne fun i k f hf => by
    obtain ⟨_, hi, _, hk, _⟩ := id hf
    rw [← pageRef_slot hk] at hf
    exact (vmWalk_ne_zero_iff inv hd (by omega)).2 ⟨f, hf⟩ (hempty _ (by omega))
  replace hall := hall h0
  generalize (vmCopy m dst src).2 = m' at h hall ⊢
  have hiff : ∀ va < 4294967296, vmWalk m' dst va ≠ 0 ↔ vmWalk m src va ≠ 0 := by
    intro va hva
    rw [vmWalk_ne_zero_iff h.inv hd hva, vmWalk_ne_zero_iff inv hs hva]
    refine ⟨fun ⟨f, hf⟩ => ?_, fun hg => hall _ _ hg⟩
    obtain ⟨_, g, hg, _⟩ := h.copies _ _ f hf
    exact ⟨g, hg⟩
  refine ⟨hiff, fun va hva hw => ?_, fun va hva hw l hl va' hva' hw' he => ?_,
    fun va hva va' hva' hw hw' he => ?_, fun l hl hld va hva => ⟨?_, fun hw => ?_⟩⟩
  · obtain ⟨f, hf⟩ := (vmWalk_ne_zero_iff h.inv hd hva).1 ((hiff va hva).2 hw)
    obtain ⟨_, g, hg, hbytes⟩ := h.copies _ _ f hf
    rw [vmWalk_of_holds h.inv hf, vmWalk_of_holds inv hg]
    exact hbytes _ (by omega)
  · exact (h.copies _ _ _ (vmWalk_frame h.inv hd hva hw)).1
      (he ▸ inv.owns.alloc _ _ (vmWalk_frame inv hl hva' hw'))
  · have hr := h.inv.owns.uniq _ _ _ (vmWalk_frame h.inv hd hva hw) (he ▸ vmWalk_frame h.inv hd hva' hw')
    simp only [pageRef, Ref.page.injEq, l1Index, l2Index] at hr
    omega
  · exact vmWalk_congr inv h.inv hl hva fun f => h.page_iff hld
  · exact h.bytes _ _ rfl (vmWalk_frame inv hl hva hw)

/-- The memory of the first boot with an address space that has pages at 0x10000 and 0x110000, and
    something in the first. -/
def parentL1 : Nat := (vmCreate (bootMm tinyBoot)).1

def twoPages : Mm := (mapFresh (mapFresh (vmCreate (bootMm tinyBoot)).2 parentL1 0x10000).2 parentL1 0x110000).2

def parentMm : Mm :=
  { twoPages with mem := twoPages.mem.w8 (vmWalk twoPages parentL1 0x10004) 7 }

theorem vmCreate_empty (inv : Inv m live) (h : (vmCreate m).1 ≠ 0) :
    Inv (vmCreate m).2 (insert (vmCreate m).1 live) ∧
    ∀ va < 4294967296, vmWalk (vmCreate m).2 (vmCreate m).1 va = 0 := by
  obtain ⟨_, hfresh, hinv, hpages, _⟩ := (vmCreate_cases inv).resolve_left fun hc => h hc.1
  exact ⟨hinv, fun va hva => vmWalk_eq_zero hinv (Set.mem_insert _ _) hva fun f hf =>
    hfresh ((hpages _ f rfl).1 hf).1⟩

theorem vmCopy_copies_page : vmWalk (vmCreate parentMm).2 parentL1 0x110000 ≠ 0 ∧
    (vmCreate parentMm).2.mem (vmWalk (vmCreate parentMm).2 parentL1 0x10004) = 7 ∧
    ForkCopied (vmCreate parentMm).2 (vmCopy (vmCreate parentMm).2 (vmCreate parentMm).1 parentL1).2
      {(vmCreate parentMm).1, parentL1} (vmCreate parentMm).1 parentL1 := by
  have inv1 : Inv (vmCreate (bootMm tinyBoot)).2 {parentL1} := by
    rw [← insert_empty_eq]
    exact (vmCreate_empty (bootMm_inv tinyBoot (by decide +kernel)) (by decide +kernel)).1
  have hmap : ∀ m va, Inv m {parentL1} → Inv (mapFresh m parentL1 va).2 {parentL1} := fun m va inv => by
    rcases mapFresh_cases va inv (Set.mem_singleton _) with ⟨_, ev⟩ | ⟨_, _, _, _, ev⟩
    · exact ev.inv
    · exact ev.inv
  have hne : vmWalk twoPages parentL1 0x10004 ≠ 0 := by decide +kernel
  have inv' : Inv twoPages {parentL1} := hmap _ _ (hmap _ _ inv1)
  have ev := inv'.store8 (Set.mem_singleton _) (show 0x10004 < 4294967296 by decide) hne 7
  have inv2 : Inv parentMm {parentL1} := ev.inv
  obtain ⟨inv, hempty⟩ := vmCreate_empty inv2 (by decide +kernel)
  exact ⟨by decide +kernel, by decide +kernel, vmCopy_copies inv (.inl rfl) (.inr rfl) (by decide +kernel) hempty
    (by decide +kernel)⟩

/-! ## `munmap` -/

/-- The frames that the loop of `sys_munmap` hands to `pmm_free_page`, in order. -/
def unmapFreed (m : Mm) (l : Nat) : List Nat → List Nat
  | [] => []
  | va :: vas =>
    (if vmWalk m l va = 0 then [] else [vmWalk m l va / 4096]) ++ unmapFreed (unmapFree m l va) l vas

/-- The loop frees what backs its pages, each frame once, and nothing else. -/
theorem unmapFreed_spec (hl : l ∈ live) (vas : List Nat) :
    ∀ m : Mm, Inv m live → (∀ va ∈ vas, va < 4294967296) → (unmapFreed m l vas).Nodup ∧
      (∀ f, f ∈ unmapFreed m l vas ↔ ∃ va ∈ vas, m.holds live (pageRef l va) f) ∧
      ∀ f, (unmapList m l vas).used f ↔ m.used f ∧ f ∉ unmapFreed m l vas := by
  induction vas with
  | nil =>
    intro m _ _
    exact ⟨nodup_nil, by simp [unmapFreed], by simp [unmapFreed, unmapList]⟩
  | cons va vas ih => ?_
  intro m inv hvas
  have hva := hvas va mem_cons_self
  have ev := unmapFree_spec inv hl hva
  obtain ⟨hnd, hmem, hused⟩ := ih _ ev.inv (forall_mem_cons.1 hvas).2
  have hrest : ∀ f, f ∈ unmapFreed (unmapFree m l va) l vas ↔
      ∃ v ∈ vas, pageRef l v ≠ pageRef l va ∧ m.holds live (pageRef l v) f := fun f => by
    rw [hmem f]
    exact exists_congr fun v => and_congr_right fun _ => ev.pages _ f rfl
  by_cases hw : vmWalk m l va = 0
  · have hno : ∀ f, ¬ m.holds live (pageRef l va) f :=
      fun f hf => (vmWalk_ne_zero_iff inv hl hva).2 ⟨f, hf⟩ hw
    have heq : unmapFree m l va = m := by rw [unmapFree, if_pos hw]
    simp only [unmapFreed, if_pos hw, nil_append, unmapList]
    rw [heq] at hnd hmem hused ⊢
    refine ⟨hnd, fun f => ?_, hused⟩
    rw [hmem f]
    simp [hno f]
  have hf0 := vmWalk_frame inv hl hva hw
  generalize hdiv : vmWalk m l va / 4096 = f0 at hf0
  have hown : ∀ f, m.holds live (pageRef l va) f ↔ f = f0 := fun f =>
    ⟨fun h => h.2.2.2.2.2.trans hf0.2.2.2.2.2.symm, fun h => h ▸ hf0⟩
  have hfree : ∀ f, (unmapFree m l va).used f ↔ m.used f ∧ f ≠ f0 := fun f => by
    have h := (pmmFreePage_spec (vmUnmapPage m l va).2 (vmWalk m l va)
      (vmUnmapPage_spec inv hf0).1.inv.pmm).used f
    rw [hdiv] at h
    rw [unmapFree, if_neg hw, h]
    simp only [vmUnmapPage]
    split
    · rfl
    split <;> rfl
  simp only [unmapFreed, if_neg hw, hdiv, singleton_append, unmapList]
  refine ⟨nodup_cons.2 ⟨fun h => ?_, hnd⟩, fun f => ?_, fun f => ?_⟩
  · obtain ⟨v, _, hne, hv⟩ := (hrest f0).1 h
    exact hne (inv.owns.uniq _ _ _ hv hf0)
  · rw [mem_cons, hrest f]
    constructor
    · rintro (rfl | ⟨v, hv, _, h⟩)
      · exact ⟨va, mem_cons_self .., hf0⟩
      exact ⟨v, mem_cons_of_mem _ hv, h⟩
    rintro ⟨v, hv, h⟩
    by_cases hne : pageRef l v = pageRef l va
    · exact .inl ((hown f).1 (hne ▸ h))
    refine .inr ⟨v, (mem_cons.1 hv).resolve_left ?_, hne, h⟩
    rintro rfl
    exact hne rfl
  rw [hused f, hfree f, mem_cons, not_or, and_assoc]

end Walk

section Munmap

variable {k : KState}

/-- The pages the loop of `sys_munmap` visits. -/
def munmapPages (addr len : Nat) : List Nat := pagesBetween addr (pageUp (add32 addr len))

/-- The page at `va` belongs to the range `[addr, addr + len)`. -/
def inRange (addr len va : Nat) : Prop :=
  va < 4294967296 ∧ va % 4096 = 0 ∧ addr ≤ va ∧ va < addr + len

/-- What a `munmap` of `[addr, addr + len)` should have done: the pages of the range are gone, every
    other page is mapped as it was, and the frames that backed the range went back to the allocator,
    each of them once and no others. -/
structure Unmapped (k k' : KState) (addr len : Nat) : Prop where
  gone : ∀ va, inRange addr len va → vmWalk k'.mm k.proc.l1Pa va = 0
  kept : ∀ va, va < 4294967296 → va % 4096 = 0 → ¬ inRange addr len va →
    vmWalk k'.mm k.proc.l1Pa va = vmWalk k.mm k.proc.l1Pa va
  once : (unmapFreed k.mm k.proc.l1Pa (munmapPages addr len)).Nodup
  backed : ∀ f, f ∈ unmapFreed k.mm k.proc.l1Pa (munmapPages addr len) ↔
    ∃ va, inRange addr len va ∧ vmWalk k.mm k.proc.l1Pa va = f * 4096 ∧ f ≠ 0
  used : ∀ f, k'.mm.used f ↔
    k.mm.used f ∧ f ∉ unmapFreed k.mm k.proc.l1Pa (munmapPages addr len)

theorem mem_munmapPages (hal : addr % 4096 = 0)
    (hend : addr + len ≤ 0xFFFFF000) (va : Nat) : va ∈ munmapPages addr len ↔ inRange addr len va := by
  unfold munmapPages pagesBetween pageRange inRange
  have hstop : pageUp (add32 addr len) = (addr + len + 4095) / 4096 * 4096 := by
    unfold pageUp pageDown add32
    omega
  rw [hstop]
  simp only [mem_map, mem_range, add32]
  constructor
  · rintro ⟨i, hi, rfl⟩
    omega
  rintro ⟨h1, h2, h3, h4⟩
  exact ⟨(va - addr) / 4096, by omega, by omega⟩

theorem munmapPages_nil (hlen : len < 4294967296)
    (hal : addr % 4096 = 0) (hend : 0xFFFFF000 < addr + len) : munmapPages addr len = [] := by
  have hstop : pageUp (add32 addr len) - addr = 0 := by
    unfold pageUp pageDown add32
    omega
  simp [munmapPages, pagesBetween, hstop, pageRange]

/-- **`munmap` does what it reports** exactly when the end of the range does not wrap, or nothing
    in the range is mapped. -/
theorem munmap_unmaps_iff (inv : Inv k.mm k.live) (hl : k.proc.l1Pa ∈ k.live) (addr len : UInt32)
    (h0 : (sysMunmap k addr.toNat len.toNat).1 = 0) :
    Unmapped k (sysMunmap k addr.toNat len.toNat).2 addr.toNat len.toNat ↔
      addr.toNat + len.toNat ≤ 0xFFFFF000 ∨
        ∀ va, inRange addr.toNat len.toNat va → vmWalk k.mm k.proc.l1Pa va = 0 := by
  have hlen := len.toNat_lt
  generalize addr.toNat = a at *
  generalize len.toNat = n at *
  have hal : a % 4096 = 0 := by
    by_contra hne
    rw [sysMunmap, if_pos hne] at h0
    cases h0
  have hk' : (sysMunmap k a n).2.mm = unmapList k.mm k.proc.l1Pa (munmapPages a n) := by
    rw [sysMunmap, if_neg (by omega)]
    simp only
    split <;> rfl
  have hlt : ∀ va ∈ munmapPages a n, va < 4294967296 := fun va hva => mem_pageRange_lt hva
  have ev := unmapList_spec hl (munmapPages a n) k.mm inv hlt
  obtain ⟨hnd, hmem, hused⟩ := unmapFreed_spec hl (munmapPages a n) k.mm inv hlt
  rw [← hk'] at ev hused
  -- the page table in terms of the pages visited
  have hwalk : ∀ va, va < 4294967296 → va % 4096 = 0 → vmWalk (sysMunmap k a n).2.mm k.proc.l1Pa va
      = if va ∈ munmapPages a n then 0 else vmWalk k.mm k.proc.l1Pa va := by
    intro va hva hvm
    split
    · next hin =>
      exact vmWalk_eq_zero ev.inv hl hva fun f hf => ((ev.pages _ f rfl).1 hf).1 va hin rfl
    rename_i hin
    refine vmWalk_congr inv ev.inv hl hva fun f => ?_
    rw [ev.pages _ f rfl]
    refine and_iff_right fun v hv he => hin ?_
    have hvm' : v % 4096 = 0 := by
      simp only [munmapPages, pagesBetween, pageRange, mem_map, add32] at hv
      omega
    rwa [(pageRef_eq_iff hvm hvm').1 he]
  have hheld : ∀ va f, inRange a n va →
      (vmWalk k.mm k.proc.l1Pa va = f * 4096 ∧ f ≠ 0 ↔ k.mm.holds k.live (pageRef k.proc.l1Pa va) f) := by
    intro va f hr
    obtain ⟨hva, hvm, _⟩ := hr
    constructor
    · rintro ⟨hw, hf⟩
      have hg := vmWalk_frame inv hl hva (by omega)
      rwa [hw, Nat.mul_div_cancel f (by omega)] at hg
    · intro hf
      have := inv.frame_pos hf
      rw [vmWalk_of_holds inv hf]
      omega
  by_cases hend : a + n ≤ 0xFFFFF000
  · have hin := mem_munmapPages hal hend
    refine iff_of_true ⟨fun va hr => ?_, fun va hva hvm hr => ?_, hnd, fun f => ?_, hused⟩ (.inl hend)
    · rw [hwalk va hr.1 hr.2.1, if_pos ((hin va).2 hr)]
    · rw [hwalk va hva hvm, if_neg fun h => hr ((hin va).1 h)]
    · rw [hmem f]
      exact exists_congr fun va => by rw [hin va]; exact and_congr_right fun hr => (hheld va f hr).symm
  have hnil := munmapPages_nil hlen hal (by omega)
  simp only [hnil, not_mem_nil, if_false] at hwalk
  refine ⟨fun h => .inr fun va hr => ?_, fun h => ?_⟩
  · rw [← hwalk va hr.1 hr.2.1]
    exact h.gone va hr
  have hno := h.resolve_left hend
  refine ⟨fun va hr => ?_, fun va hva hvm _ => hwalk va hva hvm, hnd, fun f => ?_, hused⟩
  · rw [hwalk va hr.1 hr.2.1, hno va hr]
  rw [hmem f, hnil]
  refine iff_of_false (by simp) ?_
  rintro ⟨va, hr, hw, hf⟩
  rw [hno va hr] at hw
  omega

/-- The first program unmaps its one page. -/
theorem munmap_unmaps_image : (sysMunmap tiny 0x10000 0x1000).1 = 0 ∧
      Unmapped tiny (sysMunmap tiny 0x10000 0x1000).2 0x10000 0x1000 :=
  have h0 : (sysMunmap tiny 0x10000 0x1000).1 = 0 := by decide +kernel
  have hnew := booted_fresh tiny_booted
  ⟨h0, (munmap_unmaps_iff hnew.inv.fs.mm (hnew.inv.cur_mem hnew.run) 0x10000 0x1000 h0).2 (.inl (by decide))⟩

/-- `munmap(0x10000, 0xFFFF0000)` reports success and leaves the page mapped. -/
theorem munmap_wraps : (sysMunmap tiny 0x10000 0xFFFF0000).1 = 0 ∧ inRange 0x10000 0xFFFF0000 0x10000 ∧
      vmWalk (sysMunmap tiny 0x10000 0xFFFF0000).2.mm tiny.proc.l1Pa 0x10000 ≠ 0 := by
  unfold inRange
  decide +kernel

end Munmap

/-! ## `readv` -/

section Readv

variable {k : KState}

theorem sysRead_data (fd : Int) (n : Nat) (input : Bytes) :
    ((sysRead k fd n input).1.1 < 0 ∧ (sysRead k fd n input).1.2 = []) ∨
      (sysRead k fd n input).1.1 = (sysRead k fd n input).1.2.length := by
  unfold sysRead
  split
  · exact .inl ⟨by simp, rfl⟩
  simp only
  split
  · exact .inr rfl
  split
  · unfold KState.withFs ramfsPipeRead
    simp only
    split
    · exact .inl ⟨by simp, rfl⟩
    exact .inr rfl
  split
  · exact .inl ⟨by simp, rfl⟩
  · exact (ramfsRead_length ..).imp_right fun h => h.1

theorem sysReadv_single (fd : Int) (hn : n ≠ 0) (input : Bytes) :
    sysReadv k fd [n] input = sysRead k fd n input := by
  have hd := sysRead_data (k := k) fd n input
  simp only [sysReadv, readvLoop, if_neg hn, nil_append]
  generalize sysRead k fd n input = r at hd ⊢
  obtain ⟨⟨v, d⟩, k'⟩ := r
  simp only at hd ⊢
  rcases hd with ⟨hneg, rfl⟩ | rfl
  · rw [if_pos hneg]
    rfl
  rw [if_neg (by omega)]
  split <;> rfl

/-- The descriptor is a blocking one of an empty pipe that has a writer. -/
def awaitsWriter (k : KState) (fd : Int) : Prop :=
  ∃ p f, fdFile k fd = some (p, f) ∧ (k.inodes f.inode).type = .pipe ∧ f.flags &&& oNonblock = 0 ∧
    (k.inodes f.inode).size = 0 ∧ (k.inodes f.inode).wrOpen > 0

theorem readBlockChan_isSome {fd : Int} (hn : n ≠ 0) :
    (∃ c, readBlockChan k fd n = some c) ↔ awaitsWriter k fd := by
  unfold readBlockChan awaitsWriter
  rw [if_neg hn]
  cases fdFile k fd with
  | none => simp
  | some pf => ?_
  obtain ⟨p, f⟩ := pf
  simp only
  split
  · next ht => simp [ht]
  rename_i ht
  split
  · next hb => simp [hb]
  rename_i hb
  split
  · next he => simp_all
  · next he => simp_all

theorem pickNext_other {i : Slot} (hi : i ≠ k.cur) (hr : (k.tasks i).state = .runnable) :
    ∃ nx, nx ≠ k.cur ∧ pickNext k = some nx := by
  -- the search starts behind the current slot and comes to it last
  have horder : ∀ c : Slot, (finRange 8).map (fun j => c + j + 1)
      = ((finRange 8).map fun j => c + j + 1).dropLast ++ [c] := by decide
  have hmem : ∀ c i : Slot, i ≠ c ↔ i ∈ ((finRange 8).map fun j => c + j + 1).dropLast := by decide
  have hsome : (((finRange 8).map fun j => k.cur + j + 1).dropLast.find? fun i =>
      decide ((k.procs i).state = .runnable)).isSome :=
    find?_isSome.2 ⟨i, (hmem k.cur i).1 hi, decide_eq_true hr⟩
  obtain ⟨nx, hnx⟩ := Option.isSome_iff_exists.1 hsome
  refine ⟨nx, (hmem k.cur nx).2 (mem_of_find?_eq_some hnx), ?_⟩
  unfold pickNext
  rw [horder k.cur, find?_append, hnx]
  rfl

theorem procSleep_true_iff (c : Chan) :
    (procSleep k c).1 = true ↔ ∃ i, i ≠ k.cur ∧ (k.tasks i).state = .runnable := by
  constructor
  · intro h
    rcases procSleep_cases k c with hno | ⟨nx, hne, hr, _⟩
    · rw [hno] at h
      cases h
    exact ⟨nx, hne, hr⟩
  rintro ⟨i, hi, hr⟩
  obtain ⟨nx, hne, hnx⟩ := pickNext_other hi hr
  rw [procSleep, hnx]
  simp only [if_neg hne]

theorem sysRead_cur (fd : Int) (n : Nat) (input : Bytes) : (sysRead k fd n input).2.cur = k.cur := by
  unfold sysRead
  split
  · rfl
  simp only
  split
  · rfl
  split
  · rfl
  split
  · rfl
  unfold advance
  split <;> rfl

/-- **`readv` of one buffer is `read`** exactly when `read` does not sleep: the descriptor is not a
    blocking one of an empty pipe with a writer, or nobody else can run. -/
theorem readv_eq_read_iff (hrun : k.halted = false) (tf : Trapframe) (fd : Int) {n : UInt32}
    (hn : n ≠ 0) (input : Bytes) :
    step k (.syscall tf (.readv fd [n] input)) = step k (.syscall tf (.read fd n input)) ↔
      ¬ (awaitsWriter k fd ∧ ∃ i, i ≠ k.cur ∧ (k.tasks i).state = .runnable) := by
  have hn' : n.toNat ≠ 0 := fun h => hn (UInt32.toNat_inj.1 h)
  have hwait : awaitsWriter (saveTf k tf) fd ↔ awaitsWriter k fd := by
    have hfds : fdGet (saveTf k tf) fd = fdGet k fd := fdGet_congr (congrFun (saveTf_fds k tf) k.cur)
    unfold awaitsWriter fdFile
    rw [hfds]
    rfl
  have hready : (∃ i, i ≠ k.cur ∧ (k.tasks i).state = .runnable) ↔
      ∃ i, i ≠ (saveTf k tf).cur ∧ ((saveTf k tf).tasks i).state = .runnable := by
    rw [saveTf_tasks]
    rfl
  simp only [step, hrun, Bool.false_eq_true, if_false, syscallTrap, dispatch, map_cons,
    map_nil, sysReadv_single fd hn', trapRead]
  rw [hready, ← hwait, ← readBlockChan_isSome hn']
  generalize saveTf k tf = k0
  cases hc : readBlockChan k0 fd n.toNat with
  | none => simp
  | some c => ?_
  simp only [Option.some.injEq, exists_eq', true_and]
  rw [← procSleep_true_iff c]
  rcases procSleep_cases k0 c with hno | ⟨nx, hne, _, hyes⟩
  · simp [hno]
  rw [hyes]
  -- after the switch another process is the current one
  refine iff_of_false (fun h => hne ?_) (by simp)
  have hk := congrArg (fun o => o.2.cur) h
  exact hk.symm.trans (sysRead_cur fd n.toNat input)

/-- The console of the first program. -/
theorem readv_eq_read_console :
    step tiny (.syscall {} (.readv 0 [2] [104, 10])) = step tiny (.syscall {} (.read 0 2 [104, 10])) := by
  refine (readv_eq_read_iff (booted_fresh tiny_booted).run {} 0 (by decide) _).2 ?_
  rintro ⟨-, i, hi, hr⟩
  revert i
  decide +kernel

/-- The first program with a pipe, and a second process that could write to it. -/
def pipeAndPeer : KState := setState (next tiny (.syscall {} (.pipe2 0x10000))) 1 .runnable

/-- `read` of the empty pipe sleeps, `readv` reports the end of the file. -/
theorem readv_reports_eof : (step pipeAndPeer (.syscall {} (.readv 0 [1] []))).1.ret = 0 ∧
    (step pipeAndPeer (.syscall {} (.readv 0 [1] []))).2.cur = 0 ∧
    (step pipeAndPeer (.syscall {} (.read 0 1 []))).2.cur = 1 := by decide +kernel

end Readv

end Embedded.Kernel
