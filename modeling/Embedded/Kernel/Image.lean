import Embedded.Kernel.Exec
import Embedded.Kernel.FileFrames

/-! # What loading a program does to memory

The loader, the stack builder and `copy_file_into` store through page-table walks, so they touch
frames that are mapped in the address space they work on and no others; the pages the loader maps
lie below the break it reports. -/

namespace Embedded.Kernel

open List

variable {base n pa pageLo : Nat} {out : ElfInfo} {r : Int × ElfInfo}

/-- The address of the page behind entry `k` of slot `i`. -/
def pageVa (i k : Nat) : Nat := i * 1048576 + k * 4096

variable {bias va : Nat}

theorem pageVa_index (h : va % 4096 = 0) : pageVa (l1Index va) (l2Index va) = va := by
  unfold pageVa l1Index l2Index
  omega

theorem mem_pageRange (h : va ∈ pageRange base n)
    (hb : base + n * 4096 ≤ 4294967296) : ∃ i < n, va = base + i * 4096 := by
  simp only [pageRange, mem_map, mem_range, add32] at h
  obtain ⟨i, hi, rfl⟩ := h
  exact ⟨i, hi, by omega⟩

theorem mem_pageRange_lt (h : va ∈ pageRange base n) : va < 4294967296 := by
  simp only [pageRange, mem_map, mem_range, add32] at h
  obtain ⟨i, hi, rfl⟩ := h
  exact Nat.mod_lt _ (by omega)

section Load

variable {m m' : Mm} {live : Set Nat} {l : Nat} {S : Nat → Nat → Prop}

/-- A store to the frame behind a mapped page. -/
theorem Inv.store (inv : Inv m live) (hl : l ∈ live) (hva : va < 4294967296)
    (hne : vmWalk m l va ≠ 0) {mem : Mem}
    (hmem : ∀ x, x / 4096 ≠ vmWalk m l va / 4096 → mem x = m.mem x) :
    Evolves m { m with mem := mem } live (m.holds live) := by
  obtain ⟨f, hf⟩ := (vmWalk_ne_zero_iff inv hl hva).1 hne
  have hdiv : vmWalk m l va / 4096 = f := by rw [vmWalk_of_holds inv hf]; omega
  rw [hdiv] at hmem
  exact (tablesAgree_of_write (inv.not_table_of_page hf) hmem).evolves_mem inv

theorem Inv.store8 (inv : Inv m live) (hl : l ∈ live) (hva : va < 4294967296) (hne : vmWalk m l va ≠ 0)
    (b : UInt8) : Evolves m { m with mem := m.mem.w8 (vmWalk m l va) b } live (m.holds live) :=
  inv.store hl hva hne fun x hx => if_neg fun h => hx (by rw [h])

/-- The frame behind a page address starts at what the walk returns. -/
theorem Inv.vmWalk_aligned (inv : Inv m live) (hl : l ∈ live) (hva : va < 4294967296)
    (hal : va % 4096 = 0) : vmWalk m l va % 4096 = 0 := by
  by_cases hne : vmWalk m l va = 0
  · rw [hne]
  obtain ⟨f, hf⟩ := (vmWalk_ne_zero_iff inv hl hva).1 hne
  rw [vmWalk_of_holds inv hf]
  omega

/-! ## Segments -/

theorem mapSegment_adds (hl : l ∈ live) (vas : List Nat) :
    ∀ m' : Mm, Adds m m' live l S → (∀ va ∈ vas, S (l1Index va) (l2Index va)) →
      Adds m (mapSegment l vas m').2 live l S := by
  induction vas with
  | nil => intro m' h _; exact h
  | cons va vas ih => ?_
  intro m' h hS
  have hS' : ∀ v ∈ vas, S (l1Index v) (l2Index v) := (forall_mem_cons.1 hS).2
  simp only [mapSegment]
  split
  · exact ih m' h hS'
  rcases pmmAllocPage_cases m' h.inv.pmm with ⟨h0, hm⟩ | a
  · rw [if_pos h0, hm]
    exact h
  have hpos := a.pos
  have hfits := a.fits
  have ev := a.evolves h.inv
  have hnew : ¬ m'.used ((pmmAllocPage m').1 / 4096) := a.fresh _ (by omega) (by omega)
  rw [if_neg (by omega)]
  rcases vmMapPage_cases va ev.inv hl a.aligned (by omega)
    (a.loose h.inv (by omega) (by omega)) with ⟨hne, hm⟩ | ⟨h0, _, _, hmaps⟩
  · -- the frame stays with the half-built address space
    rw [if_pos hne, hm]
    exact h.trans (ev.adds l)
  rw [if_neg (by simpa using h0)]
  refine ih _ (h.trans ?_) hS'
  exact (ev.maps hmaps hnew).adds_set (hS va mem_cons_self)

theorem copySegment_evolves (hl : l ∈ live) (bs : Bytes) :
    ∀ (va : Nat) (m : Mm), va < 4294967296 → Inv m live →
      Evolves m (copySegment l bs va m).2 live (m.holds live) := by
  induction bs with
  | nil => intro va m _ inv; exact .refl inv
  | cons b bs ih => ?_
  intro va m hva inv
  simp only [copySegment]
  split
  · exact .refl inv
  rename_i hne
  have ev : Evolves m { m with mem := m.mem.w8 (vmWalk m l va) b } live (m.holds live) := by
    refine inv.store hl hva hne fun x hx => if_neg ?_
    rintro rfl
    exact hx rfl
  exact ev.trans (ih (add32 va 1) _ (Nat.mod_lt _ (by omega)) ev.inv)

/-- The pages a load with result `r` may have mapped: above `bias`, and below the break it
    reports. -/
def segPages (bias : Nat) (r : Int × ElfInfo) (i k : Nat) : Prop :=
  bias ≤ pageVa i k ∧ (r.1 = 0 → pageVa i k < r.2.brkEnd)

/-- A load into `l` that started with `out` and ended with `r`. -/
structure Loads (m m' : Mm) (live : Set Nat) (l bias : Nat) (out : ElfInfo) (r : Int × ElfInfo) :
    Prop extends Adds m m' live l (segPages bias r) where
  mono : out.brkEnd ≤ r.2.brkEnd
  page : out.brkEnd % 4096 = 0 → r.2.brkEnd % 4096 = 0
  bound : out.brkEnd < 4294967296 → r.2.brkEnd < 4294967296

theorem Loads.of_evolves (h : Evolves m m' live (m.holds live)) (hr : r.2.brkEnd = out.brkEnd) :
    Loads m m' live l bias out r :=
  ⟨h.adds l, by rw [hr], by rw [hr]; exact id, by rw [hr]; exact id⟩

theorem Loads.trans {m2 : Mm} {q : Int × ElfInfo}
    (h : Loads m m' live l bias out q) (h' : Loads m' m2 live l bias q.2 r) (h0 : q.1 = 0) :
    Loads m m2 live l bias out r := by
  have hsub : ∀ i k, segPages bias q i k → segPages bias r i k :=
    fun i k hs => ⟨hs.1, fun _ => (hs.2 h0).trans_le h'.mono⟩
  exact ⟨(h.toAdds.mono hsub).trans h'.toAdds, h.mono.trans h'.mono, fun hp => h'.page (h.page hp),
    fun hb => h'.bound (h.bound hb)⟩

theorem loadSegment_loads (inv : Inv m live) (hl : l ∈ live) (img : Bytes)
    (hbias : bias % 4096 = 0) (ph : Nat) (out : ElfInfo) :
    Loads m (loadSegment m l img bias ph out).2 live l bias out (loadSegment m l img bias ph out).1 := by
  have hva : add32 (rd32 img (ph + 8)) bias < 4294967296 := Nat.mod_lt _ (by omega)
  simp only [loadSegment]
  generalize add32 (rd32 img (ph + 8)) bias = vaddr at hva ⊢
  split
  · exact .of_evolves (.refl inv) rfl
  split
  · exact .of_evolves (.refl inv) rfl
  rename_i hchk
  -- recording where the headers land does not move the break
  generalize hout : (if rd32 img 28 ≥ rd32 img (ph + 4) ∧ rd32 img 28 < rd32 img (ph + 4) + rd32 img (ph + 16)
    then { out with phdrVa := add32 vaddr (rd32 img 28 - rd32 img (ph + 4)) } else out) = out'
  have hbrk : out'.brkEnd = out.brkEnd := by
    rw [← hout]
    split <;> rfl
  have hvend := pageUp_lt (add32 vaddr (rd32 img (ph + 20)))
  have hvmod := pageUp_mod (add32 vaddr (rd32 img (ph + 20)))
  generalize pageUp (add32 vaddr (rd32 img (ph + 20))) = vend at hvend hvmod ⊢
  have hstart : pageDown vaddr ≤ vaddr := pageDown_le vaddr
  have hS : ∀ va ∈ pageRange (pageDown vaddr) ((vend - pageDown vaddr) / 4096),
      bias ≤ pageVa (l1Index va) (l2Index va) ∧ pageVa (l1Index va) (l2Index va) < vend := by
    intro va hmem
    obtain ⟨i, hi, rfl⟩ := mem_pageRange hmem (by omega)
    rw [pageVa_index (by unfold pageDown; omega)]
    unfold pageDown at *
    omega
  have hmap := mapSegment_adds (S := fun i k => bias ≤ pageVa i k ∧ pageVa i k < vend) hl _ m (.refl inv) hS
  generalize mapSegment l (pageRange (pageDown vaddr) ((vend - pageDown vaddr) / 4096)) m = r at hmap ⊢
  obtain ⟨e, m1⟩ := r
  split
  · next hne =>
    refine ⟨hmap.mono fun i k hs => ⟨hs.1, fun h0 => absurd h0 hne⟩, ?_, ?_, ?_⟩ <;>
      simp only [hbrk]
    · exact le_rfl
    · exact id
    exact id
  have hcopy := copySegment_evolves hl ((img.drop (rd32 img (ph + 4))).take
    (rd32 img (ph + 16))) vaddr m1 hva hmap.inv
  split
  · next hne =>
    refine ⟨(hmap.trans (hcopy.adds l)).mono fun i k hs => ⟨hs.1, fun h0 => absurd h0 hne⟩,
      ?_, ?_, ?_⟩ <;> simp only [hbrk]
    · exact le_rfl
    · exact id
    exact id
  have hend : ∀ (o : ElfInfo), o = (if vend > out'.brkEnd then { out' with brkEnd := vend } else out') →
      o.brkEnd = max vend out.brkEnd := by
    rintro o rfl
    split
    · simp only
      omega
    omega
  refine ⟨(hmap.trans (hcopy.adds l)).mono fun i k hs => ⟨hs.1, fun _ => ?_⟩, ?_, ?_, ?_⟩ <;>
    rw [hend _ rfl]
  · have := hs.2
    omega
  · omega
  · intro h
    omega
  intro h
  omega

theorem loadPhdrs_loads (hl : l ∈ live) (img : Bytes) (hbias : bias % 4096 = 0)
    (n : Nat) : ∀ (i : Nat) (m : Mm) (out : ElfInfo), Inv m live →
      Loads m (loadPhdrs l img bias n i m out).2 live l bias out (loadPhdrs l img bias n i m out).1 := by
  induction n with
  | zero => intro i m out inv; exact .of_evolves (.refl inv) rfl
  | succ n ih => ?_
  intro i m out inv
  simp only [loadPhdrs]
  generalize rd32 img 28 + i * rd16 img 42 = ph
  split
  · have hbrk : (loadInterp img ph out).2.brkEnd = out.brkEnd := by
      simp only [loadInterp]
      split <;> rfl
    split
    · exact .of_evolves (.refl inv) hbrk
    rename_i h0
    refine Loads.trans (.of_evolves (.refl inv) hbrk) (ih (i + 1) m _ inv) (by simpa using h0)
  split
  · have hs := loadSegment_loads inv hl img hbias ph out
    split
    · exact hs
    next h0 => exact hs.trans (ih (i + 1) _ _ hs.inv) (by simpa using h0)
  exact ih (i + 1) m out inv

theorem elfLoad_loads (inv : Inv m live) (hl : l ∈ live) (img : Bytes) (hbias : bias % 4096 = 0) :
    Loads m (elfLoad m l img bias).2 live l bias {} (elfLoad m l img bias).1 := by
  have hp := loadPhdrs_loads hl img hbias (rd16 img 44) 0 m {} inv
  unfold elfLoad
  split
  · exact .of_evolves (.refl inv) rfl
  generalize loadPhdrs l img bias (rd16 img 44) 0 m {} = r at hp ⊢
  obtain ⟨⟨e, o⟩, m1⟩ := r
  simp only at hp ⊢
  split
  · exact hp
  rename_i h0
  have he : e = 0 := by simpa using h0
  subst he
  exact ⟨hp.toAdds, hp.mono, hp.page, hp.bound⟩

/-! ## Programs -/

variable {fs : Fs}

theorem vfsLoadElf_loads (inv : FsInv fs live) (hl : l ∈ live) (p : Nat) (hbias : bias % 4096 = 0) :
    FsInv (vfsLoadElf fs p l bias).2 live ∧
      Loads fs.mm (vfsLoadElf fs p l bias).2.mm live l bias {} (vfsLoadElf fs p l bias).1 := by
  have hk := kmalloc_step (.refl inv)
  have ev := kmalloc_evolves inv.mm
  unfold vfsLoadElf
  generalize kmalloc fs = r at hk ev ⊢
  obtain ⟨q, fs1⟩ := r
  simp only at hk ev ⊢
  split
  · exact ⟨inv, .of_evolves (.refl inv.mm) rfl⟩
  split
  · exact ⟨inv, .of_evolves (.refl inv.mm) rfl⟩
  split
  · exact ⟨hk.inv, .of_evolves ev rfl⟩
  split
  · exact ⟨hk.inv, .of_evolves ev rfl⟩
  have hload := elfLoad_loads ev.inv hl (ramfsRead fs1 p 0 (fs.inodes p).size).2 hbias
  refine ⟨hk.inv.move hload.inv hload.loose, ?_⟩
  exact Loads.trans (q := (0, {})) (.of_evolves ev rfl) hload rfl

/-- Loading reads the filesystem only. -/
structure SameTree (fs fs' : Fs) : Prop where
  inodes : fs'.inodes = fs.inodes
  root : fs'.root = fs.root

theorem vfsLoadElf_tree (fs : Fs) (p l bias : Nat) : SameTree fs (vfsLoadElf fs p l bias).2 := by
  have hk : SameTree fs (kmalloc fs).2 := ⟨kmalloc_inodes fs, kmalloc_root fs⟩
  simp only [vfsLoadElf]
  split
  · exact ⟨rfl, rfl⟩
  split
  · exact ⟨rfl, rfl⟩
  split
  · exact hk
  split
  · exact hk
  · exact ⟨hk.inodes, hk.root⟩

/-- The pages of a loaded program: its own image below the break, and its interpreter's. -/
def imagePages (lr : LoadResult) (i k : Nat) : Prop :=
  pageVa i k < lr.brkEnd ∨ (interpBase ≤ pageVa i k ∧ pageVa i k < lr.interpEnd)

/-- What a successful load reports. -/
structure LoadResult.Ok (lr : LoadResult) : Prop where
  page : lr.brkEnd % 4096 = 0
  bound : lr.brkEnd < 4294967296
  static : lr.dynamic = false → lr.interpEnd = 0

theorem LoadResult.ofApp_ok {ai : ElfInfo} (hp : ai.brkEnd % 4096 = 0)
    (hb : ai.brkEnd < 4294967296) : (LoadResult.ofApp ai).Ok :=
  ⟨hp, hb, fun _ => rfl⟩

theorem loadProgram_adds (inv : FsInv fs live) (hl : l ∈ live) (app : Nat) :
    FsInv (loadProgram fs l app).2 live ∧
    Adds fs.mm (loadProgram fs l app).2.mm live l
      (fun i k => (loadProgram fs l app).1.1 = 0 → imagePages (loadProgram fs l app).1.2 i k) ∧
    ((loadProgram fs l app).1.1 = 0 → (loadProgram fs l app).1.2.Ok) := by
  simp only [loadProgram]
  split
  · exact ⟨inv, .refl inv.mm, nofun⟩
  generalize hb : (if rd16 (ramfsRead fs app 0 20).2 16 = 3 then pieBase else 0) = bias
  have hbias : bias % 4096 = 0 := by
    rw [← hb]
    split <;> rfl
  obtain ⟨inv1, h₁⟩ := vfsLoadElf_loads inv hl app hbias
  generalize vfsLoadElf fs app l bias = r at inv1 h₁ ⊢
  obtain ⟨⟨e, ai⟩, fs1⟩ := r
  split
  · next hne => exact ⟨inv1, h₁.toAdds.mono fun i k _ h0 => absurd h0 hne, fun h0 => absurd h0 hne⟩
  rename_i h0
  have he : e = 0 := by simpa using h0
  have hok := LoadResult.ofApp_ok (h₁.page rfl) (h₁.bound (by decide))
  have hlow : ∀ i k, segPages bias (e, ai) i k → pageVa i k < ai.brkEnd := fun i k hs => hs.2 he
  split
  · exact ⟨inv1, h₁.toAdds.mono fun i k hs _ => .inl (hlow i k hs), fun _ => hok⟩
  split
  · exact ⟨inv1, h₁.toAdds.mono fun i k hs _ => .inl (hlow i k hs), nofun⟩
  generalize ramfsLookup fs1 fs1.root ai.interp true = interp
  have hib : interpBase % 4096 = 0 := rfl
  obtain ⟨inv2, h₂⟩ := vfsLoadElf_loads inv1 hl interp hib
  generalize vfsLoadElf fs1 interp l interpBase = s at inv2 h₂ ⊢
  obtain ⟨⟨e', ii⟩, fs2⟩ := s
  -- both images are in the address space now
  have hboth : Adds fs.mm fs2.mm live l
      (fun i k => pageVa i k < ai.brkEnd ∨ segPages interpBase (e', ii) i k) :=
    (h₁.toAdds.mono fun i k hs => .inl (hlow i k hs)).trans (h₂.toAdds.mono fun i k hs => .inr hs)
  split
  · next hne => exact ⟨inv2, hboth.mono fun i k _ h => absurd h hne, fun h => absurd h hne⟩
  rename_i h0'
  have he' : e' = 0 := by simpa using h0'
  split
  · exact ⟨inv2, hboth.mono fun i k _ h => absurd h (by simp), nofun⟩
  refine ⟨inv2, hboth.mono fun i k hs _ => ?_, fun _ =>
    ⟨hok.page, hok.bound, nofun⟩⟩
  exact hs.imp id fun hs => ⟨hs.1, hs.2 he'⟩

theorem loadProgram_tree (fs : Fs) (l app : Nat) : SameTree fs (loadProgram fs l app).2 := by
  simp only [loadProgram]
  split
  · exact ⟨rfl, rfl⟩
  generalize (if rd16 (ramfsRead fs app 0 20).2 16 = 3 then pieBase else 0) = bias
  have h₁ := vfsLoadElf_tree fs app l bias
  generalize vfsLoadElf fs app l bias = r at h₁ ⊢
  split
  · exact h₁
  split
  · exact h₁
  split
  · exact h₁
  generalize ramfsLookup r.2 r.2.root r.1.2.interp true = interp
  have h₂ := vfsLoadElf_tree r.2 interp l interpBase
  generalize vfsLoadElf r.2 interp l interpBase = s at h₂ ⊢
  have h : SameTree fs s.2 := ⟨h₂.inodes.trans h₁.inodes, h₂.root.trans h₁.root⟩
  split
  · exact h
  · split <;> exact h

/-! ## The stack -/

/-- The lowest address of the user stack. -/
def stackBase : Nat := userVaMax - 32 * 4096

theorem mem_stackPages (h : va ∈ stackPages) : stackBase ≤ va ∧ va < userVaMax ∧ va % 4096 = 0 := by
  simp only [stackPages, mem_map, mem_range, userVaMax] at h
  unfold stackBase userVaMax
  omega

theorem mapUserStack_adds (inv : Inv m live) (hl : l ∈ live) :
    Adds m (mapUserStack m l).2 live l (fun i k => stackBase ≤ pageVa i k) := by
  have h := mapPages_adds hl false stackPages inv fun va hva => by
    have := (mem_stackPages hva).2.1
    unfold userVaMax at this
    omega
  refine h.mono fun i k hin => ?_
  obtain ⟨va, hva, heq⟩ := hin
  obtain ⟨hlo, _, hmod⟩ := mem_stackPages hva
  simp only [pageRef, Ref.page.injEq, true_and] at heq
  rw [← heq.1, ← heq.2, pageVa_index hmod]
  exact hlo

/-- The strings go to the frame at `pa`, below `sp`; what is left of the page is above `pageLo`. -/
theorem pushStrings_spec (hlo : 4096 ≤ pageLo) (hhi : pageLo < 4294963200)
    (hpa : pa % 4096 = 0) (ss : List Bytes) :
    ∀ (sp : Nat) (mem : Mem), (∀ s ∈ ss, s.length < 4096) → pageLo ≤ sp → sp ≤ pageLo + 4096 →
      (∀ x, x / 4096 ≠ pa / 4096 → (pushStrings pa pageLo ss sp mem).2 x = mem x) ∧
      (∀ t, (pushStrings pa pageLo ss sp mem).1 = some t → pageLo ≤ t.1 ∧ t.1 ≤ pageLo + 4096) := by
  induction ss with
  | nil =>
    intro sp mem _ h1 h2
    refine ⟨fun _ _ => rfl, fun t ht => ?_⟩
    cases ht
    exact ⟨h1, h2⟩
  | cons s ss ih => ?_
  intro sp mem hlen h1 h2
  have hs := hlen s mem_cons_self
  have hsub : sub32 sp (s.length + 1) = sp - (s.length + 1) := by
    unfold sub32
    omega
  simp only [pushStrings, hsub]
  split
  · exact ⟨fun _ _ => rfl, fun t ht => absurd ht (by simp)⟩
  rename_i hfit
  obtain ⟨hmem, hsp⟩ := ih (sp - (s.length + 1)) (mem.write (pa + (sp - (s.length + 1) - pageLo)) (s ++ [0]))
    (forall_mem_cons.1 hlen).2 (by omega) (by omega)
  refine ⟨fun x hx => ?_, fun t ht => ?_⟩
  · rw [hmem x hx]
    refine Mem.write_of_not_mem ?_
    rintro ⟨h3, h4⟩
    simp only [length_append, length_singleton] at h4
    omega
  simp only [Option.map_eq_some_iff] at ht
  obtain ⟨t', ht', rfl⟩ := ht
  exact hsp t' ht'

theorem writeWords_of_not_mem (ws : List Nat) :
    ∀ (a : Nat) (mem : Mem) (x : Nat), ¬ (a ≤ x ∧ x < a + 4 * ws.length) → writeWords a ws mem x = mem x := by
  induction ws with
  | nil => intro a mem x _; rfl
  | cons w ws ih => ?_
  intro a mem x hx
  simp only [length_cons] at hx
  simp only [writeWords]
  rw [ih (a + 4) _ x (by omega), Mem.w32_of_ne (by omega)]

theorem pushVector_mem (hlo : 4096 ≤ pageLo) (hhi : pageLo < 4294963200)
    (hpa : pa % 4096 = 0) {sp : Nat} (h1 : pageLo ≤ sp) (h2 : sp ≤ pageLo + 4096)
    (argvVa envpVa : List Nat) (lr : LoadResult) :
    ∃ mem, (pushVector m pa pageLo sp argvVa envpVa lr).2 = { m with mem := mem } ∧
      ∀ x, x / 4096 ≠ pa / 4096 → mem x = m.mem x := by
  have hsub : sub32 sp 16 = sp - 16 := by
    unfold sub32
    omega
  unfold pushVector
  simp only [hsub]
  split
  · exact ⟨m.mem, rfl, fun _ _ => rfl⟩
  rename_i hfit
  have hrand : ∀ x, x / 4096 ≠ pa / 4096 →
      m.mem.write (pa + (sp - 16 - pageLo)) ((range 16).map fun i => UInt8.ofNat (0xA5 + i)) x = m.mem x := by
    intro x hx
    refine Mem.write_of_not_mem ?_
    rintro ⟨h3, h4⟩
    simp only [length_map, length_range] at h4
    omega
  generalize m.mem.write (pa + (sp - 16 - pageLo))
    ((range 16).map fun i => UInt8.ofNat (0xA5 + i)) = mem1 at hrand ⊢
  split
  · exact ⟨mem1, rfl, hrand⟩
  split
  · exact ⟨mem1, rfl, hrand⟩
  refine ⟨_, rfl, fun x hx => ?_⟩
  rw [writeWords_of_not_mem _ _ _ _ (by omega), hrand x hx]

theorem setupUserStack_evolves (inv : Inv m live) (hl : l ∈ live) (argv envp : List Bytes)
    (lr : LoadResult) (hargv : ∀ s ∈ argv, s.length < 4096) (henvp : ∀ s ∈ envp, s.length < 4096) :
    Evolves m (setupUserStack m l userVaMax argv envp lr).2 live (m.holds live) := by
  have hlo : pageDown (sub32 userVaMax 1) = 0x3FFFF000 := by decide
  have htop : userVaMax = 0x40000000 := rfl
  unfold setupUserStack
  simp only [hlo]
  rw [htop]
  split
  · exact .refl inv
  rename_i hne
  have hpa : vmWalk m l 0x3FFFF000 % 4096 = 0 := inv.vmWalk_aligned hl (by omega) (by omega)
  have hlow : 4096 ≤ 0x3FFFF000 := by omega
  -- whatever is stored lies in the frame the walk found
  have hstore : ∀ mem : Mem, (∀ x, x / 4096 ≠ vmWalk m l 0x3FFFF000 / 4096 → mem x = m.mem x) →
      Evolves m { m with mem := mem } live (m.holds live) :=
    fun mem hmem => inv.store hl (by omega) hne hmem
  generalize vmWalk m l 0x3FFFF000 = pa at hne hpa hstore ⊢
  split
  · exact .refl inv
  obtain ⟨hmem1, hsp1⟩ := pushStrings_spec hlow (by omega) hpa
    argv.reverse 0x40000000 m.mem (fun s hs => hargv s (mem_reverse.1 hs)) (by omega)
    (by omega)
  generalize pushStrings pa 0x3FFFF000 argv.reverse 0x40000000 m.mem = r at hmem1 hsp1 ⊢
  obtain ⟨o, mem1⟩ := r
  cases o with
  | none => exact hstore _ hmem1
  | some t => ?_
  obtain ⟨sp, argvVa⟩ := t
  obtain ⟨h1, h2⟩ := hsp1 _ rfl
  obtain ⟨hmem2, hsp2⟩ := pushStrings_spec hlow (by omega) hpa
    envp.reverse sp mem1 (fun s hs => henvp s (mem_reverse.1 hs)) h1 h2
  simp only at hmem1 ⊢
  generalize pushStrings pa 0x3FFFF000 envp.reverse sp mem1 = s at hmem2 hsp2 ⊢
  obtain ⟨o', mem2⟩ := s
  have hmem : ∀ x, x / 4096 ≠ pa / 4096 → mem2 x = m.mem x := fun x hx => (hmem2 x hx).trans (hmem1 x hx)
  cases o' with
  | none => exact hstore _ hmem
  | some t' => ?_
  obtain ⟨sp', envpVa⟩ := t'
  obtain ⟨h1', h2'⟩ := hsp2 _ rfl
  obtain ⟨mem3, heq, hmem3⟩ := pushVector_mem
    (by omega) (by omega) hpa h1' h2' argvVa.reverse envpVa.reverse lr
  rw [heq]
  exact hstore mem3 fun x hx => (hmem3 x hx).trans (hmem x hx)

end Load

end Embedded.Kernel
