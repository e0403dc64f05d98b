import Embedded.Toolchain.Ld.SegmentSpans
import Mathlib.Data.List.Pairwise

/-! # What loading by the program headers gives

The file offsets follow from the order in which they are assigned (`placeSec`), so the file parts of
the segments do not overlap. A section can be in a second segment only through a gap that the segment
has closed. Together they say when loading the program headers, in order, gives each section its bytes
at its address: exactly when no loaded section lies in such a gap. -/

namespace Embedded.Toolchain.Ld

open List OutSec

variable {g' g : Seg} {top j : Nat} {file mem : Nat → UInt8}

variable {a fend k : Nat} {s : OutSec} {p : Placed}

variable {g : Seg} {M : OutSec → Prop} {gs : List (Nat × Nat)}

/-! ## File offsets -/

/-- The offsets of the segments' file parts: congruent to the addresses, ascending, below `top`. -/
structure FilesOk (segs : List Seg) (top : Nat) : Prop where
  congruent : ∀ g ∈ segs, g.off % 4096 = g.vaddr % 4096
  top_lt : top < 4294967296
  le_top : ∀ g ∈ segs, g.filesz ≠ 0 → g.off + g.filesz ≤ top
  order : segs.Pairwise fun g g' => g.filesz ≠ 0 → g'.filesz ≠ 0 → g.off + g.filesz ≤ g'.off

theorem segOff_mod (hf : fend < 4294967296) : segOff fend g % 4096 = g.vaddr % 4096 := by
  unfold segOff add32 sub32
  omega

theorem segOff_eq {n : Nat} (h : fend + sub32 g.vaddr fend % 4096 + n < 4294967296) :
    segOff fend g = fend + sub32 g.vaddr fend % 4096 := by exact Nat.mod_eq_of_lt (by omega)

/-- Where the next file part begins. -/
theorem placeSegs_next (hf : fend < 4294967296)
    (hfit : g.filesz ≠ 0 → fend + sub32 g.vaddr fend % 4096 + g.filesz < 4294967296) :
    (if g.filesz ≠ 0 then add32 (segOff fend g) g.filesz else fend) =
        (if g.filesz ≠ 0 then segOff fend g + g.filesz else fend) ∧
      fend ≤ (if g.filesz ≠ 0 then segOff fend g + g.filesz else fend) ∧
      (if g.filesz ≠ 0 then segOff fend g + g.filesz else fend) < 4294967296 ∧
      (g.filesz ≠ 0 → fend ≤ segOff fend g) := by
  by_cases hz : g.filesz ≠ 0
  · have hlt := hfit hz
    have heq := segOff_eq hlt
    simp only [if_pos hz]
    refine ⟨?_, by omega, by omega, fun _ => by omega⟩
    exact Nat.mod_eq_of_lt (by omega)
  rw [if_neg hz, if_neg hz]
  exact ⟨rfl, Nat.le.refl, hf, fun h => absurd h hz⟩

variable {segs : List Seg}

/-- The second pass, from `fend` on. -/
theorem placeSegs_files (hf : fend < 4294967296) (hfit : SegsFit fend segs) :
    FilesOk (placeSegs fend segs) (filesEnd fend segs) ∧ fend ≤ filesEnd fend segs ∧
      ∀ g ∈ placeSegs fend segs, g.filesz ≠ 0 → fend ≤ g.off := by
  induction segs generalizing fend with
  | nil =>
    refine ⟨⟨?_, hf, ?_, List.Pairwise.nil⟩, Nat.le.refl, ?_⟩ <;>
      exact forall_mem_nil _
  | cons g rest ih => ?_
  obtain ⟨hfit, hrest⟩ := hfit
  obtain ⟨heq, hle, hlt, hoff⟩ := placeSegs_next hf hfit
  obtain ⟨hok, hge, hlow⟩ := ih hlt hrest
  rw [placeSegs, filesEnd, heq]
  generalize hfend : (if g.filesz ≠ 0 then segOff fend g + g.filesz else fend) = fend' at *
  have hend : g.filesz ≠ 0 → segOff fend g + g.filesz = fend' := by
    intro hz
    rw [← hfend, if_pos hz]
  refine ⟨⟨?_, hok.top_lt, ?_, ?_⟩, Nat.le_trans hle hge, ?_⟩
  · exact forall_mem_cons.2 ⟨segOff_mod hf, hok.congruent⟩
  · exact forall_mem_cons.2 ⟨fun hz => Nat.le_trans (Nat.le_of_eq (hend hz)) hge, hok.le_top⟩
  · refine List.Pairwise.cons (fun x hx hz hxz => ?_) hok.order
    exact Nat.le_trans (Nat.le_of_eq (hend hz)) (hlow x hx hxz)
  exact forall_mem_cons.2 ⟨hoff, fun x hx hz => Nat.le_trans hle (hlow x hx hz)⟩

theorem filesEnd_cases (hf : fend < 4294967296) (hfit : SegsFit fend segs) : filesEnd fend segs = fend ∨
      ∃ g ∈ placeSegs fend segs, g.filesz ≠ 0 ∧ g.off + g.filesz = filesEnd fend segs := by
  induction segs generalizing fend with
  | nil => exact .inl rfl
  | cons g rest ih => ?_
  obtain ⟨hfit, hrest⟩ := hfit
  obtain ⟨heq, -, hlt, -⟩ := placeSegs_next hf hfit
  rw [placeSegs, filesEnd, heq]
  rcases ih hlt hrest with he | ⟨x, hx, hxe⟩
  · by_cases hz : g.filesz ≠ 0
    · refine .inr ⟨_, mem_cons_self, hz, ?_⟩
      rw [he, if_pos hz]
    rw [if_neg hz] at he ⊢
    exact .inl he
  exact .inr ⟨x, mem_cons_of_mem _ hx, hxe⟩

section Placed

variable {hdrsz : Nat} {segs : List Seg} {mem : Nat → OutSec → Prop}

variable (h : SegsInv segs mem gs)
include h

/-- The first segment takes the headers in, or all segments are placed behind them. -/
theorem placeAll_cases (hfit : ImageFits hdrsz segs) :
    (placeAll hdrsz segs = placeSegs hdrsz segs ∧ imageEnd hdrsz segs = filesEnd hdrsz segs ∧
      SegsFit hdrsz segs) ∨
    ∃ g g' rest, Spans g (mem 0) gs ∧ g'.off = 0 ∧ g'.vaddr % 4096 = 0 ∧ g'.vaddr + hdrsz ≤ g.vaddr ∧
      hdrsz < g'.filesz ∧ g'.filesz < 4294967296 ∧ placeAll hdrsz segs = g' :: placeSegs g'.filesz rest ∧
      imageEnd hdrsz segs = filesEnd g'.filesz rest ∧ SegsFit g'.filesz rest := by
  cases segs with
  | nil => exact .inl ⟨rfl, rfl, trivial⟩
  | cons g rest => ?_
  rw [ImageFits] at hfit
  rw [placeAll, imageEnd]
  by_cases hmap : headersFit hdrsz g = true
  · rw [if_pos hmap] at hfit ⊢
    have hspan := h.spans 0 g rfl
    obtain ⟨hv, -, hf⟩ := mapHeaders_sizes hspan
    obtain ⟨hne, -, hroom⟩ := headersFit_iff.1 hmap
    obtain ⟨hlt, hadd⟩ := mapHeaders_filesz hspan
    rw [if_pos hmap, hadd]
    refine .inr ⟨g, { mapHeaders g with off := 0 }, rest, hspan, rfl, ?_, ?_, ?_, hlt, rfl, rfl, hfit⟩ <;>
      simp only <;> omega
  rw [if_neg hmap] at hfit ⊢
  rw [if_neg hmap]
  exact .inl ⟨rfl, rfl, hfit⟩

section

variable (hh : hdrsz < 4294967296) (hfit : ImageFits hdrsz segs)
include hh hfit

theorem placeAll_files :
    FilesOk (placeAll hdrsz segs) (imageEnd hdrsz segs) ∧ hdrsz ≤ imageEnd hdrsz segs := by
  rcases placeAll_cases h hfit with ⟨hp, he, hf⟩ | ⟨g, g', rest, -, ho, hv, -, hlo, hlt, hp, he, hf⟩
  · rw [hp, he]
    obtain ⟨hok, hge, -⟩ := placeSegs_files hh hf
    exact ⟨hok, hge⟩
  rw [hp, he]
  obtain ⟨hok, hge, hlow⟩ := placeSegs_files hlt hf
  refine ⟨⟨?_, hok.top_lt, ?_, ?_⟩, by omega⟩
  · exact forall_mem_cons.2 ⟨by omega, hok.congruent⟩
  · exact forall_mem_cons.2 ⟨fun _ => by omega, hok.le_top⟩
  refine List.Pairwise.cons (fun x hx _ hxz => ?_) hok.order
  have := hlow x hx hxz
  omega

/-- No section's file bytes reach into the headers. -/
theorem placeAll_headers (hk : (placeAll hdrsz segs)[k]? = some g') (hz : g'.filesz ≠ 0) (hs : mem k s) :
    hdrsz ≤ g'.off + (s.vaddr - g'.vaddr) := by
  rcases placeAll_cases h hfit with ⟨hp, -, hf⟩ | ⟨g, g0, rest, hspan, ho, -, hroom, hlo, hlt, hp, -, hf⟩
  · rw [hp] at hk
    have := (placeSegs_files hh hf).2.2 g' (mem_of_getElem? hk) hz
    omega
  rw [hp] at hk
  cases k with
  | zero =>
    cases hk
    have := (hspan.inside s hs).1
    omega
  | succ k =>
    have := (placeSegs_files hlt hf).2.2 g' (mem_of_getElem? hk) hz
    omega

theorem imageEnd_cases : imageEnd hdrsz segs = hdrsz ∨
      ∃ g ∈ placeAll hdrsz segs, g.filesz ≠ 0 ∧ g.off + g.filesz = imageEnd hdrsz segs := by
  rcases placeAll_cases h hfit with ⟨hp, he, hf⟩ | ⟨g, g', rest, -, ho, -, -, hlo, hlt, hp, he, hf⟩
  · rw [hp, he]
    exact filesEnd_cases hh hf
  rw [hp, he]
  rcases filesEnd_cases hlt hf with hend | ⟨x, hx, hxe⟩
  · exact .inr ⟨g', mem_cons_self, by omega, by omega⟩
  · exact .inr ⟨x, mem_cons_of_mem _ hx, hxe⟩

end

/-! ## The sections in the file -/

omit h in
theorem placeSec_of_member (hdrsz : Nat) (h : SegsInv segs mem gs)
    (hs : mem k s) (hlt : s.vaddr < 4294967296) :
    ∃ g, segs[k]? = some g ∧ placeSec hdrsz segs (s, k) = ⟨s, k, add32 g.off (s.vaddr - g.vaddr)⟩ := by
  obtain ⟨g, hg⟩ : ∃ g, segs[k]? = some g := ⟨_, getElem?_eq_getElem (h.lt k s hs)⟩
  refine ⟨g, hg, ?_⟩
  have hv := ((h.spans k g hg).inside s hs).1
  unfold placeSec
  simp only [hg, sub32]
  rw [show s.vaddr + (4294967296 - g.vaddr) = 4294967296 + (s.vaddr - g.vaddr) by omega,
    Nat.add_mod_left, Nat.mod_eq_of_lt (by omega)]

theorem placeSec_file (hf : FilesOk segs top)
    (hg : segs[k]? = some g) (hs : mem k s) (hn : s.nobits = false) :
    g.filesz ≠ 0 ∧ add32 g.off (s.vaddr - g.vaddr) = g.off + (s.vaddr - g.vaddr) ∧
      g.off + (s.vaddr - g.vaddr) + s.size ≤ g.off + g.filesz ∧ g.off + g.filesz ≤ top := by
  have hspan := h.spans k g hg
  have hin := hspan.inside s hs
  have hfile := hspan.file s hs hn
  have hpos := hspan.pos s hs
  have hz : g.filesz ≠ 0 := by omega
  have htop := hf.le_top g (mem_of_getElem? hg) hz
  have hlt := hf.top_lt
  refine ⟨hz, ?_, by omega, htop⟩
  exact Nat.mod_eq_of_lt (by omega)

/-- Sections that share no address share no file byte. -/
theorem placeSec_apart (hf : FilesOk segs top) {t : OutSec} (hg : segs[k]? = some g) (hg' : segs[j]? = some g')
    (hs : mem k s) (ht : mem j t) (hsn : s.nobits = false) (htn : t.nobits = false) (hst : s.Apart t) :
    g.off + (s.vaddr - g.vaddr) + s.size ≤ g'.off + (t.vaddr - g'.vaddr) ∨
      g'.off + (t.vaddr - g'.vaddr) + t.size ≤ g.off + (s.vaddr - g.vaddr) := by
  obtain ⟨hz, -, hle, -⟩ := placeSec_file h hf hg hs hsn
  obtain ⟨hz', -, hle', -⟩ := placeSec_file h hf hg' ht htn
  obtain ⟨hk, rfl⟩ := List.getElem?_eq_some_iff.1 hg
  obtain ⟨hj, rfl⟩ := List.getElem?_eq_some_iff.1 hg'
  have horder := pairwise_iff_getElem.1 hf.order
  rcases Nat.lt_trichotomy k j with hkj | rfl | hkj
  · have := horder k j hk hj hkj hz hz'
    exact .inl (by omega)
  · have hsi := ((h.spans k _ hg).inside s hs).1
    have hti := ((h.spans k _ hg).inside t ht).1
    rcases hst with hst | hst
    · exact .inl (by omega)
    exact .inr (by omega)
  have := horder j k hj hk hkj hz' hz
  exact .inr (by omega)

end Placed

variable {ps : List Placed}

theorem loadedEnd_eq (htop : top < 4294967296)
    (hle : ∀ p ∈ ps, p.sec.alloc = true → p.sec.nobits = false → p.off + p.sec.size ≤ top)
    (hf : fend ≤ top)
    (hat : fend = top ∨ ∃ p ∈ ps, p.sec.alloc = true ∧ p.sec.nobits = false ∧ p.off + p.sec.size = top) :
    loadedEnd fend ps = top := by
  induction ps generalizing fend with
  | nil =>
    rcases hat with hat | ⟨p, hp, -⟩
    · exact hat
    cases hp
  | cons p rest ih => ?_
  simp only [mem_cons, exists_eq_or_imp] at hat
  rw [loadedEnd]
  have hrest : ∀ q ∈ rest, q.sec.alloc = true → q.sec.nobits = false →
      q.off + q.sec.size ≤ top := (forall_mem_cons.1 hle).2
  by_cases hfile : p.sec.alloc = true ∧ p.sec.nobits = false
  · have hp := hle p mem_cons_self hfile.1 hfile.2
    have hadd : add32 p.off p.sec.size = p.off + p.sec.size := Nat.mod_eq_of_lt (by omega)
    simp only [hfile.1, hfile.2, hadd, Bool.not_false, Bool.true_and, decide_eq_true_eq]
    split
    next hlt =>
      refine ih hrest hp ?_
      rcases hat with hat | hat | hat
      · omega
      · exact .inl hat.2.2
      exact .inr hat
    next hge =>
    refine ih hrest hf ?_
    rcases hat with hat | hat | hat
    · exact .inl hat
    · exact .inl (by omega)
    exact .inr hat
  have hskip : (p.sec.alloc && !p.sec.nobits) = false := by
    cases ha : p.sec.alloc <;> cases hb : p.sec.nobits <;> simp_all
  rw [hskip, Bool.false_and, if_neg Bool.false_ne_true]
  refine ih hrest hf ?_
  rcases hat with hat | hat | hat
  · exact .inl hat
  · exact absurd ⟨hat.1, hat.2.1⟩ hfile
  exact .inr hat

theorem le_alignup {x : Nat} (h : x + (a - 1) < 4294967296) : x ≤ alignup x a := by
  unfold alignup
  split
  · have hand : add32 x (a - 1) &&& (a - 1) ≤ a - 1 := Nat.and_le_right
    have hadd : add32 x (a - 1) = x + (a - 1) := Nat.mod_eq_of_lt h
    simp only [hadd] at hand ⊢
    omega
  exact Nat.le_refl x

theorem nonallocOffsets_keys (fend : Nat) (ps : List Placed) :
    (nonallocOffsets fend ps).map (fun p => (p.sec, p.seg)) = ps.map (fun p => (p.sec, p.seg)) := by
  induction ps generalizing fend with
  | nil => rfl
  | cons p rest ih => ?_
  rw [nonallocOffsets]
  split
  · rw [map_cons, map_cons, ih]
  · rw [map_cons, map_cons, ih]

theorem mem_of_mem_nonallocOffsets (hp : p ∈ nonallocOffsets fend ps) (ha : p.sec.alloc = true) : p ∈ ps := by
  induction ps generalizing fend with
  | nil => exact hp
  | cons q rest ih => ?_
  rw [nonallocOffsets] at hp
  split at hp
  · rcases mem_cons.1 hp with rfl | hp
    · exact mem_cons_self
    exact mem_cons_of_mem _ (ih hp)
  next hq =>
  rcases mem_cons.1 hp with rfl | hp
  · exact absurd ha hq
  · exact mem_cons_of_mem _ (ih hp)

/-- What is not loaded lies behind what is, in the order of the sections. -/
theorem nonallocOffsets_files (hfend : fend < 4294967296) (hpair : ps.Pairwise fun p q =>
      p.sec.alloc = true → q.sec.alloc = true → p.sec.nobits = false → q.sec.nobits = false →
        p.off + p.sec.size ≤ q.off ∨ q.off + q.sec.size ≤ p.off)
    (hle : ∀ p ∈ ps, p.sec.alloc = true → p.sec.nobits = false → p.off + p.sec.size ≤ fend)
    (hfit : NonallocFit fend (ps.map Placed.sec)) :
    ((nonallocOffsets fend ps).Pairwise fun p q =>
      p.sec.nobits = false → q.sec.nobits = false → p.off + p.sec.size ≤ q.off ∨ q.off + q.sec.size ≤ p.off) ∧
      ∀ q ∈ nonallocOffsets fend ps, q.sec.alloc = false → fend ≤ q.off := by
  induction ps generalizing fend with
  | nil => exact ⟨List.Pairwise.nil, forall_mem_nil _⟩
  | cons p rest ih => ?_
  obtain ⟨hhead, hpair⟩ := pairwise_cons.1 hpair
  have hrest : ∀ q ∈ rest, q.sec.alloc = true → q.sec.nobits = false →
      q.off + q.sec.size ≤ fend := (forall_mem_cons.1 hle).2
  rw [map_cons, NonallocFit] at hfit
  rw [nonallocOffsets]
  by_cases ha : p.sec.alloc = true
  · rw [if_pos ha] at hfit ⊢
    obtain ⟨hfiles, hge⟩ := ih hfend hpair hrest hfit
    refine ⟨List.Pairwise.cons (fun q hq hpn hqn => ?_) hfiles, ?_⟩
    · cases hqa : q.sec.alloc with
      | true => exact hhead q (mem_of_mem_nonallocOffsets hq hqa) ha hqa hpn hqn
      | false =>
        exact .inl (Nat.le_trans (hle p mem_cons_self ha hpn) (hge q hq hqa))
    intro q hq hqa
    rcases mem_cons.1 hq with rfl | hq
    · rw [ha] at hqa
      cases hqa
    exact hge q hq hqa
  rw [if_neg ha] at hfit ⊢
  obtain ⟨⟨hal, hend⟩, hfit⟩ := hfit
  have hup := le_alignup hal
  have hadd : add32 (alignup fend p.sec.align) p.sec.size =
      alignup fend p.sec.align + p.sec.size := Nat.mod_eq_of_lt hend
  simp only [hadd]
  obtain ⟨hfiles, hge⟩ := ih hend hpair
    (fun q hq hqa hqn => Nat.le_trans (hrest q hq hqa hqn) (by omega)) hfit
  refine ⟨List.Pairwise.cons (fun q hq hpn hqn => ?_) hfiles, ?_⟩
  · cases hqa : q.sec.alloc with
    | true =>
      have := hrest q (mem_of_mem_nonallocOffsets hq hqa) hqa hqn
      exact .inr (Nat.le_trans this hup)
    | false => exact .inl (hge q hq hqa)
  intro q hq hqa
  rcases mem_cons.1 hq with rfl | hq
  · exact hup
  have := hge q hq hqa
  omega

/-! ## Loading -/

theorem load_of_not_holds (hle : ∀ g ∈ segs, g.filesz ≤ g.memsz) (hnot : ∀ g ∈ segs, ¬ g.holds a) :
    load file mem segs a = mem a := by
  induction segs generalizing mem with
  | nil => rfl
  | cons g rest ih => ?_
  rw [load, ih (forall_mem_cons.1 hle).2 (forall_mem_cons.1 hnot).2]
  have hg := hnot g mem_cons_self
  have hl := hle g mem_cons_self
  unfold Seg.holds at hg
  rw [loadSeg, if_neg (by omega), if_neg (by omega)]

/-- An address that only one segment holds has that segment's contents. -/
theorem load_of_only (hle : ∀ g ∈ segs, g.filesz ≤ g.memsz) (hk : segs[k]? = some g) (hin : g.holds a)
    (honly : ∀ j g', segs[j]? = some g' → g'.holds a → j = k) :
    load file mem segs a = if a < g.vaddr + g.filesz then file (g.off + (a - g.vaddr)) else 0 := by
  induction segs generalizing mem k with
  | nil => simp at hk
  | cons x rest ih => ?_
  rw [load]
  have hrest : ∀ y ∈ rest, y.filesz ≤ y.memsz := (forall_mem_cons.1 hle).2
  cases k with
  | zero =>
    obtain rfl := Option.some.inj hk
    rw [load_of_not_holds hrest]
    · obtain ⟨hlow, hhigh⟩ := hin
      by_cases hf : a < x.vaddr + x.filesz
      · rw [loadSeg, if_pos ⟨hlow, hf⟩, if_pos hf]
      rw [loadSeg, if_neg (fun h => hf h.2), if_pos ⟨hlow, hhigh⟩, if_neg hf]
    intro y hy hya
    obtain ⟨j, hj⟩ := getElem?_of_mem hy
    exact absurd (honly (j + 1) y hj hya) (by omega)
  | succ k =>
    refine ih hrest hk fun j g' hj hg' => ?_
    have := honly (j + 1) g' hj hg'
    omega

/-! ## One segment for each section -/

section Alone

variable {segs : List Seg} {mem : Nat → OutSec → Prop}

/-- Where no gap is occupied, no other segment holds an address of a section. -/
theorem SegsInv.alone (h : SegsInv segs mem gs) (huniq : ∀ k j s t, mem k s → mem j t → k = j ∨ s.Apart t)
    (hs : mem k s) (hclear : ∀ ab ∈ gs, ab.2 ≤ ab.1 ∨ s.vaddr + s.size ≤ ab.1 ∨ ab.2 ≤ s.vaddr) (hj : segs[j]? = some g) (ha : s.covers a) (hga : g.holds a) :
    j = k := by
  obtain ⟨hlow, hhigh⟩ := ha
  rcases (h.spans j g hj).cover a hga with ⟨t, ht, htlow, hthigh⟩ | ⟨ab, hab, hlow', hhigh'⟩
  · rcases huniq k j s t hs ht with hkj | hst | hst
    · exact hkj.symm
    · omega
    omega
  have := hclear ab hab
  omega

/-- A section in a gap is in the gap's segment, too. -/
theorem SegsInv.clear (h : SegsInv segs mem gs) (hs : mem k s)
    (halone : ∀ j g, segs[j]? = some g → (∃ a, s.covers a ∧ g.holds a) → j = k)
    {ab : Nat × Nat} (hab : ab ∈ gs) :
    ab.2 ≤ ab.1 ∨ s.vaddr + s.size ≤ ab.1 ∨ ab.2 ≤ s.vaddr := by
  obtain ⟨j, g, hj, hin⟩ := h.gaps ab hab
  by_contra hno
  have hlow := hin.low
  have hhigh := hin.high
  have hpos : 0 < s.size := by
    obtain ⟨g', hg'⟩ : ∃ g', segs[k]? = some g' := ⟨_, getElem?_eq_getElem (h.lt k s hs)⟩
    exact (h.spans k g' hg').pos s hs
  -- the larger of the two lower ends is in both
  have hjk : j = k := by
    refine halone j g hj ⟨max ab.1 s.vaddr, ?_, ?_⟩
    · unfold covers
      omega
    unfold Seg.holds
    omega
  subst hjk
  have := hin.clear s hs
  omega

end Alone

/-! ## The program headers describe the layout -/

section Main

variable {hdrsz : Nat} {st : List Stmt}

/-- `s` is in segment `k`. -/
def inSeg (st : List Stmt) (k : Nat) (s : OutSec) : Prop :=
  (addSections ⟨[], []⟩ (emitted st)).member k s

theorem emitted_pos (hs : s ∈ emitted st) : 0 < s.size := by
  induction st with
  | nil => cases hs
  | cons x rest ih => ?_
  cases x with
  | other => exact ih hs
  | outsec discard os => ?_
  rw [emitted] at hs
  split at hs
  · exact ih hs
  next hsz =>
  rcases mem_cons.1 hs with rfl | hs
  · have : s.size ≠ 0 := fun h0 => hsz (by simp [h0])
    omega
  exact ih hs

theorem outsecs_eq (st : List Stmt) : (addSections ⟨[], []⟩ (emitted st)).outsecs.map Prod.fst = emitted st :=
  addSections_outsecs ⟨[], []⟩ (emitted st)

theorem loop_inv (h : Laid st) : SegsInv (addSections ⟨[], []⟩ (emitted st)).segs (inSeg st)
      (joinGaps ⟨[], []⟩ (emitted st)) := by
  have hinit : SegsInv [] (Build.member ⟨[], []⟩) [] :=
    ⟨fun k s hs => absurd hs.2 not_mem_nil, fun k g hk => absurd hk (by simp), forall_mem_nil _⟩
  exact SegsInv.addSections (b := ⟨[], []⟩) (emitted st) hinit h.fits fun s => emitted_pos

theorem image_inv (hdrsz : Nat) (h : Laid st) :
    SegsInv (buildSegments hdrsz st).segs (inSeg st) (gapsOf hdrsz st) :=
  (loop_inv h).placeAll hdrsz

theorem inSeg_emitted (hs : inSeg st k s) : s ∈ emitted st := by
  rw [← outsecs_eq]
  exact mem_map.2 ⟨(s, k), hs.2, rfl⟩

/-- Two sections of the list are at one place of it, or apart. -/
theorem inSeg_unique (h : Laid st) (k j : Nat) (s t : OutSec) (hs : inSeg st k s)
    (ht : inSeg st j t) : k = j ∨ s.Apart t := by
  have hpair := h.apart
  rw [← outsecs_eq, pairwise_map] at hpair
  by_cases heq : (s, k) = (t, j)
  · exact .inl (congrArg Prod.snd heq)
  have : Std.Symm fun x y : OutSec × Nat =>
      x.1.loadable = true → y.1.loadable = true → x.1.Apart y.1 :=
    ⟨fun x y h hy hx => (h hx hy).symm⟩
  exact .inr (hpair.forall hs.2 ht.2 heq hs.1 ht.1)

/-- The sections before `nonalloc_offsets`. -/
def placedSecs (hdrsz : Nat) (st : List Stmt) : List Placed :=
  (addSections ⟨[], []⟩ (emitted st)).outsecs.map (placeSec hdrsz (buildSegments hdrsz st).segs)

theorem placeSec_key (hdrsz : Nat) (segs : List Seg) (x : OutSec × Nat) :
    ((placeSec hdrsz segs x).sec, (placeSec hdrsz segs x).seg) = x := by
  unfold placeSec
  split <;> rfl

theorem placeSec_sec (segs : List Seg) (x : OutSec × Nat) :
    (placeSec hdrsz segs x).sec = x.1 := congrArg Prod.fst (placeSec_key hdrsz segs x)

theorem secs_keys (hdrsz : Nat) (st : List Stmt) :
    (buildSegments hdrsz st).secs.map (fun p => (p.sec, p.seg)) =
      (addSections ⟨[], []⟩ (emitted st)).outsecs := by
  show (nonallocOffsets _ _).map _ = _
  rw [nonallocOffsets_keys, map_map]
  exact (map_congr_left fun x _ => placeSec_key _ _ x).trans (map_id _)

theorem secs_inSeg (hp : p ∈ (buildSegments hdrsz st).secs)
    (hl : p.sec.loadable = true) : inSeg st p.seg p.sec := by
  refine ⟨hl, ?_⟩
  rw [← secs_keys hdrsz st]
  exact mem_map.2 ⟨p, hp, rfl⟩

theorem OutSec.alloc_of_loadable (h : s.loadable = true) : s.alloc = true := by
  exact (Bool.and_eq_true_iff.1 h).1

theorem OutSec.loadable_of_file (ha : s.alloc = true) (hn : s.nobits = false) : s.loadable = true := by
  unfold loadable tlsBss
  rw [ha, hn, Bool.and_false]
  rfl

/-- The offset of a loaded section comes from its segment. -/
theorem placed_off (hdrsz : Nat) (h : Laid st) (hp : p ∈ placedSecs hdrsz st) (hl : p.sec.loadable = true) :
    inSeg st p.seg p.sec ∧ ∃ g, (buildSegments hdrsz st).segs[p.seg]? = some g ∧
      p.off = add32 g.off (p.sec.vaddr - g.vaddr) := by
  obtain ⟨⟨s, k⟩, hsk, rfl⟩ := mem_map.1 hp
  have hkey := placeSec_key hdrsz (buildSegments hdrsz st).segs (s, k)
  obtain ⟨hsec, hseg⟩ := Prod.mk.inj hkey
  rw [hsec] at hl
  have hin : inSeg st k s := ⟨hl, hsk⟩
  have hlt := h.fits s (inSeg_emitted hin) hl
  obtain ⟨g, hg, heq⟩ := placeSec_of_member hdrsz (image_inv hdrsz h) hin (by omega)
  rw [heq]
  exact ⟨hin, g, hg, rfl⟩

theorem secs_off (h : Laid st) (hp : p ∈ (buildSegments hdrsz st).secs)
    (hl : p.sec.loadable = true) : ∃ g, (buildSegments hdrsz st).segs[p.seg]? = some g ∧
      p.off = add32 g.off (p.sec.vaddr - g.vaddr) :=
  (placed_off hdrsz h (mem_of_mem_nonallocOffsets hp (alloc_of_loadable hl)) hl).2

section Fits

variable (h : Laid st) (hf : FileFits hdrsz st)
include h hf

theorem image_files : FilesOk (buildSegments hdrsz st).segs
    (imageEnd hdrsz (addSections ⟨[], []⟩ (emitted st)).segs) :=
  (placeAll_files (loop_inv h) hf.1 hf.2.1).1

theorem placed_end (hp : p ∈ placedSecs hdrsz st) (ha : p.sec.alloc = true) (hn : p.sec.nobits = false) :
    p.off + p.sec.size ≤ imageEnd hdrsz (addSections ⟨[], []⟩ (emitted st)).segs := by
  obtain ⟨hin, g, hg, ho⟩ := placed_off hdrsz h hp (loadable_of_file ha hn)
  obtain ⟨-, hadd, hle, htop⟩ := placeSec_file (image_inv hdrsz h) (image_files h hf) hg hin hn
  omega

/-- `nonalloc_offsets` starts where the last file part ends. -/
theorem placed_loadedEnd : loadedEnd hdrsz (placedSecs hdrsz st) =
    imageEnd hdrsz (addSections ⟨[], []⟩ (emitted st)).segs := by
  have hok := image_files h hf
  refine loadedEnd_eq hok.top_lt (fun p => placed_end h hf) (placeAll_files (loop_inv h) hf.1 hf.2.1).2 ?_
  rcases imageEnd_cases (loop_inv h) hf.1 hf.2.1 with he | ⟨g, hg, hz, he⟩
  · exact .inl he.symm
  -- the section that ends the file part ends there
  obtain ⟨k, hk⟩ := getElem?_of_mem hg
  obtain ⟨s, hs, hn, hse⟩ := ((image_inv hdrsz h).spans k g hk).attained hz
  have hp : placeSec hdrsz (buildSegments hdrsz st).segs (s, k) ∈ placedSecs hdrsz st := mem_map_of_mem hs.2
  have hsec : (placeSec hdrsz (buildSegments hdrsz st).segs (s, k)).sec = s := placeSec_sec _ (s, k)
  have hseg : (placeSec hdrsz (buildSegments hdrsz st).segs (s, k)).seg = k :=
    congrArg Prod.snd (placeSec_key _ _ (s, k))
  refine .inr ⟨_, hp, ?_, by rw [hsec]; exact hn, ?_⟩
  · rw [hsec]
    exact alloc_of_loadable hs.1
  obtain ⟨-, g', hg', ho⟩ := placed_off hdrsz h hp (by rw [hsec]; exact hs.1)
  have hk' : (buildSegments hdrsz st).segs[k]? = some g := hk
  rw [hseg, hk'] at hg'
  cases hg'
  rw [hsec] at ho ⊢
  have hin := ((image_inv hdrsz h).spans k g hk).inside s hs
  obtain ⟨-, hadd, -⟩ := placeSec_file (image_inv hdrsz h) hok hk hs hn
  omega

theorem placed_apart : (placedSecs hdrsz st).Pairwise fun p q =>
    p.sec.alloc = true → q.sec.alloc = true → p.sec.nobits = false → q.sec.nobits = false →
      p.off + p.sec.size ≤ q.off ∨ q.off + q.sec.size ≤ p.off := by
  have hpair := h.apart
  rw [← outsecs_eq, pairwise_map] at hpair
  refine pairwise_map.2 (hpair.imp_of_mem fun {x y} hx hy hxy hxa hya hxn hyn => ?_)
  have hxl := loadable_of_file hxa hxn
  have hyl := loadable_of_file hya hyn
  obtain ⟨hxin, g, hg, hxo⟩ := placed_off hdrsz h (mem_map_of_mem hx) hxl
  obtain ⟨hyin, g', hg', hyo⟩ := placed_off hdrsz h (mem_map_of_mem hy) hyl
  have hok := image_files h hf
  have hinv := image_inv hdrsz h
  obtain ⟨-, hadd, -⟩ := placeSec_file hinv hok hg hxin hxn
  obtain ⟨-, hadd', -⟩ := placeSec_file hinv hok hg' hyin hyn
  rw [hxo, hyo, hadd, hadd']
  refine placeSec_apart hinv hok hg hg' hxin hyin hxn hyn ?_
  rw [placeSec_sec] at hxl hyl ⊢
  rw [placeSec_sec]
  exact hxy hxl hyl

theorem secs_files : ((buildSegments hdrsz st).secs.Pairwise fun p q =>
      p.sec.nobits = false → q.sec.nobits = false → p.off + p.sec.size ≤ q.off ∨ q.off + q.sec.size ≤ p.off) ∧
    ∀ q ∈ (buildSegments hdrsz st).secs, q.sec.alloc = false →
      imageEnd hdrsz (addSections ⟨[], []⟩ (emitted st)).segs ≤ q.off := by
  have hsecs : (placedSecs hdrsz st).map Placed.sec = emitted st := by
    rw [placedSecs, map_map]
    exact (map_congr_left fun x _ => placeSec_sec _ x).trans (outsecs_eq st)
  have hkey := nonallocOffsets_files (image_files h hf).top_lt (placed_apart h hf)
    (fun p => placed_end h hf) (by rw [hsecs]; exact hf.2.2)
  rw [← placed_loadedEnd h hf] at hkey ⊢
  exact hkey

end Fits

/-- **The program headers describe the layout, exactly if no gap that a segment closes holds a
section.** -/
theorem buildSegments_described_iff (hdrsz : Nat) (st : List Stmt) (h : Laid st) (hf : FileFits hdrsz st) :
    Described hdrsz (emitted st) (buildSegments hdrsz st) ↔ GapsClear hdrsz st := by
  have hinv := image_inv hdrsz h
  constructor
  · intro hd ab hab s hs hl
    obtain ⟨p, hp, rfl⟩ := mem_map.1 (by rw [hd.all]; exact hs)
    obtain ⟨g, -, -, halone⟩ := hd.one p hp hl
    exact hinv.clear (secs_inSeg hp hl) halone hab
  intro hclear
  have hok := image_files h hf
  have hfit := placeAll_files (loop_inv h) hf.1 hf.2.1
  have halone : ∀ p ∈ (buildSegments hdrsz st).secs, p.sec.loadable = true →
      ∀ k g a, (buildSegments hdrsz st).segs[k]? = some g → p.sec.covers a → g.holds a → k = p.seg := by
    intro p hp hl k g a hk ha hga
    have hin := secs_inSeg hp hl
    exact hinv.alone (inSeg_unique h) hin (fun ab hab => hclear ab hab _ (inSeg_emitted hin) hl) hk ha hga
  have hinside : ∀ p ∈ (buildSegments hdrsz st).secs, p.sec.loadable = true → ∀ g,
      (buildSegments hdrsz st).segs[p.seg]? = some g → ∀ a, p.sec.covers a → g.holds a := by
    intro p hp hl g hg a ha
    have := (hinv.spans _ g hg).inside _ (secs_inSeg hp hl)
    unfold covers at ha
    unfold Seg.holds
    omega
  have hfile : ∀ p ∈ (buildSegments hdrsz st).secs, p.sec.loadable = true →
      p.sec.nobits = false → ∀ g, (buildSegments hdrsz st).segs[p.seg]? = some g →
        g.filesz ≠ 0 ∧ p.off = g.off + (p.sec.vaddr - g.vaddr) := by
    intro p hp hl hn g hg
    obtain ⟨g', hg', ho⟩ := secs_off h hp hl
    rw [hg] at hg'
    cases hg'
    obtain ⟨hz, hadd, -⟩ := placeSec_file hinv hok hg (secs_inSeg hp hl) hn
    exact ⟨hz, ho.trans hadd⟩
  constructor
  case all =>
    have hkeys := congrArg (map Prod.fst) (secs_keys hdrsz st)
    rw [map_map, outsecs_eq] at hkeys
    exact hkeys
  case one =>
    intro p hp hl
    obtain ⟨g, hg, -⟩ := secs_off h hp hl
    exact ⟨g, hg, hinside p hp hl g hg, fun k g' hk ⟨a, ha, hga⟩ => halone p hp hl k g' a hk ha hga⟩
  case congruent =>
    intro p hp hl
    obtain ⟨g, hg, ho⟩ := secs_off h hp hl
    have hmod := hok.congruent g (mem_of_getElem? hg)
    have hv := ((hinv.spans _ g hg).inside _ (secs_inSeg hp hl)).1
    rw [ho, add32]
    omega
  case headers =>
    intro p hp hn
    cases ha : p.sec.alloc with
    | true =>
      have hl := loadable_of_file ha hn
      obtain ⟨g, hg, -⟩ := secs_off h hp hl
      obtain ⟨hz, ho⟩ := hfile p hp hl hn g hg
      rw [ho]
      exact placeAll_headers (loop_inv h) hf.1 hf.2.1 hg hz (secs_inSeg hp hl)
    | false => exact Nat.le_trans hfit.2 ((secs_files h hf).2 p hp ha)
  case files => exact (secs_files h hf).1
  case filePart =>
    intro p hp hl hn g hg
    exact ⟨(hfile p hp hl hn g hg).2, (hinv.spans _ g hg).file _ (secs_inSeg hp hl) hn⟩
  case zeroPart =>
    intro p hp hl hn g hg
    exact (hinv.spans _ g hg).zero _ (secs_inSeg hp hl) hn
  case loads =>
    intro p hp hl file mem i hi
    obtain ⟨g, hg, -⟩ := secs_off h hp hl
    have hspan := hinv.spans _ g hg
    have hin := secs_inSeg hp hl
    have hv := (hspan.inside _ hin).1
    have hcov : p.sec.covers (p.sec.vaddr + i) := ⟨by omega, by omega⟩
    rw [load_of_only (fun x hx => ?_) hg (hinside p hp hl g hg _ hcov)
      (fun j g' hj hg' => halone p hp hl j g' _ hj hcov hg')]
    · cases hn : p.sec.nobits with
      | true =>
        have := hspan.zero _ hin hn
        rw [if_neg (by omega), if_pos rfl]
      | false => ?_
      have := hspan.file _ hin hn
      rw [if_pos (by omega), if_neg Bool.false_ne_true, (hfile p hp hl hn g hg).2]
      congr 1
      omega
    · obtain ⟨j, hj⟩ := getElem?_of_mem hx
      exact (hinv.spans j x hj).file_le

/-- A script's usual sections: code, data and zeros behind one another, and a comment. -/
def plainScript : List Stmt :=
  [.outsec false ⟨false, true, false, true, false, 0x8074, 0x8074, 0x200, [4]⟩, .other,
    .outsec false ⟨false, true, true, false, false, 0x9274, 0x9274, 0x40, [4, 8]⟩,
    .outsec false ⟨true, true, true, false, false, 0x92c0, 0x92c0, 0x100, [16]⟩,
    .outsec false ⟨false, false, false, false, false, 0, 0, 0x12, [1]⟩]

theorem buildSegments_described_plain : GapsClear 116 plainScript ∧
    Described 116 (emitted plainScript) (buildSegments 116 plainScript) :=
  have hclear : GapsClear 116 plainScript := by decide
  ⟨hclear, (buildSegments_described_iff 116 plainScript ⟨by decide, by decide⟩ (by decide)).2 hclear⟩

/-- Three sections that share no address, the second below the first. -/
def backwardScript : List Stmt :=
  [.outsec false ⟨false, true, false, true, false, 0x1200, 0x1200, 0x100, [4]⟩,
    .outsec false ⟨false, true, false, true, false, 0x1000, 0x1000, 0x100, [4]⟩,
    .outsec false ⟨false, true, false, true, false, 0x1400, 0x1400, 0x100, [4]⟩]

/-- The second and third section make one segment over the first, and loading puts the empty file
bytes between them where the first was. -/
theorem buildSegments_covers_section : Laid backwardScript ∧ FileFits 116 backwardScript ∧
      ¬ Described 116 (emitted backwardScript) (buildSegments 116 backwardScript) := by
  refine ⟨⟨by decide, by decide⟩, by decide, fun hd => ?_⟩
  have hload := hd.loads ⟨⟨false, true, false, true, false, 0x1200, 0x1200, 0x100, [4]⟩, 0, 0x200⟩
    (by decide) (by decide) (fun a => if a = 0x200 then 1 else 0) (fun _ => 0) 0 (by decide)
  cases hload

end Main

end Embedded.Toolchain.Ld
