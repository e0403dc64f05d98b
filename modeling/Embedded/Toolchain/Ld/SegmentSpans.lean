import Embedded.Toolchain.Ld.Segments

/-! # What the segments are made of

`Spans` says what a segment is made of: the sections that were put into it, and the gaps that were
closed when they joined it. The loop keeps this for all segments at once (`SegsInv`), and so does
the extension over the headers. -/

namespace Embedded.Toolchain.Ld

open List

variable {ab : Nat × Nat} {b : Build} {hdrsz : Nat}

/-! ## Sections and gaps of a segment -/

/-- The segment is made of the sections `M` and of gaps out of `gs`. -/
structure Spans (g : Seg) (M : OutSec → Prop) (gs : List (Nat × Nat)) : Prop where
  fits : g.vaddr + g.memsz < 4294967296
  file_le : g.filesz ≤ g.memsz
  pos : ∀ s, M s → 0 < s.size
  inside : ∀ s, M s → g.vaddr ≤ s.vaddr ∧ s.vaddr + s.size ≤ g.vaddr + g.memsz
  file : ∀ s, M s → s.nobits = false → s.vaddr + s.size ≤ g.vaddr + g.filesz
  zero : ∀ s, M s → s.nobits = true → g.vaddr + g.filesz ≤ s.vaddr
  cover : ∀ a, g.holds a → (∃ s, M s ∧ s.covers a) ∨ ∃ ab ∈ gs, ab.1 ≤ a ∧ a < ab.2
  attained : g.filesz ≠ 0 →
    ∃ s, M s ∧ s.nobits = false ∧ s.vaddr + s.size = g.vaddr + g.filesz

/-- The gap lies in the segment, between its sections. -/
structure GapIn (g : Seg) (M : OutSec → Prop) (ab : Nat × Nat) : Prop where
  low : g.vaddr ≤ ab.1
  high : ab.2 ≤ g.vaddr + g.memsz
  clear : ∀ s, M s → s.vaddr + s.size ≤ ab.1 ∨ ab.2 ≤ s.vaddr

variable {g : Seg} {M M' : OutSec → Prop} {gs gs' : List (Nat × Nat)} {os : OutSec}

theorem Spans.mono (h : Spans g M gs) (hsub : ∀ ab ∈ gs, ab ∈ gs') : Spans g M gs' := by
  refine { h with cover := fun a ha => ?_ }
  rcases h.cover a ha with hs | ⟨ab, hab, hin⟩
  · exact .inl hs
  exact .inr ⟨ab, hsub ab hab, hin⟩

theorem Spans.congr (h : Spans g M gs) (hM : ∀ s, M s ↔ M' s) : Spans g M' gs := by
  obtain rfl : M = M' := funext fun s => propext (hM s)
  exact h

theorem GapIn.congr {ab : Nat × Nat} (h : GapIn g M ab) (hM : ∀ s, M s ↔ M' s) : GapIn g M' ab := by
  obtain rfl : M = M' := funext fun s => propext (hM s)
  exact h

theorem extend_memsz (hos : os.vaddr + os.size < 4294967296) (hv : g.vaddr ≤ os.vaddr) :
    (extend g os).memsz = os.vaddr + os.size - g.vaddr := by
  show sub32 (add32 os.vaddr os.size) g.vaddr = _
  unfold sub32 add32
  rw [Nat.mod_eq_of_lt hos]
  omega

theorem extend_filesz : (extend g os).filesz = if os.nobits then g.filesz else (extend g os).memsz := rfl

theorem Spans.start (hos : os.vaddr + os.size < 4294967296) (hpos : 0 < os.size) :
    Spans (extend (newSeg os) os) (fun s => s = os) gs := by
  have hv : (extend (newSeg os) os).vaddr = os.vaddr := rfl
  have hm := extend_memsz (g := newSeg os) hos Nat.le.refl
  have hf := @extend_filesz (newSeg os) os
  rw [show (newSeg os).vaddr = os.vaddr from rfl] at hm
  rw [show (newSeg os).filesz = 0 from rfl] at hf
  constructor
  · omega
  · cases hn : os.nobits <;> simp only [hn, Bool.false_eq_true, if_true, if_false] at hf <;> omega
  · rintro s rfl
    exact hpos
  · rintro s rfl
    omega
  · rintro s rfl hn
    simp only [hn, Bool.false_eq_true, if_false] at hf
    omega
  · rintro s rfl hn
    simp only [hn, if_true] at hf
    omega
  · rintro a ⟨ha, ha'⟩
    exact .inl ⟨os, rfl, by omega, by omega⟩
  intro hne
  cases hn : os.nobits with
  | true =>
    simp only [hn, if_true] at hf
    omega
  | false =>
    simp only [hn, Bool.false_eq_true, if_false] at hf
    exact ⟨os, rfl, hn, by omega⟩

/-- What is known of a section that joins: it lies behind the segment, and file bytes follow only
file bytes. -/
theorem fresh_eq_false (hf : fresh g os = false) :
    add32 g.vaddr g.memsz ≤ os.vaddr ∧ (os.nobits = false → g.memsz ≤ g.filesz) := by
  simp only [fresh, Bool.or_eq_false_iff, Bool.and_eq_false_iff, decide_eq_false_iff_not,
    Bool.not_eq_false'] at hf
  obtain ⟨⟨⟨⟨hbss, -⟩, hback⟩, -⟩, -⟩ := hf
  refine ⟨by omega, fun hn => ?_⟩
  rcases hbss with hbss | hbss
  · rw [hn] at hbss
    cases hbss
  omega

/-- A section that joins a segment adds itself and the gap in front of it. -/
theorem Spans.join (h : Spans g M gs) (hos : os.vaddr + os.size < 4294967296)
    (hpos : 0 < os.size) (hf : fresh g os = false) :
    Spans (extend g os) (fun s => M s ∨ s = os) (gs ++ [(add32 g.vaddr g.memsz, os.vaddr)]) := by
  obtain ⟨hend, hfile⟩ := fresh_eq_false hf
  have hfits := h.fits
  have hle := h.file_le
  rw [add32, Nat.mod_eq_of_lt hfits] at hend
  have hv : (extend g os).vaddr = g.vaddr := rfl
  have hm := extend_memsz (g := g) hos (by omega)
  have hfz := @extend_filesz g os
  constructor
  · omega
  · cases hn : os.nobits <;> simp only [hn, Bool.false_eq_true, if_true, if_false] at hfz <;> omega
  · rintro s (hs | rfl)
    · exact h.pos s hs
    exact hpos
  · rintro s (hs | rfl)
    · have := h.inside s hs
      omega
    omega
  · rintro s (hs | rfl) hn
    · have hsf := h.file s hs hn
      cases hno : os.nobits <;> simp only [hno, Bool.false_eq_true, if_true, if_false] at hfz
      · omega
      omega
    simp only [hn, Bool.false_eq_true, if_false] at hfz
    omega
  · rintro s (hs | rfl) hn
    · have hsz := h.zero s hs hn
      have hsi := h.inside s hs
      have hsp := h.pos s hs
      cases hno : os.nobits with
      | true =>
        simp only [hno, if_true] at hfz
        omega
      | false =>
        -- a segment that ends in zeros takes no file bytes
        have := hfile hno
        omega
    simp only [hn, if_true] at hfz
    omega
  · rintro a ⟨ha, ha'⟩
    by_cases hin : a < g.vaddr + g.memsz
    · rcases h.cover a ⟨by omega, hin⟩ with ⟨s, hs, hsa⟩ | ⟨ab, hab, hba⟩
      · exact .inl ⟨s, .inl hs, hsa⟩
      exact .inr ⟨ab, mem_append_left _ hab, hba⟩
    by_cases hgap : a < os.vaddr
    · refine .inr ⟨_, mem_append_right _ (mem_singleton.2 rfl), ?_, hgap⟩
      rw [add32, Nat.mod_eq_of_lt hfits]
      omega
    exact .inl ⟨os, .inr rfl, by omega, by omega⟩
  intro hne
  cases hno : os.nobits with
  | true =>
    simp only [hno, if_true] at hfz
    obtain ⟨s, hs, hsn, hse⟩ := h.attained (by omega)
    exact ⟨s, .inl hs, hsn, by omega⟩
  | false =>
    simp only [hno, Bool.false_eq_true, if_false] at hfz
    exact ⟨os, .inr rfl, hno, by omega⟩

theorem GapIn.join (h : GapIn g M ab) (hfits : g.vaddr + g.memsz < 4294967296)
    (hos : os.vaddr + os.size < 4294967296) (hf : fresh g os = false) :
    GapIn (extend g os) (fun s => M s ∨ s = os) ab := by
  obtain ⟨hend, -⟩ := fresh_eq_false hf
  rw [add32, Nat.mod_eq_of_lt hfits] at hend
  have hm := extend_memsz (g := g) hos (by omega)
  have hv : (extend g os).vaddr = g.vaddr := rfl
  have hlow := h.low
  have hhigh := h.high
  refine ⟨hlow, by omega, ?_⟩
  rintro s (hs | rfl)
  · exact h.clear s hs
  exact .inr (by omega)

theorem Spans.gapIn (h : Spans g M gs) (hos : os.vaddr + os.size < 4294967296) (hf : fresh g os = false) :
    GapIn (extend g os) (fun s => M s ∨ s = os) (add32 g.vaddr g.memsz, os.vaddr) := by
  obtain ⟨hend, -⟩ := fresh_eq_false hf
  have hfits := h.fits
  rw [add32, Nat.mod_eq_of_lt hfits] at hend ⊢
  have hm := extend_memsz (g := g) hos (by omega)
  have hv : (extend g os).vaddr = g.vaddr := rfl
  refine ⟨by show (extend g os).vaddr ≤ g.vaddr + g.memsz; omega, by show os.vaddr ≤ _; omega, ?_⟩
  rintro s (hs | rfl)
  · exact .inl (h.inside s hs).2
  exact .inr Nat.le.refl

/-! ## All segments at once -/

/-- The segments with their sections: `mem k s` says that `s` is in segment `k`. -/
structure SegsInv (segs : List Seg) (mem : Nat → OutSec → Prop) (gs : List (Nat × Nat)) :
    Prop where
  lt : ∀ k s, mem k s → k < segs.length
  spans : ∀ k g, segs[k]? = some g → Spans g (mem k) gs
  gaps : ∀ ab ∈ gs, ∃ k g, segs[k]? = some g ∧ GapIn g (mem k) ab

/-- The loop has put `s` into segment `k`. -/
def Build.member (b : Build) (k : Nat) (s : OutSec) : Prop :=
  s.loadable = true ∧ (s, k) ∈ b.outsecs

/-- What one round of the loop does. -/
theorem addSection_cases (b : Build) (os : OutSec) : (os.loadable = false ∧ joinGap b os = [] ∧
      addSection b os = ⟨b.segs, b.outsecs ++ [(os, b.segs.length - 1)]⟩) ∨
    (os.loadable = true ∧ joinGap b os = [] ∧ addSection b os =
        ⟨b.segs ++ [extend (newSeg os) os], b.outsecs ++ [(os, b.segs.length)]⟩) ∨
    ∃ init g, b.segs = init ++ [g] ∧ os.loadable = true ∧ fresh g os = false ∧
      joinGap b os = [(add32 g.vaddr g.memsz, os.vaddr)] ∧
      addSection b os = ⟨init ++ [extend g os], b.outsecs ++ [(os, init.length)]⟩ := by
  unfold addSection joinGap
  cases hl : os.loadable with
  | false => exact .inl ⟨rfl, by cases b.segs.getLast? <;> rfl, rfl⟩
  | true => ?_
  rcases eq_nil_or_concat b.segs with hnil | ⟨init, g, hg⟩
  · exact .inr (.inl ⟨rfl, by simp [hnil], by simp [hnil]⟩)
  rw [concat_eq_append] at hg
  cases hf : fresh g os with
  | true => exact .inr (.inl ⟨rfl, by simp [hg, hf], by simp [hg, hf]⟩)
  | false => exact .inr (.inr ⟨init, g, hg, rfl, hf, by simp [hg, hf], by simp [hg, hf]⟩)

variable {segs : List Seg} {mem : Nat → OutSec → Prop}

/-- A new segment at the end. -/
theorem SegsInv.push (h : SegsInv segs mem gs) (hos : os.vaddr + os.size < 4294967296) (hpos : 0 < os.size) :
    SegsInv (segs ++ [extend (newSeg os) os]) (fun k s => mem k s ∨ (k = segs.length ∧ s = os)) gs := by
  have hold : ∀ k, k < segs.length → ∀ s, mem k s ↔ mem k s ∨ (k = segs.length ∧ s = os) := by
    intro k hk s
    exact (or_iff_left fun he => by omega).symm
  refine ⟨?_, ?_, ?_⟩
  · rintro k s (hs | ⟨rfl, -⟩) <;> rw [length_append, length_singleton]
    · have := h.lt k s hs
      omega
    omega
  · intro k g hk
    by_cases hlt : k < segs.length
    · rw [getElem?_append_left hlt] at hk
      exact (h.spans k g hk).congr (hold k hlt)
    rw [getElem?_append_right (by omega), getElem?_singleton] at hk
    obtain ⟨hk0, hg⟩ := Option.ite_none_right_eq_some.1 hk
    cases hg
    refine (Spans.start hos hpos).congr fun s => ?_
    constructor
    · rintro rfl
      exact .inr ⟨by omega, rfl⟩
    rintro (hs | ⟨-, rfl⟩)
    · exact absurd (h.lt k s hs) hlt
    rfl
  intro ab hab
  obtain ⟨k, g, hk, hin⟩ := h.gaps ab hab
  have hlt := (List.getElem?_eq_some_iff.1 hk).1
  exact ⟨k, g, by rw [getElem?_append_left hlt]; exact hk, hin.congr (hold k hlt)⟩

theorem SegsInv.grow {init : List Seg}
    (h : SegsInv (init ++ [g]) mem gs) (hos : os.vaddr + os.size < 4294967296)
    (hpos : 0 < os.size) (hf : fresh g os = false) :
    SegsInv (init ++ [extend g os]) (fun k s => mem k s ∨ (k = init.length ∧ s = os))
      (gs ++ [(add32 g.vaddr g.memsz, os.vaddr)]) := by
  have hold : ∀ k, k < init.length → ∀ s, mem k s ↔ mem k s ∨ (k = init.length ∧ s = os) := by
    intro k hk s
    exact (or_iff_left fun he => by omega).symm
  have hlast : ∀ s, mem init.length s ∨ s = os ↔
      mem init.length s ∨ (init.length = init.length ∧ s = os) := by
    intro s
    exact or_congr_right ⟨fun he => ⟨rfl, he⟩, fun he => he.2⟩
  have hspan := h.spans _ g getElem?_concat_length
  refine ⟨?_, ?_, ?_⟩
  · rintro k s (hs | ⟨rfl, -⟩) <;> rw [length_append, length_singleton]
    · have := h.lt k s hs
      rw [length_append, length_singleton] at this
      exact this
    omega
  · intro k g' hk
    by_cases hlt : k < init.length
    · rw [getElem?_append_left hlt] at hk
      have hk' : (init ++ [g])[k]? = some g' := by
        rw [getElem?_append_left hlt]
        exact hk
      exact ((h.spans k g' hk').congr (hold k hlt)).mono fun ab => mem_append_left _
    rw [getElem?_append_right (by omega), getElem?_singleton] at hk
    obtain ⟨hk0, hg⟩ := Option.ite_none_right_eq_some.1 hk
    cases hg
    obtain rfl : k = init.length := by omega
    exact (hspan.join hos hpos hf).congr hlast
  intro ab hab
  rcases mem_append.1 hab with hab | hab
  · obtain ⟨k, g', hk, hin⟩ := h.gaps ab hab
    by_cases hlt : k < init.length
    · refine ⟨k, g', ?_, hin.congr (hold k hlt)⟩
      rw [getElem?_append_left hlt] at hk ⊢
      exact hk
    have hk' := (List.getElem?_eq_some_iff.1 hk).1
    rw [length_append, length_singleton] at hk'
    obtain rfl : k = init.length := by omega
    rw [getElem?_concat_length] at hk
    cases hk
    exact ⟨_, _, getElem?_concat_length, (hin.join hspan.fits hos hf).congr hlast⟩
  obtain rfl := mem_singleton.1 hab
  exact ⟨_, _, getElem?_concat_length, (hspan.gapIn hos hf).congr hlast⟩

theorem Build.member_concat {outsecs : List (OutSec × Nat)} {n : Nat}
    (hl : os.loadable = true) (k : Nat) (s : OutSec) :
    Build.member ⟨segs, outsecs ++ [(os, n)]⟩ k s ↔
      (s.loadable = true ∧ (s, k) ∈ outsecs) ∨ (k = n ∧ s = os) := by
  unfold Build.member
  rw [mem_append, mem_singleton, Prod.mk.injEq]
  constructor
  · rintro ⟨hs, hin | ⟨rfl, rfl⟩⟩
    · exact .inl ⟨hs, hin⟩
    exact .inr ⟨rfl, rfl⟩
  rintro (⟨hs, hin⟩ | ⟨rfl, rfl⟩)
  · exact ⟨hs, .inl hin⟩
  exact ⟨hl, .inr ⟨rfl, rfl⟩⟩

theorem SegsInv.congr {mem' : Nat → OutSec → Prop}
    (h : SegsInv segs mem gs) (hmem : ∀ k s, mem' k s ↔ mem k s) : SegsInv segs mem' gs := by
  obtain rfl : mem' = mem := funext fun k => funext fun s => propext (hmem k s)
  exact h

theorem SegsInv.addSection (h : SegsInv b.segs b.member gs)
    (hos : os.loadable = true → os.vaddr + os.size < 4294967296) (hpos : 0 < os.size) :
    SegsInv (addSection b os).segs (addSection b os).member (gs ++ joinGap b os) := by
  rcases addSection_cases b os with ⟨hl, hgap, hb⟩ | ⟨hl, hgap, hb⟩ | ⟨init, g, hsegs, hl, hf, hgap, hb⟩
  · rw [hgap, append_nil, hb]
    refine h.congr fun k s => and_congr_right fun hs => ?_
    rw [mem_append, mem_singleton, Prod.mk.injEq]
    refine or_iff_left fun he => ?_
    rw [he.1, hl] at hs
    cases hs
  · rw [hgap, append_nil, hb]
    exact (h.push (hos hl) hpos).congr (Build.member_concat hl)
  rw [hgap, hb]
  rw [hsegs] at h
  exact (h.grow (hos hl) hpos hf).congr (Build.member_concat hl)

/-- The loop keeps it. -/
theorem SegsInv.addSections (secs : List OutSec) (h : SegsInv b.segs b.member gs)
    (hfit : ∀ s ∈ secs, s.loadable = true → s.vaddr + s.size < 4294967296)
    (hpos : ∀ s ∈ secs, 0 < s.size) :
    SegsInv (addSections b secs).segs (addSections b secs).member (gs ++ joinGaps b secs) := by
  induction secs generalizing b gs with
  | nil =>
    rw [joinGaps, append_nil]
    exact h
  | cons os rest ih => ?_
  rw [joinGaps, ← append_assoc]
  exact ih (h.addSection (hfit os mem_cons_self) (hpos os mem_cons_self)) (forall_mem_cons.1 hfit).2
    (forall_mem_cons.1 hpos).2

theorem addSection_outsecs (b : Build) (os : OutSec) :
    (addSection b os).outsecs.map Prod.fst = b.outsecs.map Prod.fst ++ [os] := by
  rcases addSection_cases b os with ⟨-, -, hb⟩ | ⟨-, -, hb⟩ | ⟨init, g, -, -, -, -, hb⟩ <;>
    rw [hb, map_append] <;> rfl

theorem addSections_outsecs (b : Build) (secs : List OutSec) :
    (addSections b secs).outsecs.map Prod.fst = b.outsecs.map Prod.fst ++ secs := by
  induction secs generalizing b with
  | nil => exact (append_nil _).symm
  | cons os rest ih =>
    rw [addSections, ih, addSection_outsecs, append_assoc]
    rfl

/-! ## The headers in the first page -/

/-- What becomes of segment `k` apart from its offset. -/
def shape (hdrsz k : Nat) (g : Seg) : Seg :=
  if k = 0 ∧ headersFit hdrsz g = true then mapHeaders g else g

theorem placeSegs_getElem? (fend : Nat) (segs : List Seg) (k : Nat) :
    ∃ o, (placeSegs fend segs)[k]? = segs[k]?.map fun g => { g with off := o } := by
  induction segs generalizing fend k with
  | nil => exact ⟨0, rfl⟩
  | cons g rest ih =>
    cases k with
    | zero => exact ⟨_, rfl⟩
    | succ k => exact ih _ k

theorem placeAll_getElem? (hdrsz : Nat) (segs : List Seg) (k : Nat) :
    ∃ o, (placeAll hdrsz segs)[k]? = segs[k]?.map fun g => { shape hdrsz k g with off := o } := by
  cases segs with
  | nil => exact ⟨0, rfl⟩
  | cons g rest => ?_
  rw [placeAll]
  by_cases hfit : headersFit hdrsz g = true
  · rw [if_pos hfit]
    cases k with
    | zero => exact ⟨0, by simp [shape, hfit]⟩
    | succ k => simpa [shape] using placeSegs_getElem? _ rest k
  rw [if_neg hfit]
  obtain ⟨o, ho⟩ := placeSegs_getElem? hdrsz (g :: rest) k
  refine ⟨o, ho.trans ?_⟩
  cases k with
  | zero => simp [shape, hfit]
  | succ k => simp [shape]

theorem placeAll_some {k : Nat} {g' : Seg} (h : (placeAll hdrsz segs)[k]? = some g') :
    ∃ g, segs[k]? = some g ∧ g' = { shape hdrsz k g with off := g'.off } := by
  obtain ⟨o, ho⟩ := placeAll_getElem? hdrsz segs k
  rw [h] at ho
  obtain ⟨g, hg, rfl⟩ := Option.map_eq_some_iff.1 ho.symm
  exact ⟨g, hg, rfl⟩

theorem placeAll_of_some (hdrsz : Nat) {k : Nat} {g : Seg} (h : segs[k]? = some g) :
    ∃ o, (placeAll hdrsz segs)[k]? = some { shape hdrsz k g with off := o } := by
  obtain ⟨o, ho⟩ := placeAll_getElem? hdrsz segs k
  exact ⟨o, by rw [ho, h]; rfl⟩

theorem headersFit_iff :
    headersFit hdrsz g = true ↔ g.filesz ≠ 0 ∧ g.lma = g.vaddr ∧ hdrsz ≤ g.vaddr % 4096 := by
  unfold headersFit
  simp only [Bool.and_eq_true, decide_eq_true_eq, and_assoc]

variable (h : Spans g M gs)
include h

theorem mapHeaders_sizes : (mapHeaders g).vaddr = g.vaddr - g.vaddr % 4096 ∧
      (mapHeaders g).memsz = g.memsz + g.vaddr % 4096 ∧
      (mapHeaders g).filesz = g.filesz + g.vaddr % 4096 := by
  have hfits := h.fits
  have hle := h.file_le
  refine ⟨rfl, ?_, ?_⟩
  · show add32 g.memsz (g.vaddr % 4096) = _
    exact Nat.mod_eq_of_lt (by omega)
  show add32 g.filesz (g.vaddr % 4096) = _
  exact Nat.mod_eq_of_lt (by omega)

theorem mapHeaders_filesz : (mapHeaders g).filesz < 4294967296 ∧
    add32 0 (mapHeaders g).filesz = (mapHeaders g).filesz := by
  obtain ⟨-, -, hf⟩ := mapHeaders_sizes h
  have hfits := h.fits
  have hle := h.file_le
  have hlt : (mapHeaders g).filesz < 4294967296 := by omega
  exact ⟨hlt, by rw [add32, Nat.zero_add, Nat.mod_eq_of_lt hlt]⟩

/-- The page of the headers is one more gap. -/
theorem Spans.mapHeaders (hne : g.filesz ≠ 0) :
    Spans (mapHeaders g) M (gs ++ [(pageDown g.vaddr, g.vaddr)]) := by
  obtain ⟨hv, hm, hf⟩ := mapHeaders_sizes h
  have hfits := h.fits
  have hle := h.file_le
  constructor
  · omega
  · omega
  · exact h.pos
  · intro s hs
    have := h.inside s hs
    omega
  · intro s hs hn
    have := h.file s hs hn
    omega
  · intro s hs hn
    have := h.zero s hs hn
    omega
  · rintro a ⟨ha, ha'⟩
    by_cases hin : g.vaddr ≤ a
    · rcases h.cover a ⟨hin, by omega⟩ with hs | ⟨ab, hab, hba⟩
      · exact .inl hs
      exact .inr ⟨ab, mem_append_left _ hab, hba⟩
    refine .inr ⟨_, mem_append_right _ (mem_singleton.2 rfl), ?_, by
      omega⟩
    unfold pageDown
    omega
  intro _
  obtain ⟨s, hs, hn, he⟩ := h.attained hne
  exact ⟨s, hs, hn, by omega⟩

theorem GapIn.mapHeaders (hin : GapIn g M ab) : GapIn (mapHeaders g) M ab := by
  obtain ⟨hv, hm, -⟩ := mapHeaders_sizes h
  have hlow := hin.low
  have hhigh := hin.high
  exact ⟨by omega, by omega, hin.clear⟩

theorem Spans.headerGapIn : GapIn (Ld.mapHeaders g) M (pageDown g.vaddr, g.vaddr) := by
  obtain ⟨hv, hm, -⟩ := mapHeaders_sizes h
  refine ⟨?_, ?_, fun s hs => .inr (h.inside s hs).1⟩
  · show _ ≤ pageDown g.vaddr
    unfold pageDown
    omega
  show g.vaddr ≤ _
  omega

omit h

/-- Mapping the headers and assigning the offsets keeps the segments' contents. -/
theorem SegsInv.placeAll (hdrsz : Nat) (h : SegsInv segs mem gs) :
    SegsInv (placeAll hdrsz segs) mem (gs ++ headerGap hdrsz segs) := by
  refine ⟨?_, ?_, ?_⟩
  · intro k s hs
    obtain ⟨o, ho⟩ := placeAll_of_some hdrsz (getElem?_eq_getElem (h.lt k s hs))
    exact (List.getElem?_eq_some_iff.1 ho).1
  · intro k g' hk
    obtain ⟨g, hg, hg'⟩ := placeAll_some hk
    have hspan := h.spans k g hg
    -- the offset is no part of what a segment spans
    suffices hs : Spans (shape hdrsz k g) (mem k) (gs ++ headerGap hdrsz segs) by
      rw [hg']
      exact ⟨hs.fits, hs.file_le, hs.pos, hs.inside, hs.file, hs.zero, hs.cover, hs.attained⟩
    unfold shape
    split
    next hfit =>
      obtain ⟨rfl, hfit⟩ := hfit
      obtain ⟨rest, rfl⟩ : ∃ rest, segs = g :: rest := by
        cases segs with
        | nil => simp at hg
        | cons x rest => exact ⟨rest, by rw [Option.some.inj hg]⟩
      rw [headerGap, if_pos hfit]
      exact hspan.mapHeaders (headersFit_iff.1 hfit).1
    · exact hspan.mono fun ab => mem_append_left _
  intro ab hab
  rcases mem_append.1 hab with hab | hab
  · obtain ⟨k, g, hk, hin⟩ := h.gaps ab hab
    obtain ⟨o, ho⟩ := placeAll_of_some hdrsz hk
    refine ⟨k, _, ho, ?_⟩
    suffices hs : GapIn (shape hdrsz k g) (mem k) ab from ⟨hs.low, hs.high, hs.clear⟩
    unfold shape
    split
    · exact hin.mapHeaders (h.spans k g hk)
    exact hin
  cases segs with
  | nil => simp [headerGap] at hab
  | cons g rest => ?_
  rw [headerGap] at hab
  split at hab
  next hfit =>
    obtain rfl := mem_singleton.1 hab
    obtain ⟨o, ho⟩ := @placeAll_of_some (g :: rest) hdrsz 0 g rfl
    refine ⟨0, _, ho, ?_⟩
    rw [shape, if_pos ⟨rfl, hfit⟩]
    have hs := (h.spans 0 g rfl).headerGapIn
    exact ⟨hs.low, hs.high, hs.clear⟩
  · simp at hab

end Embedded.Toolchain.Ld
