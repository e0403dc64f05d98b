import Embedded.Kernel.InflateTables
import Embedded.Kernel.Gzip

/-! # The inflater on well-formed blocks

One lemma for each part of a block, from the bits of the format to the state of the decoder: the coded
data (`inflateBlock_spec`), the code lengths of a dynamic block (`lengthsLoop_spec`) and its tables,
stored data. The buffer holds the output so far (`Written`). -/

namespace Embedded.Kernel.Inflate

open Canonical Gzip
open List

variable {dst : Mem} {out out' : List UInt8} {h : Huff} {ls ll dl lens lens' : List Nat} {i : Nat}
  {b : Bitr}

variable {bs rest : List Bool} {cl : List Nat}

/-! ## The output buffer -/

/-- The buffer begins with `out`. -/
def Written (dst : Mem) (out : List UInt8) : Prop := ∀ i, i < out.length → dst i = out.getD i 0

theorem Written.push (h : Written dst out) (c : UInt8) : Written (dst.w8 out.length c) (out ++ [c]) := by
  intro i hi
  rw [length_append, length_singleton] at hi
  unfold Mem.w8
  rcases lt_or_ge i out.length with hlt | hge
  · rw [if_neg (by omega), h i hlt]
    simp [getD_eq_getElem?_getD, getElem?_append_left hlt]
  obtain rfl : i = out.length := by omega
  rw [if_pos rfl]
  simp [getD_eq_getElem?_getD]

theorem copyFrom_length (dist n : Nat) (out : List UInt8) :
    (copyFrom dist n out).length = out.length + n := by
  induction n generalizing out with
  | zero => rfl
  | succ n ih =>
    rw [copyFrom, ih, length_append, length_singleton]
    omega

theorem copyLoop_spec {dist o src n i : Nat} {dst : Mem} {cur : List UInt8} (hd : 0 < dist)
    (hcur : cur.length = o + i) (hsrc : src + i + dist = cur.length)
    (hlt : o + i + n < 4294967296) (h : Written dst cur) :
    Written (copyLoop o src n i dst) (copyFrom dist n cur) := by
  induction n generalizing i dst cur with
  | zero => exact h
  | succ n ih => ?_
  have ho : add32 o i = cur.length := by rw [add32, Nat.mod_eq_of_lt (by omega), hcur]
  have hs : add32 src i = cur.length - dist := by
    rw [add32, Nat.mod_eq_of_lt (by omega)]
    omega
  rw [copyLoop, copyFrom, ho, hs, h (cur.length - dist) (by omega)]
  refine ih ?_ ?_ (by omega) (h.push _)
  · rw [length_append, length_singleton]
    omega
  rw [length_append, length_singleton]
  omega

/-! ## Coded data -/

/-- The table decodes the code words of the symbols in `P`. -/
def Decodes (h : Huff) (ls : List Nat) (P : Nat → Prop) : Prop :=
  ∀ s c b rest, P s → Sends ls s c → Bitr.Ok b → b.rem = c ++ rest →
    ∃ b', huffDecode b h = (some s, b') ∧ b'.Ok ∧ b'.rem = rest ∧ b'.src = b.src

theorem Tabled.decodes (ht : Tabled h ls) (hfit : Fits ls)
    (hmax : ∀ l ∈ ls, l ≤ 15) : Decodes h ls fun _ => True := by
  rintro s c b rest - ⟨hs, rfl⟩ hb hrem
  refine huffDecode_spec ht hfit hs (hmax _ ?_) hb hrem
  have hlt := hs.1
  rw [len, ← getElem_eq_getD 0]
  exact getElem_mem hlt

theorem Decodes.mono {P Q : Nat → Prop} (hd : Decodes h ls P) (hPQ : ∀ s, Q s → P s) : Decodes h ls Q :=
  fun s c b rest hs => hd s c b rest (hPQ s hs)

theorem sends_pos {s : Nat} {c : List Bool} (h : Sends ls s c) : 0 < c.length := by
  obtain ⟨hs, rfl⟩ := h
  rw [word, msb_length]
  exact Nat.pos_of_ne_zero hs.2

theorem codes_length_le (h : Codes ll dl bs out rest out') : out.length ≤ out'.length := by
  induction h with
  | stop => exact le_rfl
  | literal b _ _ ih =>
    rw [length_append, length_singleton] at ih
    omega
  | copy lsym le dsym de _ _ _ _ _ _ _ _ ih =>
    rw [copyFrom_length] at ih
    omega

theorem length_tables (hi : i < 29) :
    lenExtra.getD i 0 = lengthExtra i ∧ lenBase.getD i 0 = lengthBase i ∧ lengthExtra i ≤ 24 := by
  have h : ∀ i < 29, lenExtra.getD i 0 = lengthExtra i ∧ lenBase.getD i 0 = lengthBase i ∧
      lengthExtra i ≤ 24 := by decide
  exact h i hi

theorem distance_tables (hi : i < 30) :
    distExtra.getD i 0 = distanceExtra i ∧ distBase.getD i 0 = distanceBase i ∧
      distanceExtra i ≤ 24 ∧ 0 < distanceBase i := by
  have h : ∀ i < 30, distExtra.getD i 0 = distanceExtra i ∧ distBase.getD i 0 = distanceBase i ∧
      distanceExtra i ≤ 24 ∧ 0 < distanceBase i := by decide
  exact h i hi

theorem inflateBlock_spec {lh dh : Huff} (hl : Decodes lh ll fun _ => True)
    (hd : Decodes dh dl fun s => s < 30)
    (hc : Codes ll dl bs out rest out') {dstcap f : Nat} (hcap : out'.length ≤ dstcap)
    (hlt : dstcap < 4294967296) (hb : b.Ok) (hrem : b.rem = bs)
    (hf : bs.length < f) (hw : Written dst out) :
    ∃ b' dst', inflateBlock lh dh dstcap f b dst out.length = .ok (b', dst', out'.length) ∧
      b'.Ok ∧ b'.rem = rest ∧ b'.src = b.src ∧ Written dst' out' := by
  induction hc generalizing f b dst with
  | stop hs =>
    obtain _ | f := f
    · omega
    obtain ⟨b1, h1, hb1, hr1, hs1⟩ := hl _ _ b _ trivial hs hb hrem
    refine ⟨b1, dst, ?_, hb1, hr1, hs1, hw⟩
    rw [inflateBlock, h1]
    simp only [hb1.noerr, Bool.false_eq_true, if_false, if_true]
  | @literal c bs rest out out' v hs hrest ih =>
    obtain _ | f := f
    · omega
    obtain ⟨b1, h1, hb1, hr1, hs1⟩ := hl _ _ b _ trivial hs hb hrem
    have hv : v.toNat < 256 := v.toNat_lt
    have hmono := codes_length_le hrest
    rw [length_append, length_singleton] at hmono
    have hpos := sends_pos hs
    rw [length_append] at hf
    obtain ⟨b2, dst2, h2, hb2, hr2, hs2, hw2⟩ := ih (f := f) hcap hb1 hr1 (by omega) (hw.push v)
    refine ⟨b2, dst2, ?_, hb2, hr2, hs2.trans hs1, hw2⟩
    rw [inflateBlock, h1]
    simp only [hb1.noerr, Bool.false_eq_true, if_false]
    rw [if_neg (by omega), if_pos hv, if_neg (by omega), UInt8.ofNat_toNat]
    rw [length_append, length_singleton] at h2
    exact h2
  | @copy c d bs rest out out' lsym le dsym de hls hds hs hle hsd hde hdist hrest ih => ?_
  obtain _ | f := f
  · omega
  obtain ⟨hlx, hlb, hl24⟩ := length_tables hls
  obtain ⟨hdx, hdb, hd24, hd0⟩ := distance_tables hds
  obtain ⟨b1, h1, hb1, hr1, hs1⟩ := hl _ _ b _ trivial hs hb hrem
  obtain ⟨b2, h2, hb2, hr2, hs2⟩ := bits_spec hb1 hl24 hle hr1
  obtain ⟨b3, h3, hb3, hr3, hs3⟩ := hd _ _ b2 _ hds hsd hb2 hr2
  obtain ⟨b4, h4, hb4, hr4, hs4⟩ := bits_spec hb3 hd24 hde hr3
  have hmono := codes_length_le hrest
  rw [copyFrom_length] at hmono
  have hadd : add32 out.length (lengthBase lsym + le) = out.length + (lengthBase lsym + le) :=
    Nat.mod_eq_of_lt (by omega)
  have hcopy := @copyLoop_spec (distanceBase dsym + de) out.length
    (out.length - (distanceBase dsym + de)) (lengthBase lsym + le) 0 dst out
    (by omega) rfl (by omega) (by omega) hw
  have hpos := sends_pos hs
  simp only [length_append] at hf
  obtain ⟨b5, dst5, h5, hb5, hr5, hs5, hw5⟩ := ih (f := f) hcap hb4 hr4 (by omega) hcopy
  refine ⟨b5, dst5, ?_, hb5, hr5, by rw [hs5, hs4, hs3, hs2, hs1], hw5⟩
  rw [inflateBlock, h1]
  simp only [hb1.noerr, Bool.false_eq_true, if_false]
  rw [if_neg (by omega), if_neg (by omega), if_neg (by omega), Nat.add_sub_cancel_left, hlx, hlb, h2]
  simp only [h3, hb3.noerr, Bool.false_eq_true, if_false]
  rw [if_neg (by omega), hdx, hdb, h4]
  simp only
  rw [if_neg (by omega), hadd, if_neg (by omega)]
  rw [copyFrom_length] at h5
  exact h5

/-! ## Code lengths -/

theorem lengths_length_le (h : Lengths cl bs lens rest lens') : lens.length ≤ lens'.length := by
  induction h with
  | stop => exact le_rfl
  | one l _ _ _ ih | again l r _ _ _ ih | zeros r _ _ _ ih | manyZeros r _ _ _ ih =>
    rw [length_append] at ih
    omega

theorem lengths_le_fifteen
    (h : Lengths cl bs lens rest lens') (hle : ∀ l ∈ lens, l ≤ 15) : ∀ l ∈ lens', l ≤ 15 := by
  induction h with
  | stop => exact hle
  | one l hl _ _ ih => exact ih (forall_mem_append.2 ⟨hle, forall_mem_singleton.2 (by omega)⟩)
  | again l r _ _ _ ih =>
    refine ih (forall_mem_append.2 ⟨hle, fun x hx => ?_⟩)
    rw [eq_of_mem_replicate hx]
    exact hle l (mem_append_right _ mem_cons_self)
  | zeros r _ _ _ ih | manyZeros r _ _ _ ih =>
    refine ih (forall_mem_append.2 ⟨hle, fun x hx => ?_⟩)
    rw [eq_of_mem_replicate hx]
    omega

theorem pushReps_eq {total v rep : Nat} {lengths : List Nat} (h : lengths.length + rep ≤ total) :
    pushReps total v rep lengths = lengths ++ List.replicate rep v := by
  induction rep generalizing lengths with
  | zero => exact (append_nil _).symm
  | succ rep ih =>
    rw [pushReps, if_pos (by omega), ih (by rw [length_append, length_singleton]; omega), append_assoc]
    rfl

theorem lengthsLoop_spec {clc : Huff} (hd : Decodes clc cl fun _ => True) {lens lens' : List Nat}
    (h : Lengths cl bs lens rest lens') {f : Nat}
    {b : Bitr} (hb : b.Ok) (hrem : b.rem = bs) (hf : lens'.length ≤ lens.length + f) :
    ∃ b', lengthsLoop clc lens'.length f b lens = .ok (lens', b') ∧ b'.Ok ∧ b'.rem = rest ∧
      b'.src = b.src := by
  induction h generalizing f b with
  | stop =>
    refine ⟨b, ?_, hb, hrem, rfl⟩
    cases f with
    | zero | succ f => rw [lengthsLoop, if_neg (lt_irrefl _)]
  | @one c bs rest lens lens' l hl hs hrest ih =>
    have hmono := lengths_length_le hrest
    rw [length_append, length_singleton] at hmono
    obtain _ | f := f
    · omega
    obtain ⟨b1, h1, hb1, hr1, hs1⟩ := hd _ _ b _ trivial hs hb hrem
    obtain ⟨b2, h2, hb2, hr2, hs2⟩ := @ih f b1 hb1 hr1 (by rw [length_append, length_singleton]; omega)
    refine ⟨b2, ?_, hb2, hr2, hs2.trans hs1⟩
    rw [lengthsLoop, if_pos (by omega), h1]
    simp only [hb1.noerr, Bool.false_eq_true, if_false]
    rw [if_pos hl]
    exact h2
  | @again c bs rest lens lens' l r hr hs hrest ih =>
    have hmono := lengths_length_le hrest
    rw [length_append, length_replicate] at hmono
    have hone : (lens ++ [l]).length = lens.length + 1 := by rw [length_append, length_singleton]
    obtain _ | f := f
    · omega
    obtain ⟨b1, h1, hb1, hr1, hs1⟩ := hd _ _ b _ trivial hs hb hrem
    obtain ⟨b2, h2, hb2, hr2, hs2⟩ := bits_spec hb1 (by omega) (by omega) hr1
    obtain ⟨b3, h3, hb3, hr3, hs3⟩ := @ih f b2 hb2 hr2 (by rw [length_append, length_replicate]; omega)
    refine ⟨b3, ?_, hb3, hr3, hs3.trans (hs2.trans hs1)⟩
    rw [lengthsLoop, if_pos (by omega), h1]
    simp only [hb1.noerr, Bool.false_eq_true, if_false]
    rw [if_neg (by decide), if_pos trivial, if_neg (by omega), h2]
    have hlast : (lens ++ [l]).getD ((lens ++ [l]).length - 1) 0 = l := by
      rw [hone, Nat.add_sub_cancel, getD_eq_getElem?_getD, getElem?_concat_length]
      rfl
    simp only [hlast]
    rw [pushReps_eq (by omega)]
    exact h3
  | @zeros c bs rest lens lens' r hr hs hrest ih | @manyZeros c bs rest lens lens' r hr hs hrest ih =>
    have hmono := lengths_length_le hrest
    rw [length_append, length_replicate] at hmono
    obtain _ | f := f
    · omega
    obtain ⟨b1, h1, hb1, hr1, hs1⟩ := hd _ _ b _ trivial hs hb hrem
    obtain ⟨b2, h2, hb2, hr2, hs2⟩ := bits_spec hb1 (by omega) (by omega) hr1
    obtain ⟨b3, h3, hb3, hr3, hs3⟩ := @ih f b2 hb2 hr2 (by rw [length_append, length_replicate]; omega)
    refine ⟨b3, ?_, hb3, hr3, hs3.trans (hs2.trans hs1)⟩
    rw [lengthsLoop, if_pos (by omega), h1]
    simp +decide only [hb1.noerr, h2, if_false, if_true]
    rw [pushReps_eq (by omega)]
    exact h3

/-! ## The code length code -/

theorem readClc_spec {os acc : List Nat} {b : Bitr} (hb : b.Ok) (hcl : ∀ o ∈ os, cl.getD o 0 < 8)
    (hrem : b.rem = (os.flatMap fun o => lsb 3 (cl.getD o 0)) ++ rest) :
    ∃ b', readClc os b acc = (os.foldl (fun acc o => acc.set o (cl.getD o 0)) acc, b') ∧
      b'.Ok ∧ b'.rem = rest ∧ b'.src = b.src := by
  induction os generalizing acc b with
  | nil => exact ⟨b, rfl, hb, hrem, rfl⟩
  | cons o os ih => ?_
  rw [flatMap_cons, append_assoc] at hrem
  obtain ⟨b1, h1, hb1, hr1, hs1⟩ := bits_spec hb (by omega) (hcl o mem_cons_self : _ < 2 ^ 3) hrem
  obtain ⟨b2, h2, hb2, hr2, hs2⟩ := @ih (acc.set o (cl.getD o 0)) b1 hb1 (forall_mem_cons.1 hcl).2 hr1
  refine ⟨b2, ?_, hb2, hr2, hs2.trans hs1⟩
  rw [readClc, h1]
  exact h2

theorem foldl_set_getElem? (f : Nat → Nat) (os acc : List Nat) (i : Nat) (hi : i < acc.length) :
    (os.foldl (fun acc o => acc.set o (f o)) acc)[i]? = some (if i ∈ os then f i else acc.getD i 0) := by
  induction os generalizing acc with
  | nil =>
    rw [foldl_nil, if_neg not_mem_nil, getElem?_eq_getElem hi, ← getElem_eq_getD 0]
  | cons o os ih => ?_
  rw [foldl_cons, ih _ (by rw [length_set]; exact hi)]
  by_cases hos : i ∈ os
  · rw [if_pos hos, if_pos (mem_cons_of_mem _ hos)]
  rw [if_neg hos]
  by_cases ho : i = o
  · subst ho
    rw [if_pos mem_cons_self, getD_eq_getElem?_getD, getElem?_set_self hi]
    rfl
  rw [if_neg (by simp [ho, hos]), getD_eq_getElem?_getD, getElem?_set_ne (Ne.symm ho),
    ← getD_eq_getElem?_getD]

/-- The lengths that are sent, with zero for the others, are all of them. -/
theorem clc_all {hclen : Nat} (hlen : cl.length = 19) (hzero : ∀ o ∈ clOrder.drop hclen, cl.getD o 0 = 0) :
    (clOrder.take hclen).foldl (fun acc o => acc.set o (cl.getD o 0)) (List.replicate 19 0) = cl := by
  have hperm : ∀ i < 19, i ∈ clOrder := by decide
  apply ext_getElem?
  intro i
  rcases lt_or_ge i 19 with hi | hi
  · rw [foldl_set_getElem? _ _ _ _ (by simpa using hi)]
    have hcl : cl[i]? = some (cl.getD i 0) := by
      rw [getElem?_eq_getElem (by omega), ← getElem_eq_getD 0]
    rw [hcl]
    congr 1
    split
    · rfl
    next hno =>
    have hmem := hperm i hi
    rw [← take_append_drop hclen clOrder] at hmem
    rcases mem_append.1 hmem with hmem | hmem
    · exact absurd hmem hno
    rw [hzero i hmem, getD_eq_getElem?_getD, getElem?_replicate_of_lt hi]
    rfl
  have hlen' : ∀ (os acc : List Nat),
      (os.foldl (fun acc o => acc.set o (cl.getD o 0)) acc).length = acc.length := by
    intro os
    induction os with
    | nil => exact fun acc => rfl
    | cons o os ih =>
      intro acc
      rw [foldl_cons, ih, length_set]
  rw [getElem?_eq_none (by rw [hlen', length_replicate]; exact hi), getElem?_eq_none (by omega)]

end Embedded.Kernel.Inflate
