import Embedded.Kernel.InflateBlocks

/-! # The inflater on well-formed streams

What `inflate_raw` makes of a stream. The tables of a fixed or dynamic block decode its codes; a block
advances the output as the format says, unless it is a dynamic one with more than 30 distance codes
or the output reaches half of the address space, whose size is then taken for an error
(`rawBlock_spec`). By induction over the blocks the same holds of the stream. -/

namespace Embedded.Kernel.Inflate

open Canonical Gzip
open List

variable {ll dl : List Nat} {hlit hdist v : Nat} {src t data : List UInt8}

/-! ## The tables of a block -/

set_option maxRecDepth 6000 in
theorem fixedLit_eq : fixedLit = fixedLitLengths := by decide

theorem fixedLit_max : ∀ l ∈ fixedLit, l ≤ 9 := by
  intro l hl
  simp only [fixedLit, mem_append, mem_replicate] at hl
  omega

set_option maxRecDepth 6000 in
theorem fixedLit_fits : Fits fixedLit := fits_of_le fixedLit_max (by decide)

theorem fixedDist_max : ∀ l ∈ fixedDist, l ≤ 5 := by decide

theorem fixedDist_fits : Fits fixedDist := fits_of_le fixedDist_max (by decide)

/-- The two distance codes that are left out come last. -/
theorem fixedDist_word : ∀ s < 30, word fixedDistLengths s = word fixedDist s := by decide

theorem buildTables_fixed (b : Bitr) : ∃ lh dh, buildTables 1 b = .ok (lh, dh, b) ∧
    Decodes lh fixedLitLengths (fun _ => True) ∧ Decodes dh fixedDistLengths fun s => s < 30 := by
  obtain ⟨lh, hlh, htl⟩ := huffBuild_spec fixedLit_fits
  obtain ⟨dh, hdh, htd⟩ := huffBuild_spec fixedDist_fits
  refine ⟨lh, dh, ?_, ?_, ?_⟩
  · rw [buildTables, if_pos rfl, hlh, hdh]
  · rw [← fixedLit_eq]
    exact htl.decodes fixedLit_fits fun l hl => le_trans (fixedLit_max l hl) (by decide)
  rintro s c b rest hs ⟨-, rfl⟩ hb hrem
  have hmax : ∀ l ∈ fixedDist, l ≤ 15 := fun l hl =>
    le_trans (fixedDist_max l hl) (by decide)
  have hword : HasWord fixedDist s := by
    have h : ∀ s < 30, s < fixedDist.length ∧ len fixedDist s ≠ 0 := by decide
    exact h s hs
  exact htd.decodes fixedDist_fits hmax s _ b rest trivial ⟨hword, fixedDist_word s hs⟩ hb hrem

variable {bs rest : List Bool} {out out' : List UInt8} {b : Bitr} {dst : Mem} {dstcap : Nat}
  {w : Bool}

theorem codes_end (h : Codes ll dl bs out rest out') : HasWord ll 256 := by
  induction h with
  | stop hs => exact hs.1
  | literal _ _ _ ih => exact ih
  | copy _ _ _ _ _ _ _ _ _ _ _ _ ih => exact ih

/-- The counts at the front of a dynamic block; more than 30 distance codes are an error. -/
theorem buildDynamic_wide (hb : b.Ok) (hl : hlit < 32) (hw : 30 ≤ hdist) (hd : hdist < 32)
    (hrem : b.rem = lsb 5 hlit ++ (lsb 5 hdist ++ bs)) : buildDynamic b = .error (-1) := by
  obtain ⟨b1, h1, hb1, hr1, -⟩ := bits_spec hb (by omega) hl hrem
  obtain ⟨b2, h2, hb2, hr2, -⟩ := bits_spec hb1 (by omega) hd hr1
  unfold buildDynamic
  simp only [h1, h2]
  rw [if_pos (.inr (by omega))]

theorem buildDynamic_spec (hb : b.Ok) {hclen : Nat} {cl lens : List Nat}
    {mid : List Bool} (hl : 257 ≤ hlit ∧ hlit ≤ 286) (hd : 1 ≤ hdist ∧ hdist ≤ 30)
    (hc : 4 ≤ hclen ∧ hclen ≤ 19) (hcl : cl.length = 19) (hcl8 : ∀ l ∈ cl, l < 8)
    (hzero : ∀ o ∈ clOrder.drop hclen, cl.getD o 0 = 0) (hfit : Fits cl)
    (hlens : Lengths cl bs [] mid lens) (hlen : lens.length = hlit + hdist)
    (hfl : Fits (lens.take hlit)) (hfd : Fits (lens.drop hlit)) (hend : HasWord (lens.take hlit) 256)
    (hrem : b.rem = lsb 5 (hlit - 257) ++ (lsb 5 (hdist - 1) ++ (lsb 4 (hclen - 4) ++
      (clcBits cl hclen ++ bs)))) :
    ∃ lh dh b', buildDynamic b = .ok (lh, dh, b') ∧
      Decodes lh (lens.take hlit) (fun _ => True) ∧ Decodes dh (lens.drop hlit) (fun _ => True) ∧
      b'.Ok ∧ b'.rem = mid ∧ b'.src = b.src := by
  obtain ⟨b1, h1, hb1, hr1, hs1⟩ := bits_spec hb (by omega) (by omega) hrem
  obtain ⟨b2, h2, hb2, hr2, hs2⟩ := bits_spec hb1 (by omega) (by omega) hr1
  obtain ⟨b3, h3, hb3, hr3, hs3⟩ := bits_spec hb2 (by omega) (by omega) hr2
  have hget : ∀ o, cl.getD o 0 < 8 := by
    intro o
    rw [getD_eq_getElem?_getD]
    cases ho : cl[o]? with
    | none => exact Nat.succ_pos 7
    | some l => exact hcl8 l (mem_of_getElem? ho)
  obtain ⟨b4, h4, hb4, hr4, hs4⟩ := readClc_spec hb3 (fun o _ => hget o) hr3
  rw [clc_all hcl hzero] at h4
  obtain ⟨clc, hclc, htc⟩ := huffBuild_spec hfit
  have hdec := htc.decodes hfit fun l hl => le_trans (le_of_lt (hcl8 l hl)) (by decide)
  obtain ⟨b5, h5, hb5, hr5, hs5⟩ := @lengthsLoop_spec bs mid cl clc hdec [] lens hlens
    (hlit + hdist) b4 hb4 hr4 (by rw [hlen, length_nil]; omega)
  have hmax := lengths_le_fifteen hlens fun l hl => absurd hl not_mem_nil
  obtain ⟨lh, hlh, htl⟩ := huffBuild_spec hfl
  obtain ⟨dh, hdh, htd⟩ := huffBuild_spec hfd
  refine ⟨lh, dh, b5, ?_, htl.decodes hfl fun l hl => hmax l (mem_of_mem_take hl),
    htd.decodes hfd fun l hl => hmax l (mem_of_mem_drop hl), hb5, hr5,
    by rw [hs5, hs4, hs3, hs2, hs1]⟩
  have h256 : lens.getD 256 0 ≠ 0 := by
    have hne := hend.2
    rw [len, getD_eq_getElem?_getD, getElem?_take_of_lt (by omega), ← getD_eq_getElem?_getD] at hne
    exact hne
  have htake : (lens.drop hlit).take hdist = lens.drop hlit := take_of_length_le (by rw [length_drop]; omega)
  unfold buildDynamic
  simp only [h1, h2, h3, Nat.sub_add_cancel hl.1, Nat.sub_add_cancel hd.1, Nat.sub_add_cancel hc.1]
  rw [if_neg (by omega), show clcOrder = clOrder from rfl, h4]
  rw [hlen] at h5
  simp only [hclc, h5, if_neg h256, hlh, htake, hdh]

/-! ## Stored blocks -/

theorem bitsOf_leBytes (n v : Nat) : bitsOf (leBytes n v) = lsb (8 * n) v := by
  induction n generalizing v with
  | zero => rfl
  | succ n ih => ?_
  have hbyte : lsb 8 (UInt8.ofNat v).toNat = lsb 8 v := by rw [UInt8.toNat_ofNat', lsb_mod]
  rw [leBytes, bitsOf_cons, ih, hbyte, @lsb_split 8 (8 * (n + 1)) v (by omega)]
  rfl

theorem getD_drop (src : List UInt8) (p i : Nat) : src.getD (p + i) 0 = (src.drop p).getD i 0 := by
  rw [getD_eq_getElem?_getD, getD_eq_getElem?_getD, getElem?_drop]

theorem le16_leBytes {p : Nat} (h : src.drop p = leBytes 2 v ++ t) : le16 src p = v % 65536 := by
  have h0 : src.getD p 0 = UInt8.ofNat v := by
    have h0 := getD_drop src p 0
    rw [h] at h0
    exact h0
  have h1 : src.getD (p + 1) 0 = UInt8.ofNat (v / 256) := by
    rw [getD_drop, h]
    rfl
  rw [le16, h0, h1, UInt8.toNat_ofNat', UInt8.toNat_ofNat']
  omega

theorem drop_add {α : Type} {src as bs : List α} {p n : Nat} (h : src.drop p = as ++ bs)
    (hn : as.length = n) : src.drop (p + n) = bs := by rw [← drop_drop, h, drop_left' hn]

theorem storeLoop_spec {pos : Nat}
    (hsrc : src.drop pos = data ++ t) (hlt : out.length + data.length < 4294967296)
    (hw : Written dst out) : Written (storeLoop src data.length pos out.length dst) (out ++ data) := by
  induction data generalizing pos dst out with
  | nil =>
    rw [append_nil]
    exact hw
  | cons c data ih => ?_
  rw [length_cons] at hlt
  have hc : src.getD pos 0 = c := by
    have hc := getD_drop src pos 0
    rw [hsrc] at hc
    exact hc
  have hadd : add32 out.length 1 = (out ++ [c]).length := by
    rw [add32, Nat.mod_eq_of_lt (by omega), length_append, length_singleton]
  have hrec := @ih (out ++ [c]) _ (pos + 1) (@drop_add _ src [c] (data ++ t) pos 1 hsrc rfl)
    (by rw [length_append, length_singleton]; omega) (hw.push c)
  rw [length_cons, storeLoop, hc, hadd]
  rw [append_assoc] at hrec
  exact hrec

theorem xor_ones (h : v < 65536) : v ^^^ 0xFFFF = 65535 - v := by
  have hnot := congrArg BitVec.toNat (@BitVec.xor_allOnes 16 (BitVec.ofNat 16 v))
  rw [BitVec.toNat_xor, BitVec.toNat_not, BitVec.toNat_allOnes, BitVec.toNat_ofNat,
    Nat.mod_eq_of_lt h] at hnot
  exact hnot

theorem storedBlock_spec (hb : b.Ok) {pad : List Bool}
    (hdata : data.length < 65536) (hpad : pad.length < 8) (hrest : rest.length % 8 = 0)
    (hrem : b.rem = pad ++ (lsb 16 data.length ++ (lsb 16 (65535 - data.length) ++
      (bitsOf data ++ rest)))) (hcap : (out ++ data).length ≤ dstcap)
    (hlt : dstcap < 4294967296) (hsrc : b.src.length < 4294967296) (hw : Written dst out) :
    ∃ b' dst', storedBlock b dst dstcap out.length = .ok (b', dst', (out ++ data).length) ∧
      b'.Ok ∧ b'.rem = rest ∧ b'.src = b.src ∧ Written dst' (out ++ data) := by
  -- the padding is what the reader has buffered
  have hlen := congrArg length hrem
  rw [Bitr.rem_length] at hlen
  simp only [length_append, lsb_length, bitsOf_length] at hlen
  have hcnt := hb.cnt
  have hpadlen : b.bitcnt = pad.length := by omega
  obtain ⟨tail, htail⟩ := @exists_bitsOf rest (rest.length / 8) (by omega)
  have hbytes : b.src.drop b.pos = leBytes 2 data.length ++
      (leBytes 2 (65535 - data.length) ++ (data ++ tail)) := by
    have hsplit := (append_inj hrem (by rw [lsb_length, hpadlen])).2
    apply bitsOf_inj
    rw [hsplit, htail, bitsOf_append, bitsOf_append, bitsOf_append, bitsOf_leBytes, bitsOf_leBytes]
  have hb2 := drop_add hbytes (n := 2) rfl
  have hb4 : b.src.drop (b.pos + 4) = data ++ tail := drop_add hb2 (n := 2) rfl
  have hlast : b.src.drop (b.pos + 4 + data.length) = tail := drop_add hb4 rfl
  have hlen16 : le16 b.src b.pos = data.length := by rw [le16_leBytes hbytes, Nat.mod_eq_of_lt hdata]
  have hnlen16 : le16 b.src (b.pos + 2) = 65535 - data.length := by
    rw [le16_leBytes hb2, Nat.mod_eq_of_lt (by omega)]
  rw [length_append] at hcap
  have ha1 : add32 b.pos 4 = b.pos + 4 := Nat.mod_eq_of_lt (by omega)
  have ha2 : add32 (b.pos + 4) data.length = b.pos + 4 + data.length := Nat.mod_eq_of_lt (by omega)
  have ha3 : add32 out.length data.length = out.length + data.length := Nat.mod_eq_of_lt (by omega)
  have hrem' : Bitr.rem ⟨b.src, b.pos + 4 + data.length, 0, 0, b.err⟩ = rest := by
    rw [Bitr.rem, htail]
    simp only [hlast]
    rfl
  refine ⟨⟨b.src, b.pos + 4 + data.length, 0, 0, b.err⟩,
    storeLoop b.src data.length (b.pos + 4) out.length dst, ?_, ⟨Nat.one_pos, Nat.succ_pos 7,
      hb.noerr, ?_⟩, hrem', rfl, storeLoop_spec hb4 (by omega) hw⟩
  · unfold storedBlock
    rw [ha1, if_neg (by omega)]
    simp only [hlen16, hnlen16]
    rw [if_neg (not_not.2 (xor_ones hdata)), ha2, if_neg (by omega), ha3, if_neg (by omega), length_append]
  rw [Bitr.rem_length]
  show 0 + 8 * (b.src.length - (b.pos + 4 + data.length)) ≤ 8 * b.src.length
  omega

/-! ## One block -/

/-- A result that is either an error, for one of the two reasons there are, or right. -/
def Outcome {α : Type} (wide : Bool) (size : Nat) (r : Except Int α) (right : α → Prop) : Prop :=
  (∃ e, r = .error e ∧ (wide = true ∨ 2147483648 ≤ size)) ∨ (wide = false ∧ ∃ a, r = .ok a ∧ right a)

theorem toS_neg (h : v < 4294967296) : toS v < 0 ↔ 2147483648 ≤ v := by
  rw [← not_le, toS_nonneg_iff h, not_lt]

/-- The coded data of a block, with tables that decode it. -/
theorem coded_spec {lh dh : Huff} (hl : Decodes lh ll fun _ => True)
    (hd : Decodes dh dl fun s => s < 30) {b0 b : Bitr} {type : Nat} (htype : type = 1 ∨ type = 2)
    (hbuild : buildTables type b0 = .ok (lh, dh, b)) (hb : b.Ok) (hc : Codes ll dl b.rem out rest out')
    (hcap : out'.length ≤ dstcap) (hlt : dstcap < 4294967296) (hw : Written dst out) :
    Outcome false out'.length (rawBlock type b0 dst dstcap out.length) fun r =>
      r.1.Ok ∧ r.1.rem = rest ∧ r.1.src = b.src ∧ Written r.2.1 out' ∧ r.2.2 = out'.length := by
  obtain ⟨b', dst', h, hb', hr', hs', hw'⟩ :=
    inflateBlock_spec hl hd hc hcap hlt hb rfl (Nat.lt_succ_of_le hb.le) hw
  have hraw : rawBlock type b0 dst dstcap out.length =
      if toS out'.length < 0 then .error (toS out'.length) else .ok (b', dst', out'.length) := by
    unfold rawBlock
    rw [if_neg (by omega), if_pos htype, hbuild]
    simp only [h]
  rw [hraw]
  by_cases hneg : toS out'.length < 0
  · rw [if_pos hneg]
    exact .inl ⟨_, rfl, .inr ((toS_neg (by omega)).1 hneg)⟩
  rw [if_neg hneg]
  exact .inr ⟨rfl, _, rfl, hb', hr', hs', hw', rfl⟩

/-- A block whose type has been read. -/
theorem rawBlock_spec
    (h : Body w bs out rest out') (hb : b.Ok) (hrem : b.rem = bs) (hcap : out'.length ≤ dstcap)
    (hlt : dstcap < 4294967296)
    (hsrc : b.src.length < 4294967296) (hw : Written dst out) :
    (bits b 2).2.err = false ∧
    Outcome w out'.length (rawBlock (bits b 2).1 (bits b 2).2 dst dstcap out.length) fun r =>
      r.1.Ok ∧ r.1.rem = rest ∧ r.1.src = b.src ∧ Written r.2.1 out' ∧ r.2.2 = out'.length := by
  cases h with
  | stored data hdata hpad hrest =>
    obtain ⟨b1, h1, hb1, hr1, hs1⟩ := bits_spec hb (by omega) (by decide) hrem
    rw [h1]
    refine ⟨hb1.noerr, .inr ⟨rfl, ?_⟩⟩
    obtain ⟨b2, dst2, h2, hb2, hr2, hs2, hw2⟩ :=
      storedBlock_spec hb1 hdata hpad hrest hr1 hcap hlt (by rw [hs1]; exact hsrc) hw
    refine ⟨(b2, dst2, (out ++ data).length), ?_, hb2, hr2, hs2.trans hs1, hw2, rfl⟩
    rw [rawBlock, if_pos rfl, h2]
  | fixed hc =>
    obtain ⟨b1, h1, hb1, hr1, hs1⟩ := bits_spec hb (by omega) (by decide) hrem
    rw [h1]
    obtain ⟨lh, dh, hbuild, hl, hd⟩ := buildTables_fixed b1
    rw [← hr1] at hc
    have := coded_spec hl hd (.inl rfl) hbuild hb1 hc hcap hlt hw
    rw [hs1] at this
    exact ⟨hb1.noerr, this⟩
  | @dynamic bs' mid _ _ _ hlit hdist hclen cl lens hl1 hl2 hd1 hd2 hc1 hc2 hcl hcl8 hzero hfit
      hlens hlen hfl hfd hc =>
    obtain ⟨b1, h1, hb1, hr1, hs1⟩ := bits_spec hb (by omega) (by decide) hrem
    rw [h1]
    refine ⟨hb1.noerr, ?_⟩
    by_cases hwide : 30 < hdist
    · have herr := buildDynamic_wide hb1 (by omega) (by omega) (by omega) hr1
      refine .inl ⟨-15, ?_, .inl (decide_eq_true hwide)⟩
      simp only
      rw [rawBlock, if_neg (by decide), if_pos (.inr rfl), buildTables, if_neg (by decide), herr]
    rw [decide_eq_false hwide]
    obtain ⟨lh, dh, b2, h2, hdl, hdd, hb2, hr2, hs2⟩ :=
      buildDynamic_spec hb1 ⟨hl1, hl2⟩ ⟨hd1, by omega⟩ ⟨hc1, hc2⟩ hcl hcl8 hzero hfit hlens hlen
        hfl hfd (codes_end hc) hr1
    have hbuild : buildTables 2 b1 = .ok (lh, dh, b2) := by rw [buildTables, if_neg (by decide), h2]
    rw [← hr2] at hc
    have := coded_spec hdl (hdd.mono fun _ _ => trivial) (.inr rfl) hbuild hb2 hc hcap hlt hw
    rw [hs2, hs1] at this
    exact this

/-! ## A stream -/

theorem body_length_le (h : Body w bs out rest out') : out.length ≤ out'.length := by
  cases h with
  | stored data =>
    rw [length_append]
    omega
  | fixed hc | dynamic _ _ _ _ _ _ _ _ _ _ _ _ _ _ _ _ _ _ _ hc => exact codes_length_le hc

theorem stream_length_le (h : Stream w bs out rest out') : out.length ≤ out'.length := by
  induction h with
  | last hbody => exact body_length_le hbody
  | more hbody _ ih => exact le_trans (body_length_le hbody) ih

theorem body_rest_lt (h : Body w bs out rest out') : rest.length ≤ bs.length := by
  have hcodes : ∀ {ll dl bs rest out out'}, Codes ll dl bs out rest out' → rest.length ≤ bs.length := by
    intro ll dl bs rest out out' hc
    induction hc with
    | stop | literal _ _ _ ih =>
      rw [length_append]
      omega
    | copy _ _ _ _ _ _ _ _ _ _ _ _ ih =>
      simp only [length_append]
      omega
  have hlengths : ∀ {cl bs rest lens lens'}, Lengths cl bs lens rest lens' → rest.length ≤ bs.length := by
    intro cl bs rest lens lens' hc
    induction hc with
    | stop => exact le_rfl
    | one _ _ _ _ ih =>
      rw [length_append]
      omega
    | again _ _ _ _ _ ih | zeros _ _ _ _ ih | manyZeros _ _ _ _ ih =>
      simp only [length_append]
      omega
  cases h with
  | stored data =>
    simp only [length_append]
    omega
  | fixed hc =>
    have := hcodes hc
    rw [length_append]
    omega
  | dynamic _ _ _ _ _ _ _ _ _ _ _ _ _ _ _ hlens _ _ _ hc => ?_
  have := hcodes hc
  have := hlengths hlens
  simp only [length_append]
  omega

theorem rawLoop_spec (h : Stream w bs out rest out') (hb : b.Ok) (hrem : b.rem = bs)
    {f : Nat} (hcap : out'.length ≤ dstcap) (hlt : dstcap < 4294967296)
    (hsrc : b.src.length < 4294967296) (hf : bs.length < f) (hw : Written dst out) :
    Outcome w out'.length (rawLoop dstcap f b dst out.length) fun r =>
      Written r.1 out' ∧ r.2 = out'.length := by
  induction h generalizing b dst f with
  | last hbody =>
    obtain _ | f := f
    · omega
    obtain ⟨b1, h1, hb1, hr1, hs1⟩ := bits_spec hb (by omega) (by decide) hrem
    obtain ⟨herr, hout⟩ := rawBlock_spec hbody hb1 hr1 hcap hlt (by rw [hs1]; exact hsrc) hw
    rw [rawLoop]
    simp only [h1, herr, Bool.false_eq_true, if_false]
    rcases hout with ⟨e, hblock, hwhy⟩ | ⟨hwide, ⟨b2, dst2, n⟩, hblock, -, -, -, hw2, hn⟩
    · rw [hblock]
      exact .inl ⟨e, rfl, hwhy⟩
    rw [hblock]
    exact .inr ⟨hwide, _, rfl, hw2, hn⟩
  | @more w w' bs mid out out' rest out'' hbody hstream ih => ?_
  obtain _ | f := f
  · omega
  obtain ⟨b1, h1, hb1, hr1, hs1⟩ := bits_spec hb (by omega) (by decide) hrem
  have hmono := stream_length_le hstream
  have hbits := body_rest_lt hbody
  rw [length_append, lsb_length] at hf
  obtain ⟨herr, hout⟩ := rawBlock_spec hbody hb1 hr1 (le_trans hmono hcap) hlt (by rw [hs1]; exact hsrc) hw
  rw [rawLoop]
  simp only [h1, herr, Bool.false_eq_true, if_false]
  rcases hout with ⟨e, hblock, hwhy⟩ | ⟨hwide, ⟨b2, dst2, n⟩, hblock, hb2, hr2, hs2, hw2, hn⟩
  · rw [hblock]
    refine .inl ⟨e, rfl, ?_⟩
    rcases hwhy with hwhy | hwhy
    · exact .inl (by rw [hwhy, Bool.true_or])
    exact .inr (le_trans hwhy hmono)
  rw [hblock, hwide, Bool.false_or]
  simp only at hb2 hr2 hs2 hw2 hn
  rw [hn]
  exact ih hb2 hr2 hcap (by rw [hs2, hs1]; exact hsrc) (by omega) hw2

/-- **`inflate_raw` decodes every stream**, but for the two exceptions. -/
theorem inflateRaw_spec (h : Stream w (bitsOf src) [] rest data) (dst : Mem)
    (hcap : data.length ≤ dstcap) (hlt : dstcap < 4294967296) (hsrc : src.length < 4294967296) :
    Outcome w data.length (inflateRaw src dst dstcap) fun r =>
      Written r.1 data ∧ r.2 = data.length ∧ data.length < 2147483648 := by
  have hrem : Bitr.rem ⟨src, 0, 0, 0, false⟩ = bitsOf src := rfl
  have hok : Bitr.Ok ⟨src, 0, 0, 0, false⟩ := by
    refine ⟨Nat.one_pos, Nat.succ_pos 7, rfl, ?_⟩
    rw [hrem, bitsOf_length]
  have hnil : Written dst [] := fun i hi => absurd hi (Nat.not_lt_zero i)
  have hfuel : (bitsOf src).length < 8 * src.length + 1 := by
    rw [bitsOf_length]
    omega
  have hrun := rawLoop_spec h hok hrem hcap hlt hsrc hfuel hnil
  rw [length_nil] at hrun
  unfold inflateRaw
  rcases hrun with ⟨e, hloop, hwhy⟩ | ⟨hwide, ⟨dst2, n⟩, hloop, hw, hn⟩
  · rw [hloop]
    exact .inl ⟨e, rfl, hwhy⟩
  subst hn
  rw [hloop]
  simp only
  by_cases hneg : toS data.length < 0
  · rw [if_pos hneg]
    exact .inl ⟨_, rfl, .inr ((toS_neg (by omega)).1 hneg)⟩
  rw [if_neg hneg]
  have hsmall := (not_congr (toS_neg (by omega))).1 hneg
  exact .inr ⟨hwide, _, rfl, hw, rfl, by omega⟩

end Embedded.Kernel.Inflate
