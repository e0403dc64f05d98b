import Embedded.Bootloader.FdtWalk

/-! # Setting the boot arguments

An edit that puts one property in the place of some bytes of the structure block, and moves what follows,
leaves a blob that describes the tree with that property. Growing and inserting are such edits for the
command line with its terminator. Overwriting in place keeps the old length: it is one for the command line
cut or filled up to that length, which is the command line with its terminator just if the lengths are the
same. -/

namespace Embedded.Bootloader

open List

variable {delta total n off : Nat} {s : CStr}

/-! ## Writing memory -/

variable {a p v w x : Nat} {d : Mem}

theorem wr32_of_ne (h : x < p ∨ p + 4 ≤ x) : wr32 d p v x = d x := by
  unfold wr32
  rw [if_neg (by omega), if_neg (by omega), if_neg (by omega), if_neg (by omega)]

theorem be32_wr32 (hv : v < 4294967296) : be32 (wr32 d p v) p = v := by
  unfold be32 wr32
  simp [UInt8.toNat_ofNat']
  omega

theorem be32_wr32_of_ne (h : a + 4 ≤ p ∨ p + 4 ≤ a) : be32 (wr32 d p v) a = be32 d a :=
  be32_congr fun i hi => wr32_of_ne (by omega)

theorem hget_hset (hv : v < 4294967296) : hget (hset d w v) w = v := be32_wr32 hv

theorem hget_hset_of_ne {w' : Nat} (h : w' ≠ w) : hget (hset d w v) w' = hget d w' :=
  be32_wr32_of_ne (by omega)

theorem hset_of_le (hw : w ≤ 9) (hx : 40 ≤ x) : hset d w v x = d x := wr32_of_ne (by omega)

theorem hget_congr {d d' : Mem} (h : ∀ x < 40, d' x = d x) (hw : w ≤ 9) : hget d' w = hget d w :=
  be32_congr fun i hi => h _ (by omega)

/-- `shift_up` moves the bytes up, although it reads and writes the same memory. -/
theorem shiftUp_spec {start : Nat} : ∀ {n : Nat} (d : Mem), start + n + delta < 4294967296 → ∀ x,
    shiftUp d start delta n x = if start + delta ≤ x ∧ x < start + n + delta then d (x - delta) else d x := by
  intro n
  induction n with
  | zero =>
    intro d _ x
    rw [shiftUp, if_neg (by omega)]
  | succ n ih => ?_
  intro d hlt x
  rw [shiftUp, add32_of_lt (by omega), ih _ (by omega)]
  by_cases h1 : start + delta ≤ x ∧ x < start + n + delta
  · rw [if_pos h1, if_pos (by omega), Mem.w8, if_neg (by omega)]
  rw [if_neg h1, Mem.w8]
  by_cases h2 : x = start + n + delta
  · rw [if_pos h2, if_pos (by omega), show x - delta = start + n by omega]
  · rw [if_neg h2, if_neg (by omega)]

theorem resize_of_le (hx : 40 ≤ x) : resize d total delta x = d x := by
  unfold resize
  rw [hset_of_le (by decide) hx, hset_of_le (by decide) hx, hset_of_le (by decide) hx]

theorem hget_resize (h1 : total + delta < 4294967296)
    (h3 : hget d H_OFF_STRINGS + delta < 4294967296) (h9 : hget d H_SIZE_STRUCT + delta < 4294967296) :
    hget (resize d total delta) H_TOTALSIZE = total + delta ∧
      hget (resize d total delta) H_OFF_STRINGS = hget d H_OFF_STRINGS + delta ∧
      hget (resize d total delta) H_SIZE_STRUCT = hget d H_SIZE_STRUCT + delta ∧
      ∀ w, w ≠ H_TOTALSIZE → w ≠ H_OFF_STRINGS → w ≠ H_SIZE_STRUCT →
        hget (resize d total delta) w = hget d w := by
  have e3 : ∀ v, hget (hset d H_TOTALSIZE v) H_OFF_STRINGS = hget d H_OFF_STRINGS :=
    fun v => hget_hset_of_ne (by decide)
  have e9 : ∀ v v', hget (hset (hset d H_TOTALSIZE v) H_OFF_STRINGS v') H_SIZE_STRUCT = hget d H_SIZE_STRUCT :=
    fun v v' => (hget_hset_of_ne (by decide)).trans (hget_hset_of_ne (by decide))
  simp only [resize, e3, e9, add32_of_lt h1, add32_of_lt h3, add32_of_lt h9]
  refine ⟨?_, ?_, hget_hset h9, fun w hw1 hw3 hw9 => ?_⟩
  · rw [hget_hset_of_ne (by decide), hget_hset_of_ne (by decide), hget_hset h1]
  · rw [hget_hset_of_ne (by decide), hget_hset h3]
  rw [hget_hset_of_ne hw9, hget_hset_of_ne hw3, hget_hset_of_ne hw1]

/-! ## Values -/

/-- The command line with its terminator. -/
def argsValue (s : CStr) : List UInt8 := s.bytes ++ [0]

/-- The command line cut or filled up to a length. -/
def fitted (s : CStr) (n : Nat) : List UInt8 := (List.range n).map fun i => s.bytes.getD i 0

theorem fitted_length (s : CStr) (n : Nat) : (fitted s n).length = n := by simp [fitted]

theorem fitted_full (s : CStr) : fitted s (s.bytes.length + 1) = argsValue s := by
  unfold fitted argsValue
  rw [range_succ, map_append]
  congr 1
  · apply ext_getElem?
    intro i
    by_cases hi : i < s.bytes.length
    · simp [hi]
    simp [hi]
  simp

theorem fillValue_read {k : Nat} (hk : k ≤ n) : (fillValue d a n s).read a k = fitted s k := by
  unfold Mem.read fitted fillValue
  apply map_congr_left
  intro i hi
  have := mem_range.1 hi
  rw [if_pos (by omega), Nat.add_sub_cancel_left]

theorem fillValue_of_ne (h : x < a ∨ a + n ≤ x) : fillValue d a n s x = d x := if_neg (by omega)

theorem align4_room {n : Nat} (h : n + 3 < 4294967296) :
    ∃ room, alignUp n = room ∧ align4 n = room ∧ n ≤ room ∧ room ≤ n + 3 :=
  ⟨_, rfl, align4_eq h, le_alignUp n, by unfold alignUp; omega⟩

/-! ## Edits of a blob -/

/-- The bytes of the structure block from `lo` to `hi` are replaced, and what follows is moved by `delta`. -/
structure Edited (d d' : Mem) (lo hi delta : Nat) : Prop where
  below : ∀ x, 40 ≤ x → x < lo → d' x = d x
  above : ∀ x, hi ≤ x → x < hget d H_TOTALSIZE → d' (x + delta) = d x
  total : hget d' H_TOTALSIZE = hget d H_TOTALSIZE + delta
  offStrings : hget d' H_OFF_STRINGS = hget d H_OFF_STRINGS + delta
  sizeStruct : hget d' H_SIZE_STRUCT = hget d H_SIZE_STRUCT + delta
  others : ∀ w, w ≤ 9 → w ≠ H_TOTALSIZE → w ≠ H_OFF_STRINGS → w ≠ H_SIZE_STRUCT → hget d' w = hget d w

theorem Reserves.le {q : Nat} {es : List (List UInt8)} (h : Reserves d p es q) : p ≤ q := by
  induction h with
  | done _ => omega
  | entry _ _ _ ih => omega

theorem Reserves.congr {d d' : Mem} {q : Nat} {es : List (List UInt8)} (h : Reserves d p es q)
    (hm : ∀ x, p ≤ x → x < q → d' x = d x) : Reserves d' p es q := by
  induction h with
  | @done p h => exact .done ((read_congr fun i hi => hm _ (by omega) (by omega)).trans h)
  | @entry p q e es h hne hrest ih =>
    have hle := hrest.le
    exact .entry ((read_congr fun i hi => hm _ (by omega) (by omega)).trans h) hne
      (ih fun x h1 h2 => hm x (by omega) h2)

section Edit

variable {d d' : Mem} {rsv : List (List UInt8)} {t t' : Tree} {lo hi delta q : Nat}
  {before after : List FdtTok} {name value : List UInt8}

/-- The strings block is moved as a whole. -/
theorem Edited.has (he : Edited d d' lo hi delta) (hhi : hi ≤ hget d H_OFF_STRINGS)
    (hlast : hget d H_OFF_STRINGS + hget d H_SIZE_STRINGS ≤ hget d H_TOTALSIZE) (off : Nat) (s : List UInt8)
    (h : (blobStrings d).has off s) : (blobStrings d').has off s := by
  obtain ⟨h1, h2⟩ := h
  have h2' : off + s.length < hget d H_SIZE_STRINGS := h2
  refine ⟨h1.congr fun i hi => ?_, ?_⟩
  · show d' (hget d' H_OFF_STRINGS + off + i) = d (hget d H_OFF_STRINGS + off + i)
    rw [he.offStrings, ← he.above _ (by omega) (by omega)]
    congr 1
    omega
  show off + s.length < hget d' H_SIZE_STRINGS
  rw [he.others _ (by decide) (by decide) (by decide) (by decide)]
  exact h2'

/-- **A blob that is edited so that the new bytes are one property describes the tree with it.** -/
theorem Describes.splice (h : Describes d rsv t) (he : Edited d d' lo hi delta) (hlo : lo ≤ hi)
    (hbefore : (blobStrings d).Holds (hget d H_OFF_STRUCT) before lo)
    (hafter : (blobStrings d).Holds hi after q) (hend : be32 d q = FDT_END)
    (hsize : q + 4 = hget d H_OFF_STRUCT + hget d H_SIZE_STRUCT)
    (hnew : (blobStrings d').tokAt (.prop name value) lo (hi + delta))
    (hflat : t'.flat = before ++ .prop name value :: after) (hunique : t'.Unique) :
    Describes d' rsv t' := by
  obtain ⟨r, hr, hrle⟩ := h.reserves
  have hrsv := hr.le
  have hstart := hbefore.le
  have hq := hafter.le
  have h40 := h.header
  have hstr := h.strings_after
  have hlast := h.strings_last
  have e2 : hget d' H_OFF_STRUCT = hget d H_OFF_STRUCT :=
    he.others _ (by decide) (by decide) (by decide) (by decide)
  have e4 : hget d' 4 = hget d 4 := he.others _ (by decide) (by decide) (by decide) (by decide)
  have e8 : hget d' H_SIZE_STRINGS = hget d H_SIZE_STRINGS :=
    he.others _ (by decide) (by decide) (by decide) (by decide)
  have hhas := he.has (by omega) hlast
  constructor
  case magic => rw [he.others 0 (by decide) (by decide) (by decide) (by decide), h.magic]
  case version =>
    rw [he.others 5 (by decide) (by decide) (by decide) (by decide)]
    exact h.version
  case reserves =>
    refine ⟨r, ?_, by rw [e2]; exact hrle⟩
    rw [e4]
    exact hr.congr fun x h1 h2 => he.below x (by omega) (by omega)
  case header => rw [e4]; exact h40
  case aligned => rw [e4, e2]; exact h.aligned
  case tokens =>
    refine ⟨q + delta, ?_, ?_, ?_⟩
    · rw [hflat, e2]
      have hA : (blobStrings d').Holds (hget d H_OFF_STRUCT) before lo :=
        hbefore.stay (fun x h1 h2 => he.below x (by omega) h2) hhas
      have hB : (blobStrings d').Holds (hi + delta) after (q + delta) :=
        hafter.move (fun x h1 h2 => he.above x h1 (by omega)) hhas
      exact hA.append (.cons hnew hB)
    · refine (be32_congr fun i hi => ?_).trans hend
      rw [show q + delta + i = q + i + delta by omega]
      exact he.above _ (by omega) (by omega)
    rw [e2, he.sizeStruct]
    omega
  case strings_after =>
    rw [e2, he.sizeStruct, he.offStrings]
    omega
  case strings_last =>
    rw [he.offStrings, he.total, e8]
    omega
  case terminated =>
    rw [he.offStrings, e8]
    rcases Nat.eq_zero_or_pos (hget d H_SIZE_STRINGS) with h0 | hpos
    · exact .inl h0
    right
    have hz := h.terminated.resolve_left (by omega)
    rw [← hz, ← he.above _ (by omega) (by omega)]
    congr 1
    omega
  case unique => exact hunique

end Edit

/-! ## Making room -/

/-- The memory with `delta` bytes of room at `a`, behind the move and the updates of the header. -/
structure Opened (d d' : Mem) (a delta : Nat) : Prop where
  mem : ∀ x, 40 ≤ x → d' x =
    if a + delta ≤ x ∧ x < hget d H_TOTALSIZE + delta then d (x - delta) else d x
  total : hget d' H_TOTALSIZE = hget d H_TOTALSIZE + delta
  offStrings : hget d' H_OFF_STRINGS = hget d H_OFF_STRINGS + delta
  sizeStruct : hget d' H_SIZE_STRUCT = hget d H_SIZE_STRUCT + delta
  others : ∀ w, w ≤ 9 → w ≠ H_TOTALSIZE → w ≠ H_OFF_STRINGS → w ≠ H_SIZE_STRUCT → hget d' w = hget d w

theorem opened {delta : Nat} (h40 : 40 ≤ a) (ha : a ≤ hget d H_TOTALSIZE)
    (hroom : hget d H_TOTALSIZE + delta < 4294967296)
    (h3 : hget d H_OFF_STRINGS + delta < 4294967296) (h9 : hget d H_SIZE_STRUCT + delta < 4294967296) :
    Opened d (resize (shiftUp d a delta (hget d H_TOTALSIZE - a)) (hget d H_TOTALSIZE) delta) a delta := by
  generalize hd1 : shiftUp d a delta (hget d H_TOTALSIZE - a) = d1
  have hshift : ∀ x, d1 x =
      if a + delta ≤ x ∧ x < hget d H_TOTALSIZE + delta then d (x - delta) else d x := by
    intro x
    rw [← hd1, shiftUp_spec d (by omega),
      show a + (hget d H_TOTALSIZE - a) + delta = hget d H_TOTALSIZE + delta by omega]
  have hhead : ∀ w ≤ 9, hget d1 w = hget d w := fun w hw =>
    hget_congr (fun x hx => (hshift x).trans (if_neg (by omega))) hw
  obtain ⟨r1, r3, r9, rw⟩ := hget_resize hroom (by rw [hhead _ (by decide)]; exact h3) (by rw [hhead _ (by decide)]; exact h9)
  refine ⟨fun x hx => (resize_of_le hx).trans (hshift x), r1, ?_, ?_, fun w hw w1 w3 w9 => ?_⟩
  · rw [r3, hhead _ (by decide)]
  · rw [r9, hhead _ (by decide)]
  rw [rw w w1 w3 w9, hhead w hw]

/-- New bytes in the room, and in front of it from `lo` on, make an edit. -/
theorem Opened.edited {d2 d3 : Mem} {lo : Nat} (ho : Opened d d2 a delta) (h40 : 40 ≤ lo) (hlo : lo ≤ a)
    (hout : ∀ x, x < lo ∨ a + delta ≤ x → d3 x = d2 x) : Edited d d3 lo a delta := by
  have hhead : ∀ w ≤ 9, hget d3 w = hget d2 w := fun w hw => hget_congr (fun x hx => hout x (by omega)) hw
  refine ⟨fun x h1 hx => ?_, fun x hx h2 => ?_, ?_, ?_, ?_, fun w hw w1 w3 w9 => ?_⟩
  · rw [hout x (by omega), ho.mem x h1, if_neg (by omega)]
  · rw [hout _ (by omega), ho.mem _ (by omega), if_pos (by omega), Nat.add_sub_cancel]
  · rw [hhead _ (by decide), ho.total]
  · rw [hhead _ (by decide), ho.offStrings]
  · rw [hhead _ (by decide), ho.sizeStruct]
  rw [hhead _ hw, ho.others w hw w1 w3 w9]

/-! ## Replacing -/

section Replace

variable {d : Mem} {rsv : List (List UInt8)} {t t' : Tree} {tokpos hi q : Nat}
  {before after : List FdtTok} {old : List UInt8} {cmdline : CStr}

theorem Describes.le_offStruct (h : Describes d rsv t) : 40 ≤ hget d H_OFF_STRUCT := by
  obtain ⟨r, hr, hle⟩ := h.reserves
  have := hr.le
  have := h.header
  omega

variable (h : Describes d rsv t) (hbefore : (blobStrings d).Holds (hget d H_OFF_STRUCT) before tokpos)
  (htok : (blobStrings d).tokAt (.prop bootargsName old) tokpos hi)
  (hafter : (blobStrings d).Holds hi after q) (hend : be32 d q = FDT_END)
  (hsize : q + 4 = hget d H_OFF_STRUCT + hget d H_SIZE_STRUCT)
include h hbefore htok hafter hend hsize

/-- Overwriting in place leaves the value cut or filled up to the old length. -/
theorem Describes.fits (hflat : t'.flat = before ++ .prop bootargsName (fitted cmdline old.length) :: after)
    (hunique : t'.Unique) : Describes (fillValue d (tokpos + 12) old.length cmdline) rsv t' := by
  have h40 := h.le_offStruct
  have hstart := hbefore.le
  have hq := hafter.le
  have hstr := h.strings_after
  have hal := le_alignUp old.length
  obtain ⟨t1, t2, t3, -, rfl⟩ := htok
  have hhead : ∀ w ≤ 9, hget (fillValue d (tokpos + 12) old.length cmdline) w = hget d w :=
    fun w hw => hget_congr (fun x hx => fillValue_of_ne (by omega)) hw
  have he : Edited d (fillValue d (tokpos + 12) old.length cmdline) tokpos
      (tokpos + 12 + alignUp old.length) 0 := by
    refine ⟨fun x _ hx => fillValue_of_ne (by omega), fun x hx _ => fillValue_of_ne (by omega),
      hhead _ (by decide), hhead _ (by decide), hhead _ (by decide), fun w hw _ _ _ => hhead w hw⟩
  have hword : ∀ i, i + 4 ≤ 12 → be32 (fillValue d (tokpos + 12) old.length cmdline) (tokpos + i) =
      be32 d (tokpos + i) :=
    fun i hi => be32_congr fun j hj => fillValue_of_ne (by omega)
  refine h.splice he (by omega) hbefore hafter hend hsize ?_ hflat hunique
  refine ⟨(hword 0 (by omega)).trans t1, ?_, ?_, ?_, by rw [fitted_length]; rfl⟩
  · rw [fitted_length]
    exact (hword 4 (by omega)).trans t2
  · show (blobStrings (fillValue d (tokpos + 12) old.length cmdline)).has
      (be32 (fillValue d (tokpos + 12) old.length cmdline) (tokpos + 8)) bootargsName
    rw [hword 8 (by omega)]
    exact he.has (by omega) h.strings_last _ _ t3
  rw [fitted_length]
  exact fillValue_read Nat.le.refl

/-- Growing leaves the command line with its terminator. -/
theorem Describes.grows (hroom : hget d H_TOTALSIZE + cmdline.bytes.length + 25 < 4294967296)
    (hgrow : alignUp old.length < alignUp (cmdline.bytes.length + 1))
    (hflat : t'.flat = before ++ .prop bootargsName (argsValue cmdline) :: after)
    (hunique : t'.Unique) :
    Describes (fdtReplaceBootargs d tokpos old.length (tokpos + 12) cmdline (cmdline.bytes.length + 1)) rsv t' := by
  have h40 := h.le_offStruct
  have hstart := hbefore.le
  have hq := hafter.le
  have hstr := h.strings_after
  have hlast := h.strings_last
  have hal := le_alignUp old.length
  obtain ⟨room, hr, e2, hneed, hup⟩ := @align4_room (cmdline.bytes.length + 1) (by omega)
  rw [hr] at hgrow
  obtain ⟨t1, t2, t3, -, rfl⟩ := htok
  have e1 : align4 old.length = alignUp old.length := align4_eq (by omega)
  have e3 : add32 (tokpos + 12) (alignUp old.length) = tokpos + 12 + alignUp old.length :=
    add32_of_lt (by omega)
  unfold fdtReplaceBootargs
  simp only [e1, e2, e3]
  rw [if_pos hgrow]
  obtain ⟨delta, hdelta⟩ : ∃ δ, room - alignUp old.length = δ := ⟨_, rfl⟩
  rw [hdelta]
  have ho := @opened (tokpos + 12 + alignUp old.length) d delta (by omega) (by omega) (by omega)
    (by omega) (by omega)
  generalize resize (shiftUp d (tokpos + 12 + alignUp old.length) delta
    (hget d H_TOTALSIZE - (tokpos + 12 + alignUp old.length))) (hget d H_TOTALSIZE) delta = d2 at ho ⊢
  -- the length and the value are the only other bytes that change
  have hout : ∀ x, x < tokpos + 4 ∨ (tokpos + 8 ≤ x ∧ x < tokpos + 12) ∨ tokpos + 12 + room ≤ x →
      fillValue (wr32 d2 (tokpos + 4) (cmdline.bytes.length + 1)) (tokpos + 12) room cmdline x = d2 x := by
    intro x hx
    rw [fillValue_of_ne (by omega), wr32_of_ne (by omega)]
  generalize hd3 : fillValue (wr32 d2 (tokpos + 4) (cmdline.bytes.length + 1)) (tokpos + 12)
    room cmdline = d3 at hout ⊢
  have he : Edited d d3 tokpos (tokpos + 12 + alignUp old.length) delta :=
    ho.edited (by omega) (by omega) fun x hx => hout x (by omega)
  have hword : ∀ i, i = 0 ∨ i = 8 → be32 d3 (tokpos + i) = be32 d (tokpos + i) := by
    intro i hi
    refine be32_congr fun j hj => ?_
    rw [hout _ (by omega), ho.mem _ (by omega), if_neg (by omega)]
  refine h.splice he (by omega) hbefore hafter hend hsize ?_ hflat hunique
  have hlen : (argsValue cmdline).length = cmdline.bytes.length + 1 := by simp [argsValue]
  refine ⟨(hword 0 (.inl rfl)).trans t1, ?_, ?_, ?_, by rw [hlen, hr]; omega⟩
  · rw [hlen]
    show be32 d3 (tokpos + 4) = _
    have : be32 d3 (tokpos + 4) = be32 (wr32 d2 (tokpos + 4) (cmdline.bytes.length + 1)) (tokpos + 4) := by
      rw [← hd3]
      exact be32_congr fun i hi => fillValue_of_ne (by omega)
    rw [this, be32_wr32 (by omega)]
  · show (blobStrings d3).has (be32 d3 (tokpos + 8)) bootargsName
    rw [hword 8 (.inr rfl)]
    exact he.has (by omega) h.strings_last _ _ t3
  show d3.read (tokpos + 12) _ = _
  rw [hlen, ← hd3, fillValue_read hneed, fitted_full]

end Replace

/-! ## Inserting -/

variable {name : List UInt8}

theorem strEqAt_mem : ∀ {a : Nat}, strEqAt d a name = true → 0 ∉ name → StrMem d a name := by
  induction name with
  | nil =>
    intro a h _
    have h0 : d a = 0 := by simpa [strEqAt] using h
    exact ⟨by simp, by simp [Mem.read, h0]⟩
  | cons b name ih => ?_
  intro a h hn
  rw [strEqAt] at h
  split at h
  · next hb =>
    obtain ⟨h1, h2⟩ := ih h fun hm => hn (mem_cons_of_mem _ hm)
    refine ⟨hn, ?_⟩
    rw [length_cons, Mem.read, range_succ_eq_map, map_cons, map_map, cons_append, ← h2]
    congr 1
    · exact hb.2
    apply map_congr_left
    intro i _
    show d (a + (i + 1)) = d (a + 1 + i)
    rw [show a + (i + 1) = a + 1 + i by omega]
  simp at h

theorem findLoop_some {sz : Nat} : ∀ {n i r : Nat},
    findLoop d off sz name n i = some r → r < sz ∧ strEqAt d (off + r) name = true := by
  intro n
  induction n with
  | zero =>
    intro i r h
    simp [findLoop] at h
  | succ n ih => ?_
  intro i r h
  rw [findLoop] at h
  split at h
  · next hi =>
    split at h
    · next hs =>
      cases h
      exact ⟨hi, hs⟩
    exact ih h
  simp at h

section Insert

variable {d : Mem} {rsv : List (List UInt8)} {t t' : Tree} {body q : Nat}
  {before after : List FdtTok} {cmdline : CStr}

/-- A name that is found lies in the strings block as a whole, because the block ends with a zero. -/
theorem Describes.find_has (h : Describes d rsv t) (hn : 0 ∉ name)
    (hf : stringsFind d name = some off) : (blobStrings d).has off name := by
  obtain ⟨hlt, heq⟩ := findLoop_some hf
  have hmem := strEqAt_mem heq hn
  refine ⟨hmem, ?_⟩
  show off + name.length < hget d H_SIZE_STRINGS
  by_contra hge
  have hz := h.terminated.resolve_left (by omega)
  have := hmem.ne_zero (i := hget d H_SIZE_STRINGS - 1 - off) (by omega)
  rw [show hget d H_OFF_STRINGS + off + (hget d H_SIZE_STRINGS - 1 - off) =
    hget d H_OFF_STRINGS + hget d H_SIZE_STRINGS - 1 by omega] at this
  exact this hz

/-- A blob with a string appended: the tree, the structure block and the other strings stay. -/
structure Named (d d' : Mem) (rsv : List (List UInt8)) (t : Tree) (off : Nat) (name : List UInt8) : Prop where
  describes : Describes d' rsv t
  has : (blobStrings d').has off name
  keeps : ∀ off s, (blobStrings d).has off s → (blobStrings d').has off s
  mem : ∀ x, 40 ≤ x → x < hget d H_OFF_STRINGS → d' x = d x
  offStruct : hget d' H_OFF_STRUCT = hget d H_OFF_STRUCT
  sizeStruct : hget d' H_SIZE_STRUCT = hget d H_SIZE_STRUCT
  total : hget d' H_TOTALSIZE ≤ hget d H_TOTALSIZE + (name.length + 1)

theorem write_read (d : Mem) (a : Nat) (bs : List UInt8) : (d.write a bs).read a bs.length = bs := by
  apply ext_getElem?
  intro i
  by_cases hi : i < bs.length
  · simp [Mem.read, Mem.write, hi]
  · simp [Mem.read, hi]

theorem Describes.append_named (h : Describes d rsv t) (hn : 0 ∉ name)
    (hroom : hget d H_TOTALSIZE + (name.length + 1) < 4294967296) :
    Named d (stringsAppend d name).1 rsv t (stringsAppend d name).2 name := by
  obtain ⟨r, hr, hrle⟩ := h.reserves
  obtain ⟨q, hq, hend, hsize⟩ := h.tokens
  have hrsv := hr.le
  have hqle := hq.le
  have h40 := h.header
  have hstr := h.strings_after
  have hlast := h.strings_last
  have e1 : add32 (hget d H_TOTALSIZE) (name.length + 1) = hget d H_TOTALSIZE + (name.length + 1) :=
    add32_of_lt hroom
  have e8 : add32 (hget d H_SIZE_STRINGS) (name.length + 1) = hget d H_SIZE_STRINGS + (name.length + 1) :=
    add32_of_lt (by omega)
  simp only [stringsAppend, e1, e8]
  generalize hd1 : d.write (hget d H_OFF_STRINGS + hget d H_SIZE_STRINGS) (name ++ [0]) = d1
  have hlow : ∀ x, x < hget d H_OFF_STRINGS + hget d H_SIZE_STRINGS → d1 x = d x := by
    intro x hx
    rw [← hd1]
    exact Mem.write_of_not_mem (by omega)
  have hread : d1.read (hget d H_OFF_STRINGS + hget d H_SIZE_STRINGS) (name.length + 1) = name ++ [0] := by
    have := write_read d (hget d H_OFF_STRINGS + hget d H_SIZE_STRINGS) (name ++ [0])
    rwa [hd1, length_append, length_singleton] at this
  have hhead : ∀ w ≤ 9, hget d1 w = hget d w := fun w hw => hget_congr (fun x hx => hlow x (by omega)) hw
  generalize hd2 : hset (hset d1 H_SIZE_STRINGS (hget d H_SIZE_STRINGS + (name.length + 1))) H_TOTALSIZE
    (hget d H_TOTALSIZE + (name.length + 1)) = d2
  have hbody : ∀ x, 40 ≤ x → d2 x = d1 x := by
    intro x hx
    rw [← hd2, hset_of_le (by decide) hx, hset_of_le (by decide) hx]
  have w1 : hget d2 H_TOTALSIZE = hget d H_TOTALSIZE + (name.length + 1) := by
    rw [← hd2, hget_hset hroom]
  have w8 : hget d2 H_SIZE_STRINGS = hget d H_SIZE_STRINGS + (name.length + 1) := by
    rw [← hd2, hget_hset_of_ne (by decide), hget_hset (by omega)]
  have wo : ∀ w ≤ 9, w ≠ H_TOTALSIZE → w ≠ H_SIZE_STRINGS → hget d2 w = hget d w := by
    intro w hw h1 h8
    rw [← hd2, hget_hset_of_ne h1, hget_hset_of_ne h8, hhead w hw]
  have w2 := wo H_OFF_STRUCT (by decide) (by decide) (by decide)
  have w3 := wo H_OFF_STRINGS (by decide) (by decide) (by decide)
  have w4 := wo 4 (by decide) (by decide) (by decide)
  have w9 := wo H_SIZE_STRUCT (by decide) (by decide) (by decide)
  have hmem : ∀ x, 40 ≤ x → x < hget d H_OFF_STRINGS + hget d H_SIZE_STRINGS → d2 x = d x :=
    fun x h1 h2 => (hbody x h1).trans (hlow x h2)
  have hnew : d2.read (hget d H_OFF_STRINGS + hget d H_SIZE_STRINGS) (name.length + 1) = name ++ [0] :=
    (read_congr fun i hi => hbody _ (by omega)).trans hread
  have hkeeps : ∀ off s, (blobStrings d).has off s → (blobStrings d2).has off s := by
    rintro off s ⟨h1, h2⟩
    have h2' : off + s.length < hget d H_SIZE_STRINGS := h2
    refine ⟨h1.congr fun i hi => ?_, ?_⟩
    · show d2 (hget d2 H_OFF_STRINGS + off + i) = d (hget d H_OFF_STRINGS + off + i)
      rw [w3]
      exact hmem _ (by omega) (by omega)
    show off + s.length < hget d2 H_SIZE_STRINGS
    rw [w8]
    omega
  have hdesc : Describes d2 rsv t := by
    constructor
    case magic => rw [wo 0 (by decide) (by decide) (by decide), h.magic]
    case version =>
      rw [wo 5 (by decide) (by decide) (by decide)]
      exact h.version
    case reserves =>
      refine ⟨r, ?_, by rw [w2]; exact hrle⟩
      rw [w4]
      exact hr.congr fun x h1 h2 => hmem x (by omega) (by omega)
    case header => rw [w4]; exact h40
    case aligned => rw [w4, w2]; exact h.aligned
    case tokens =>
      refine ⟨q, ?_, (be32_congr fun i hi => hmem _ (by omega) (by omega)).trans hend, by rw [w2, w9]; exact hsize⟩
      rw [w2]
      exact hq.stay (fun x h1 h2 => hmem x (by omega) (by omega)) hkeeps
    case strings_after => rw [w2, w9, w3]; exact hstr
    case strings_last => rw [w3, w8, w1]; omega
    case terminated =>
      right
      have hz := @read_getElem? d2 (hget d H_OFF_STRINGS + hget d H_SIZE_STRINGS) (name.length + 1)
        name.length (by omega)
      rw [hnew] at hz
      have h0 : d2 (hget d H_OFF_STRINGS + hget d H_SIZE_STRINGS + name.length) = 0 := by simpa using hz.symm
      rw [w3, w8, ← h0]
      congr 1
      omega
    case unique => exact h.unique
  refine ⟨hdesc, ⟨⟨hn, ?_⟩, ?_⟩, hkeeps, fun x h1 h2 => hmem x h1 (by omega), w2, w9, Nat.le_of_eq w1⟩
  · show d2.read (hget d2 H_OFF_STRINGS + hget d H_SIZE_STRINGS) (name.length + 1) = name ++ [0]
    rw [w3]
    exact hnew
  show hget d H_SIZE_STRINGS + name.length < hget d2 H_SIZE_STRINGS
  rw [w8]
  omega

/-- The name `bootargs` is in the strings block, if need be at its end. -/
theorem Describes.bootargs_named (h : Describes d rsv t) (hroom : hget d H_TOTALSIZE + 9 < 4294967296) :
    Named d (bootargsOffset d).1 rsv t (bootargsOffset d).2 bootargsName := by
  unfold bootargsOffset
  cases hf : stringsFind d bootargsName with
  | some noff =>
    exact ⟨h, h.find_has bootargsName_nul hf, fun _ _ h => h, fun _ _ _ => rfl, rfl, rfl, Nat.le_add_right _ _⟩
  | none => exact h.append_named bootargsName_nul hroom

/-- Inserting leaves the command line with its terminator. -/
theorem Describes.inserts (h : Describes d rsv t)
    (hbefore : (blobStrings d).Holds (hget d H_OFF_STRUCT) before body)
    (hafter : (blobStrings d).Holds body after q) (hend : be32 d q = FDT_END)
    (hsize : q + 4 = hget d H_OFF_STRUCT + hget d H_SIZE_STRUCT)
    (hroom : hget d H_TOTALSIZE + cmdline.bytes.length + 25 < 4294967296)
    (hflat : t'.flat = before ++ .prop bootargsName (argsValue cmdline) :: after)
    (hunique : t'.Unique) :
    Describes (fdtInsertBootargs d body cmdline (cmdline.bytes.length + 1)) rsv t' := by
  have h40 := h.le_offStruct
  have hstart := hbefore.le
  have hq := hafter.le
  have hstr := h.strings_after
  -- the memory with the name in the strings block
  obtain ⟨hdesc, hhas, hkeeps, hmem, w2, w9, w1⟩ := h.bootargs_named (by omega)
  unfold fdtInsertBootargs
  generalize bootargsOffset d = r at hdesc hhas hkeeps hmem w2 w9 w1 ⊢
  obtain ⟨d1, noff⟩ := r
  simp only at hdesc hhas hkeeps hmem w2 w9 w1 ⊢
  have hbefore1 : (blobStrings d1).Holds (hget d1 H_OFF_STRUCT) before body := by
    rw [w2]
    exact hbefore.stay (fun x h1 h2 => hmem x (by omega) (by omega)) hkeeps
  have hafter1 : (blobStrings d1).Holds body after q :=
    hafter.stay (fun x h1 h2 => hmem x (by omega) (by omega)) hkeeps
  have hend1 : be32 d1 q = FDT_END := (be32_congr fun i hi => hmem _ (by omega) (by omega)).trans hend
  have hstr1 := hdesc.strings_after
  have hlast1 := hdesc.strings_last
  obtain ⟨room, hr, e2, hneed, hup⟩ := @align4_room (cmdline.bytes.length + 1) (by omega)
  have hbn : bootargsName.length = 8 := rfl
  rw [hbn] at w1
  have e3 : add32 12 room = 12 + room := add32_of_lt (by omega)
  simp only [e2, e3]
  have ho := @opened body d1 (12 + room) (by omega) (by omega) (by omega) (by omega) (by omega)
  generalize resize (shiftUp d1 body (12 + room) (hget d1 H_TOTALSIZE - body))
    (hget d1 H_TOTALSIZE) (12 + room) = d2 at ho ⊢
  have hout : ∀ x, x < body ∨ body + (12 + room) ≤ x →
      fillValue (wr32 (wr32 (wr32 d2 body FDT_PROP) (body + 4) (cmdline.bytes.length + 1)) (body + 8) noff)
        (body + 12) room cmdline x = d2 x := by
    intro x hx
    rw [fillValue_of_ne (by omega), wr32_of_ne (by omega), wr32_of_ne (by omega), wr32_of_ne (by omega)]
  generalize hd3 : fillValue
    (wr32 (wr32 (wr32 d2 body FDT_PROP) (body + 4) (cmdline.bytes.length + 1)) (body + 8) noff)
    (body + 12) room cmdline = d3 at hout ⊢
  have he : Edited d1 d3 body body (12 + room) := ho.edited (by omega) Nat.le.refl hout
  have hword : ∀ i, i + 4 ≤ 12 → be32 d3 (body + i) =
      be32 (wr32 (wr32 (wr32 d2 body FDT_PROP) (body + 4) (cmdline.bytes.length + 1)) (body + 8) noff)
        (body + i) := by
    intro i hi
    rw [← hd3]
    exact be32_congr fun j hj => fillValue_of_ne (by omega)
  have hnoff : noff < 4294967296 := by
    have h1 : noff + bootargsName.length < hget d1 H_SIZE_STRINGS := hhas.2
    have h2 := be32_lt d1 (H_SIZE_STRINGS * 4)
    unfold hget at h1
    omega
  refine hdesc.splice he Nat.le.refl hbefore1 hafter1 hend1 (by rw [w2, w9]; exact hsize) ?_ hflat hunique
  have hlen : (argsValue cmdline).length = cmdline.bytes.length + 1 := by simp [argsValue]
  refine ⟨?_, ?_, ?_, ?_, by rw [hlen, hr]; omega⟩
  · show be32 d3 (body + 0) = FDT_PROP
    rw [hword 0 (by omega), be32_wr32_of_ne (by omega), be32_wr32_of_ne (by omega), Nat.add_zero,
      be32_wr32 (by decide)]
  · show be32 d3 (body + 4) = _
    rw [hlen, hword 4 (by omega), be32_wr32_of_ne (by omega), be32_wr32 (by omega)]
  · show (blobStrings d3).has (be32 d3 (body + 8)) bootargsName
    rw [hword 8 (by omega), be32_wr32 hnoff]
    exact he.has (by omega) hlast1 _ _ hhas
  show d3.read (body + 12) _ = _
  rw [hlen, ← hd3, fillValue_read hneed, fitted_full]

end Insert

/-! ## Setting -/

section Set

variable {d : Mem} {rsv : List (List UInt8)} {t : Tree} {cmdline : CStr} {bound : Nat}

theorem Describes.flat_unique {rsv' : List (List UInt8)} {t' : Tree} (h : Describes d rsv t)
    (h' : Describes d rsv' t') : t.flat = t'.flat := by
  obtain ⟨q, hq, he, -⟩ := h.tokens
  obtain ⟨q', hq', he', -⟩ := h'.tokens
  exact hq.unique he hq' he'

theorem Describes.unique_set (h : Describes d rsv t) (v : List UInt8) : (t.setBootargs v).Unique :=
  ⟨h.unique.1, h.unique.2.setProp _ _ _⟩

section Old

variable (h : Describes d rsv t) {old : List UInt8} (hold : t.bootargs = some old)
    (hroom : hget d H_TOTALSIZE + cmdline.bytes.length + 25 < 4294967296) (hb : hget d H_TOTALSIZE ≤ bound)
include h hold hroom hb

/-- Where the command line needs more room than the old value has, it is set. -/
theorem Describes.set_grows (hgrow : alignUp old.length < alignUp (cmdline.bytes.length + 1)) :
    ∃ d', fdtSetBootargs bound d cmdline = some (0, d') ∧
      Describes d' rsv (t.setBootargs (argsValue cmdline)) := by
  obtain ⟨before, after, tokpos, hi, q, hflat, hbefore, htok, hafter, hend, hsize, heq⟩ :=
    @Describes.set_replace d rsv t bound cmdline h old hold (by omega) hb
  exact ⟨_, heq, h.grows hbefore htok hafter hend hsize hroom hgrow (hflat _) (h.unique_set _)⟩

/-- Where it does not, the old length stays. -/
theorem Describes.set_fits (hfit : ¬ alignUp old.length < alignUp (cmdline.bytes.length + 1)) :
    ∃ d', fdtSetBootargs bound d cmdline = some (0, d') ∧
      (Describes d' rsv (t.setBootargs (argsValue cmdline)) ↔ old.length = cmdline.bytes.length + 1) := by
  obtain ⟨before, after, tokpos, hi, q, hflat, hbefore, htok, hafter, hend, hsize, heq⟩ :=
    @Describes.set_replace d rsv t bound cmdline h old hold (by omega) hb
  have hlen : old.length + 3 < 4294967296 := by
    have h1 := h.strings_after
    have h2 := h.strings_last
    have hle := hafter.le
    obtain ⟨-, -, -, -, rfl⟩ := htok
    have := le_alignUp old.length
    omega
  have hdo : fdtReplaceBootargs d tokpos old.length (tokpos + 12) cmdline (cmdline.bytes.length + 1) =
      fillValue d (tokpos + 12) old.length cmdline := by
    unfold fdtReplaceBootargs
    simp only [align4_eq hlen, align4_eq (show cmdline.bytes.length + 1 + 3 < 4294967296 by omega)]
    rw [if_neg hfit]
  have hfits := h.fits hbefore htok hafter hend hsize (hflat (fitted cmdline old.length)) (h.unique_set _)
  refine ⟨_, heq, ?_⟩
  rw [hdo]
  constructor
  · intro hset
    have hsame := hset.flat_unique hfits
    rw [hflat, hflat] at hsame
    have hval : argsValue cmdline = fitted cmdline old.length := by
      have := (cons.inj (append_cancel_left hsame)).1
      injection this
    have := congrArg length hval
    rw [fitted_length] at this
    simpa [argsValue] using this.symm
  intro hl
  rw [hl, fitted_full] at hfits
  rw [hl]
  exact hfits

end Old

/-- **The command line is set as the value of `bootargs`, and the blob describes the same tree apart from
that, just if there was no value before, or it had the same length, or less room than the command line
needs.** -/
theorem fdtSetBootargs_describes_iff (h : Describes d rsv t) (hc : t.children.lookup chosenName ≠ none)
    (hroom : hget d H_TOTALSIZE + cmdline.bytes.length + 25 < 4294967296) (hb : hget d H_TOTALSIZE ≤ bound) :
    ∃ d', fdtSetBootargs bound d cmdline = some (0, d') ∧
      (Describes d' rsv (t.setBootargs (argsValue cmdline)) ↔
        ∀ old, t.bootargs = some old → old.length = cmdline.bytes.length + 1 ∨
          alignUp old.length < alignUp (cmdline.bytes.length + 1)) := by
  obtain ⟨ps, hps⟩ := Option.ne_none_iff_exists'.1 hc
  cases hold : t.bootargs with
  | none =>
    have hno : bootargsName ∉ ps.map Prod.fst := by
      intro hyes
      obtain ⟨-, -, -, -, -, -, hnd, -⟩ := Forest.split h.unique.2 hps
      obtain ⟨-, old, -, -, -, hl, -⟩ := Props.set_split hnd hyes
      rw [Tree.bootargs, hps] at hold
      exact absurd (hold.symm.trans hl) (by simp)
    obtain ⟨before, after, body, q, hflat, hbefore, hafter, hend, hsize, heq⟩ :=
      @Describes.set_insert d rsv t ps bound cmdline h hps hno (by omega) hb
    refine ⟨_, heq, iff_of_true ?_ (by simp)⟩
    exact h.inserts hbefore hafter hend hsize hroom (hflat _) (h.unique_set _)
  | some old => ?_
  by_cases hgrow : alignUp old.length < alignUp (cmdline.bytes.length + 1)
  · obtain ⟨d', heq, hset⟩ := h.set_grows hold hroom hb hgrow
    refine ⟨d', heq, iff_of_true hset fun old' ho => .inr ?_⟩
    rwa [← Option.some.inj ho]
  obtain ⟨d', heq, hset⟩ := h.set_fits hold hroom hb hgrow
  refine ⟨d', heq, hset.trans ⟨fun hl old' ho => .inl ?_, fun hl => ?_⟩⟩
  · rwa [← Option.some.inj ho]
  · exact (hl old rfl).resolve_right hgrow

end Set

/-- A blob with an empty `bootargs`, as `dtc` makes it. -/
def emptyArgsBlob : Mem := fun x => List.getD
  [
    208, 13, 254, 237, 0, 0, 0, 113, 0, 0, 0, 56, 0, 0, 0, 104,
    0, 0, 0, 40, 0, 0, 0, 17, 0, 0, 0, 16, 0, 0, 0, 0,
    0, 0, 0, 9, 0, 0, 0, 48, 0, 0, 0, 0, 0, 0, 0, 0,
    0, 0, 0, 0, 0, 0, 0, 0, 0, 0, 0, 1, 0, 0, 0, 0,
    0, 0, 0, 1, 99, 104, 111, 115, 101, 110, 0, 0, 0, 0, 0, 3,
    0, 0, 0, 1, 0, 0, 0, 0, 0, 0, 0, 0, 0, 0, 0, 2,
    0, 0, 0, 2, 0, 0, 0, 9, 98, 111, 111, 116, 97, 114, 103, 115,
    0] x 0

def emptyArgsTree : Tree := ⟨[], [], .node chosenName [(bootargsName, [0])] .nil .nil⟩

theorem emptyArgsBlob_describes : Describes emptyArgsBlob [] emptyArgsTree where
  magic := by decide
  version := by decide
  reserves := ⟨56, .done (by decide), by decide⟩
  header := by decide
  aligned := by decide
  tokens := by
    refine ⟨100, ?_, by decide, by decide⟩
    refine .cons (q := 64) ⟨by decide, ⟨by decide, by decide⟩, by decide⟩ ?_
    refine .cons (q := 76) ⟨by decide, ⟨by decide, by decide⟩, by decide⟩ ?_
    refine .cons (q := 92) ⟨by decide, by decide, ⟨⟨by decide, by decide⟩, by decide⟩, by decide, by decide⟩ ?_
    refine .cons (q := 96) ⟨by decide, by decide⟩ ?_
    exact .cons ⟨by decide, by decide⟩ (.nil 100)
  strings_after := by decide
  strings_last := by decide
  terminated := by decide
  unique := by
    refine ⟨by decide, ?_⟩
    simp [emptyArgsTree, Forest.Unique, Forest.names]

/-- `quiet` needs more room than the empty value has, and is set. -/
theorem fdtSetBootargs_quiet :
    ∃ d', fdtSetBootargs 113 emptyArgsBlob ⟨[113, 117, 105, 101, 116], by decide⟩ = some (0, d') ∧
      Describes d' [] (emptyArgsTree.setBootargs [113, 117, 105, 101, 116, 0]) := by
  obtain ⟨d', h1, h2⟩ := @fdtSetBootargs_describes_iff emptyArgsBlob [] emptyArgsTree
    ⟨[113, 117, 105, 101, 116], by decide⟩ 113 emptyArgsBlob_describes (by decide) (by decide) (by decide)
  refine ⟨d', h1, h2.2 ?_⟩
  intro old ho
  obtain rfl : [0] = old := Option.some.inj ho
  exact .inr (by decide)

/-- `a` fits in the padding of the empty value: its one byte is overwritten, and the terminator is lost. -/
theorem fdtSetBootargs_cut : Describes emptyArgsBlob [] emptyArgsTree ∧
      ((fdtSetBootargs 113 emptyArgsBlob ⟨[97], by decide⟩).map fun r =>
        (r.1, be32 r.2 80, r.2.read 88 1)) = some (0, 1, [97]) ∧
      ∃ d', fdtSetBootargs 113 emptyArgsBlob ⟨[97], by decide⟩ = some (0, d') ∧
        ¬ Describes d' [] (emptyArgsTree.setBootargs [97, 0]) := by
  refine ⟨emptyArgsBlob_describes, by decide +kernel, ?_⟩
  obtain ⟨d', h1, h2⟩ := @Describes.set_fits emptyArgsBlob [] emptyArgsTree ⟨[97], by decide⟩ 113
    emptyArgsBlob_describes [0] rfl (by decide) (by decide) (by decide)
  exact ⟨d', h1, fun h => absurd (h2.1 h) (by decide)⟩

end Embedded.Bootloader
