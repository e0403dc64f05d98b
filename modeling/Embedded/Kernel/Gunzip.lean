import Embedded.Kernel.InflateRuns

/-! # `gunzip` on well-formed members

The header is skipped, the stream inflated, and the size and the CRC of the trailer agree with it: the
byte-wise CRC of the code is the bit-serial one. So `gunzip` returns the encoded bytes, unless the
stream has a dynamic block with more than 30 distance codes, or there are so many bytes that their
number is negative as a `long`. -/

namespace Embedded.Kernel.Inflate

open Canonical Gzip
open List

/-! ## The CRC -/

theorem crcShift_xor (c v : Nat) : crcShift (c ^^^ v) = crcBit c (decide (v % 2 = 1)) ^^^ (v / 2) := by
  have hcond : (c ^^^ v) % 2 = 1 ↔ (decide (c % 2 = 1) != decide (v % 2 = 1)) = true := by
    rw [Nat.xor_mod_two_eq_one]
    by_cases hc : c % 2 = 1 <;> by_cases hv : v % 2 = 1 <;> simp [hc, hv]
  have hite : (if (c ^^^ v) % 2 = 1 then 0xEDB88320 else 0) =
      if (decide (c % 2 = 1) != decide (v % 2 = 1)) = true then 0xEDB88320 else 0 :=
    if_congr hcond rfl rfl
  rw [crcShift, crcBit, Nat.xor_div_two, hite, Nat.xor_assoc, Nat.xor_assoc, Nat.xor_comm (v / 2)]

/-- `n` shifts take in the low `n` bits of what was added to the register. -/
theorem crcShift_iterate (n c v : Nat) :
    crcShift^[n] (c ^^^ v) = (lsb n v).foldl crcBit c ^^^ (v / 2 ^ n) := by
  induction n generalizing c v with
  | zero =>
    rw [Nat.pow_zero, Nat.div_one]
    rfl
  | succ n ih =>
    rw [Function.iterate_succ_apply, crcShift_xor, ih, lsb, foldl_cons, Nat.div_div_eq_div_mul, Nat.pow_succ']

/-- A byte at a time is a bit at a time. -/
theorem crcShift_byte (c : Nat) (v : UInt8) :
    crcShift^[8] (c ^^^ v.toNat) = (lsb 8 v.toNat).foldl crcBit c := by
  rw [crcShift_iterate, Nat.div_eq_of_lt v.toNat_lt, Nat.xor_zero]

variable {data src t : List UInt8} {p : Nat}

theorem Written.eq_map {dst : Mem} (h : Written dst data) : data = (List.range data.length).map dst := by
  apply ext_getElem
  · rw [length_map, length_range]
  intro i hi _
  rw [getElem_map, getElem_range, h i hi, getElem_eq_getD 0]

theorem crc32_eq {dst : Mem} (h : Written dst data) : crc32 dst data.length = crc data := by
  have hfold : (bitsOf data).foldl crcBit 0xFFFFFFFF =
      (range data.length).foldl (fun c i => (lsb 8 (dst i).toNat).foldl crcBit c) 0xFFFFFFFF := by
    rw [bitsOf, foldl_flatMap]
    conv_lhs => rw [h.eq_map]
    rw [foldl_map]
  rw [crc, crc32, hfold]
  simp only [crcShift_byte]

theorem crcBit_lt {c : Nat} (h : c < 2 ^ 32) (b : Bool) : crcBit c b < 2 ^ 32 := by
  refine Nat.xor_lt_two_pow (by omega) ?_
  split <;> decide

theorem crc_lt (data : List UInt8) : crc data < 2 ^ 32 := by
  have hfold : ∀ (bs : List Bool) (c : Nat), c < 2 ^ 32 → bs.foldl crcBit c < 2 ^ 32 := by
    intro bs
    induction bs with
    | nil => exact fun c hc => hc
    | cons b bs ih => exact fun c hc => ih _ (crcBit_lt hc b)
  exact Nat.xor_lt_two_pow (hfold _ _ (by decide)) (by decide)

/-! ## The header -/

theorem skipString_spec {x : List UInt8} {f : Nat} (hsrc : src.drop p = x ++ 0 :: t)
    (hx : 0 ∉ x) (hf : x.length < f) : skipString src f p = p + x.length + 1 := by
  induction x generalizing p f with
  | nil =>
    obtain _ | f := f
    · omega
    have hget : src[p]? = some 0 := by
      have h := @List.getElem?_drop _ src p 0
      rw [hsrc] at h
      exact h.symm
    rw [skipString, hget]
    rfl
  | cons c x ih => ?_
  obtain _ | f := f
  · omega
  have hget : src[p]? = some c := by
    have h := @List.getElem?_drop _ src p 0
    rw [hsrc] at h
    exact h.symm
  have hc : c ≠ 0 := fun h => hx (h ▸ mem_cons_self)
  rw [length_cons] at hf
  rw [skipString, hget]
  simp only [if_neg hc]
  rw [@ih (p + 1) f (@drop_add _ src [c] (x ++ 0 :: t) p 1 hsrc rfl)
    (fun h => hx (mem_cons_of_mem _ h)) (by omega), length_cons]
  omega

/-- A name or comment is skipped if its flag is set. -/
theorem skipString_field {x : Option (List UInt8)}
    (hsrc : src.drop p = zeroTerminated x ++ t) (hx : ∀ y ∈ x, 0 ∉ y) :
    (if x.isSome.toNat = 1 then skipString src src.length p else p) = p + (zeroTerminated x).length := by
  cases x with
  | none => rfl
  | some y => ?_
  have hsrc' : src.drop p = y ++ 0 :: t := by
    rw [hsrc, zeroTerminated, append_assoc]
    rfl
  have hlen := congrArg length hsrc'
  rw [length_drop, length_append, length_cons] at hlen
  have hskip := skipString_spec hsrc' (hx y rfl) (f := src.length) (by omega)
  rw [if_pos (show (some y).isSome.toNat = 1 from rfl), hskip, zeroTerminated, length_append,
    length_singleton, Nat.add_assoc]

theorem Header.flags_bits (h : Header) : h.flags < 256 ∧
    h.flags / 2 % 2 = h.hcrc.isSome.toNat ∧ h.flags / 4 % 2 = h.extra.isSome.toNat ∧
    h.flags / 8 % 2 = h.name.isSome.toNat ∧ h.flags / 16 % 2 = h.comment.isSome.toNat := by
  have h0 := Bool.toNat_le h.text
  have h1 := Bool.toNat_le h.hcrc.isSome
  have h2 := Bool.toNat_le h.extra.isSome
  have h3 := Bool.toNat_le h.name.isSome
  have h4 := Bool.toNat_le h.comment.isSome
  unfold Header.flags
  omega

theorem Header.drop_ten (h : Header) (t : List UInt8) :
    (h.bytes ++ t).drop 10 = extraBytes h.extra ++ (zeroTerminated h.name ++
      (zeroTerminated h.comment ++ (hcrcBytes h.hcrc ++ t))) := by
  have hfour : (h.bytes ++ t).drop 4 = h.mtimeXflOs ++ (extraBytes h.extra ++ (zeroTerminated h.name ++
      (zeroTerminated h.comment ++ (hcrcBytes h.hcrc ++ t)))) := by
    simp only [Header.bytes, append_assoc]
    rfl
  exact drop_add hfour h.six

theorem headerEnd_spec (h : Header) (hsrc : src = h.bytes ++ t)
    (hlt : src.length < 4294967296) : headerEnd src h.flags = some h.bytes.length := by
  obtain ⟨-, hf2, hf4, hf8, hf16⟩ := Header.flags_bits h
  have hten := Header.drop_ten h t
  rw [← hsrc] at hten
  have hlen : h.bytes.length = 10 + (extraBytes h.extra).length + (zeroTerminated h.name).length +
      (zeroTerminated h.comment).length + (hcrcBytes h.hcrc).length := by
    have hsix := h.six
    simp only [Header.bytes, length_append, length_cons, length_nil]
    omega
  have hsize : h.bytes.length ≤ src.length := by
    rw [hsrc, length_append]
    omega
  have hextra : (if h.flags / 4 % 2 = 1 then
      if src.length < 12 then none else some (12 + le16 src 10) else some 10) =
      some (10 + (extraBytes h.extra).length) := by
    rw [hf4]
    cases hx : h.extra with
    | none => rfl
    | some x => ?_
    have hshort := h.extra_short x hx
    rw [hx, extraBytes, append_assoc] at hten
    rw [hx, extraBytes] at hlen
    have htwo : (leBytes 2 x.length).length = 2 := rfl
    rw [length_append, htwo] at hlen
    rw [if_pos (show (some x).isSome.toNat = 1 from rfl), if_neg (by omega), le16_leBytes hten,
      Nat.mod_eq_of_lt hshort, extraBytes, length_append, htwo]
    congr 1
    omega
  have hn := drop_add hten rfl
  have hc := drop_add hn rfl
  unfold headerEnd
  simp only [hextra, hf8, hf16, hf2]
  rw [skipString_field hn h.name_ends, skipString_field hc h.comment_ends]
  congr 1
  cases hx : h.hcrc with
  | none =>
    rw [hlen, hx]
    rfl
  | some x => ?_
  rw [hx] at hlen
  have htwo : (hcrcBytes (some x)).length = 2 := rfl
  rw [htwo] at hlen
  rw [if_pos (show (some x).isSome.toNat = 1 from rfl), add32, Nat.mod_eq_of_lt (by omega), hlen]

/-! ## The trailer -/

theorem le32_leBytes {v : Nat} (h : src.drop p = leBytes 4 v ++ t) : le32 src p = v % 4294967296 := by
  have hsplit : leBytes 4 v ++ t = leBytes 2 v ++ (leBytes 2 (v / 256 / 256) ++ t) := rfl
  rw [hsplit] at h
  have h2 := drop_add h (n := 2) rfl
  rw [le32, le16_leBytes h, le16_leBytes h2]
  omega

/-! ## Members -/

theorem gunzip_outcome {wide : Bool} (h : Member wide src data) (dst : Mem)
    {dstcap : Nat} (hcap : data.length ≤ dstcap) (hlt : dstcap < 4294967296)
    (hsrc : src.length < 4294967296) :
    Outcome wide data.length (gunzip src dst dstcap) fun r =>
      Written r.1 data ∧ r.2 = data.length ∧ data.length < 2147483648 := by
  obtain ⟨hd, payload, rest, hstream, -, heq⟩ := h
  have htrail : ∀ v, (leBytes 4 v).length = 4 := fun v => rfl
  have hlen : src.length = hd.bytes.length + (payload.length + 8) := by
    rw [heq]
    simp only [length_append, htrail]
  have hcons : ∃ t, src = 0x1f :: 0x8b :: 8 :: UInt8.ofNat hd.flags :: t := ⟨_, heq⟩
  have hgz : isGzip src = true := by
    obtain ⟨t, ht⟩ := hcons
    rw [ht, isGzip]
    simp
  have h18 : 18 ≤ src.length := by
    have hten : 10 ≤ hd.bytes.length := by
      have hsix := hd.six
      simp only [Header.bytes, length_append, length_cons]
      omega
    omega
  have hcm : src.getD 2 0 = 8 := by
    obtain ⟨t, ht⟩ := hcons
    rw [ht]
    rfl
  have hflags : (src.getD 3 0).toNat = hd.flags := by
    obtain ⟨t, ht⟩ := hcons
    rw [ht]
    exact UInt8.toNat_ofNat_of_lt' (Header.flags_bits hd).1
  have hend := headerEnd_spec hd heq hsrc
  have hdrop : src.drop hd.bytes.length = payload ++ (leBytes 4 (crc data) ++ leBytes 4 data.length) := by
    rw [heq, drop_left]
  have hpay : (src.drop hd.bytes.length).take (src.length - 8 - hd.bytes.length) = payload := by
    rw [hdrop, show src.length - 8 - hd.bytes.length = payload.length by omega, take_left]
  have hcrcat : src.drop (src.length - 8) = leBytes 4 (crc data) ++ leBytes 4 data.length := by
    rw [show src.length - 8 = hd.bytes.length + payload.length by omega]
    exact drop_add hdrop rfl
  have hsizeat : src.drop (src.length - 4) = leBytes 4 data.length ++ [] := by
    rw [show src.length - 4 = src.length - 8 + 4 by omega, append_nil]
    exact drop_add hcrcat rfl
  have hisize : gzipIsize src = data.length := by
    rw [gzipIsize, if_neg (by omega), le32_leBytes hsizeat, Nat.mod_eq_of_lt (by omega)]
  have hcrc : le32 src (src.length - 8) = crc data := by
    rw [le32_leBytes hcrcat, Nat.mod_eq_of_lt (show crc data < 4294967296 from crc_lt data)]
  have hguard : (!isGzip src || decide (src.length < 18)) = false := by
    rw [hgz, decide_eq_false (by omega)]
    rfl
  have hadd : add32 hd.bytes.length 8 = hd.bytes.length + 8 := Nat.mod_eq_of_lt (by omega)
  unfold gunzip
  simp only [hguard, Bool.false_eq_true, if_false, hflags, hend, hpay, hisize, hcrc]
  rw [if_neg (not_not.2 hcm), hadd, if_neg (by omega)]
  rcases inflateRaw_spec hstream dst hcap hlt (by omega) with
    ⟨e, herr, hwhy⟩ | ⟨hwide, ⟨dst', n⟩, hok, hw, hn, hsmall⟩
  · rw [herr]
    exact .inl ⟨e, rfl, hwhy⟩
  subst hn
  rw [hok]
  simp only [ne_eq, not_true_eq_false, if_false, crc32_eq hw]
  exact .inr ⟨hwide, _, rfl, hw, rfl, hsmall⟩

/-- A header without optional fields. -/
def plainHeader : Header where
  text := false
  mtimeXflOs := [0, 0, 0, 0, 0, 0]
  extra := none
  name := none
  comment := none
  hcrc := none
  six := rfl
  extra_short := fun _ h => nomatch h
  name_ends := fun _ h => nomatch h
  comment_ends := fun _ h => nomatch h

/-- **Decompression**: `gunzip` of a member into a buffer that is large enough returns exactly the
bytes it encodes, if and only if no dynamic block announces more than 30 distance codes and there are
less than 2 GiB of them. -/
theorem gunzip_member_iff {wide : Bool} {src data : List UInt8} (h : Member wide src data)
    (dst : Mem) {dstcap : Nat} (hcap : data.length ≤ dstcap) (hlt : dstcap < 4294967296)
    (hsrc : src.length < 4294967296) :
    (∃ dst', gunzip src dst dstcap = .ok (dst', data.length) ∧
      ∀ i, i < data.length → dst' i = data.getD i 0) ↔ wide = false ∧ data.length < 2147483648 := by
  rcases gunzip_outcome h dst hcap hlt hsrc with
    ⟨e, herr, hwhy⟩ | ⟨hwide, ⟨dst', n⟩, hok, hw, hn, hsmall⟩
  · refine ⟨fun ⟨dst', hok, _⟩ => ?_, fun ⟨hwide, hsmall⟩ => ?_⟩
    · rw [herr] at hok
      cases hok
    rcases hwhy with hwhy | hwhy
    · exact absurd (hwide.symm.trans hwhy) Bool.false_ne_true
    · omega
  · simp only at hn hw
    subst hn
    exact ⟨fun _ => ⟨hwide, hsmall⟩, fun _ => ⟨dst', hok, hw⟩⟩

set_option maxRecDepth 6000 in
/-- Five letters: one literal and a match that overlaps itself. -/
theorem gunzip_member_letters :
    Member false [31, 139, 8, 0, 0, 0, 0, 0, 0, 0, 75, 4, 1, 0, 185, 147, 172, 238, 5, 0, 0, 0]
      [97, 97, 97, 97, 97] ∧
    ∃ dst', gunzip [31, 139, 8, 0, 0, 0, 0, 0, 0, 0, 75, 4, 1, 0, 185, 147, 172, 238, 5, 0, 0, 0]
        (fun _ => 0) 8 = .ok (dst', 5) ∧ ∀ i, i < 5 → dst' i = [97, 97, 97, 97, 97].getD i 0 := by
  have hcodes : Codes fixedLitLengths fixedDistLengths
      (word fixedLitLengths 97 ++ (word fixedLitLengths 258 ++ (lsb 0 0 ++ (word fixedDistLengths 0 ++
        (lsb 0 0 ++ (word fixedLitLengths 256 ++ [false, false])))))) [] [false, false]
      [97, 97, 97, 97, 97] :=
    .literal 97 ⟨by unfold HasWord; decide, rfl⟩ (.copy 1 0 0 0 (by decide) (by decide)
      ⟨by unfold HasWord; decide, rfl⟩ (by decide)
      ⟨by unfold HasWord; decide, rfl⟩ (by decide) (by decide)
      (.stop ⟨by unfold HasWord; decide, rfl⟩))
  have hbits : bitsOf [75, 4, 1, 0] = lsb 1 1 ++ (lsb 2 1 ++
      (word fixedLitLengths 97 ++ (word fixedLitLengths 258 ++ (lsb 0 0 ++ (word fixedDistLengths 0 ++
        (lsb 0 0 ++ (word fixedLitLengths 256 ++ [false, false]))))))) := by decide
  have hmember : Member false [31, 139, 8, 0, 0, 0, 0, 0, 0, 0, 75, 4, 1, 0, 185, 147, 172, 238, 5, 0, 0, 0]
      [97, 97, 97, 97, 97] :=
    ⟨plainHeader, [75, 4, 1, 0], [false, false], hbits ▸ .last (.fixed hcodes), by decide, by decide⟩
  exact ⟨hmember, (gunzip_member_iff hmember (fun _ => 0) (by decide) (by decide) (by decide)).2
    ⟨rfl, by decide⟩⟩

/-! ### The two exceptions -/

/-- A stored block. -/
def storedBytes (last : Bool) (data : List UInt8) : List UInt8 :=
  UInt8.ofNat last.toNat :: (leBytes 2 data.length ++ (leBytes 2 (65535 - data.length) ++ data))

theorem bitsOf_storedBytes (last : Bool) (data t : List UInt8) :
    bitsOf (storedBytes last data ++ t) = lsb 1 last.toNat ++ (lsb 2 0 ++ (List.replicate 5 false ++
      (lsb 16 data.length ++ (lsb 16 (65535 - data.length) ++ (bitsOf data ++ bitsOf t))))) := by
  have hfirst : lsb 8 (UInt8.ofNat last.toNat).toNat =
      lsb 1 last.toNat ++ (lsb 2 0 ++ replicate 5 false) := by
    cases last <;> rfl
  rw [storedBytes, cons_append, bitsOf_cons, hfirst, bitsOf_append, bitsOf_append,
    bitsOf_append, bitsOf_leBytes, bitsOf_leBytes]
  simp only [append_assoc]

/-- The same bytes stored any number of times. -/
theorem stream_stored {z : List UInt8} (hz : z.length < 65536) (k : Nat) (out : List UInt8) :
    ∃ payload data, payload.length = (k + 1) * (z.length + 5) ∧
      data.length = out.length + (k + 1) * z.length ∧
      Stream false (bitsOf payload) out [] data := by
  have hlen : ∀ last, (storedBytes last z).length = z.length + 5 := by
    intro last
    have h2 : ∀ v, (leBytes 2 v).length = 2 := fun v => rfl
    simp only [storedBytes, length_cons, length_append, h2]
    omega
  induction k generalizing out with
  | zero =>
    refine ⟨storedBytes true z ++ [], out ++ z, ?_, ?_, ?_⟩
    · rw [append_nil, hlen]
      omega
    · rw [length_append]
      omega
    rw [bitsOf_storedBytes]
    exact .last (.stored z hz (by decide) rfl)
  | succ k ih => ?_
  obtain ⟨payload, data, hp, hd, hs⟩ := ih (out ++ z)
  refine ⟨storedBytes false z ++ payload, data, ?_, ?_, ?_⟩
  · rw [length_append, hlen, hp]
    ring
  · rw [hd, length_append]
    ring
  rw [bitsOf_storedBytes]
  refine .more (.stored z hz (by decide) ?_) hs
  rw [bitsOf_length]
  omega

set_option maxRecDepth 6000 in
/-- The distance codes of the block below, none of which is used, are 32. -/
theorem stream_wide : Stream true (bitsOf [5, 223, 129, 0, 0, 0, 0, 0, 144, 255, 107, 43, 0]) []
      (List.replicate 7 false) [] := by
  have hlens : Lengths [0, 1, 0, 0, 0, 0, 0, 0, 0, 0, 0, 0, 0, 0, 0, 0, 0, 0, 1]
      ([true] ++ (lsb 7 127 ++ ([true] ++ (lsb 7 107 ++ ([false] ++ ([true] ++ (lsb 7 21 ++
        ([false] ++ replicate 7 false)))))))) [] ([false] ++ replicate 7 false)
      (replicate 256 0 ++ [1] ++ replicate 32 0) :=
    .manyZeros 127 (by decide) ⟨by unfold HasWord; decide, by decide⟩
      (.manyZeros 107 (by decide) ⟨by unfold HasWord; decide, by decide⟩
        (.one 1 (by decide) ⟨by unfold HasWord; decide, by decide⟩
          (.manyZeros 21 (by decide) ⟨by unfold HasWord; decide, by decide⟩ .stop)))
  have hbody := @Body.dynamic _ _ _ [] _ 257 32 18 _ _ (by decide) (by decide) (by decide)
    (by decide) (by decide) (by decide) rfl (by decide) (by decide)
    (fits_of_le (m := 1) (by decide) (by decide)) hlens (by decide)
    (fits_of_le (m := 1) (by decide) (by decide))
    (fits_of_le (m := 0) (by decide) (by decide))
    (.stop ⟨by unfold HasWord; decide, by decide⟩)
  exact Stream.last hbody

/-- A member of two gigabytes is taken for an error, and so is an empty one whose only block announces
32 distance codes. -/
theorem gunzip_rejects_members :
    (∃ src data, Member false src data ∧ src.length < 4294967296 ∧ data.length = 2147483648 ∧
      ∀ dst, ∃ e, gunzip src dst data.length = .error e) ∧
    (Member true [31, 139, 8, 0, 0, 0, 0, 0, 0, 0, 5, 223, 129, 0, 0, 0, 0, 0, 144, 255, 107, 43, 0,
          0, 0, 0, 0, 0, 0, 0, 0] [] ∧
      ∀ dst, ∃ e, gunzip [31, 139, 8, 0, 0, 0, 0, 0, 0, 0, 5, 223, 129, 0, 0, 0, 0, 0, 144, 255, 107, 43, 0,
          0, 0, 0, 0, 0, 0, 0, 0] dst 1024 = .error e) := by
  constructor
  · obtain ⟨payload, data, hp, hd, hs⟩ :=
      @stream_stored (replicate 32768 0) (by rw [length_replicate]; omega) 65535 []
    rw [length_replicate] at hp hd
    rw [length_nil] at hd
    have hmember : Member false (plainHeader.bytes ++ (payload ++
        (leBytes 4 (crc data) ++ leBytes 4 data.length))) data :=
      ⟨plainHeader, payload, [], hs, by decide, rfl⟩
    have hsrc : (plainHeader.bytes ++ (payload ++
        (leBytes 4 (crc data) ++ leBytes 4 data.length))).length < 4294967296 := by
      have h4 : ∀ v, (leBytes 4 v).length = 4 := fun v => rfl
      have h10 : plainHeader.bytes.length = 10 := rfl
      simp only [length_append, h4, h10]
      omega
    refine ⟨_, data, hmember, hsrc, by omega, fun dst => ?_⟩
    rcases gunzip_outcome hmember dst le_rfl (by omega) hsrc with
      ⟨e, herr, -⟩ | ⟨-, -, -, -, -, hsmall⟩
    · exact ⟨e, herr⟩
    · omega
  have hmember : Member true
      [31, 139, 8, 0, 0, 0, 0, 0, 0, 0, 5, 223, 129, 0, 0, 0, 0, 0, 144, 255, 107, 43, 0,
        0, 0, 0, 0, 0, 0, 0, 0] [] :=
    ⟨plainHeader, _, _, stream_wide, by decide, by decide⟩
  refine ⟨hmember, fun dst => ?_⟩
  rcases @gunzip_outcome _ _ _ hmember dst 1024 (by decide) (by decide) (by decide) with
    ⟨e, herr, -⟩ | ⟨hwide, -⟩
  · exact ⟨e, herr⟩
  · exact absurd hwide.symm Bool.false_ne_true

end Embedded.Kernel.Inflate
