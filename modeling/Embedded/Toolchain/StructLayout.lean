import Embedded.Lib.Signed
import Mathlib.Data.Nat.Bitwise

/-! # Struct layout (`layout_struct` of `cc/parse.c`, `align_of` of `cc/type.c`)

The compiler walks the members of a struct with one running bit position. `layoutStruct` is that
walk, with the masks and the casts to `int` of the source. Beside it stands the layout the ABI
describes, as intervals of bits (`startBit`, `endBits`). For powers of two the masks round, so the two agree
member by member, and what is left is the cast of the size at the end. -/

namespace Embedded.Toolchain

open List

/-! ## Types and members -/

/-- What the layout looks at in a `Type`: `align` is the forced alignment (`0`: none). -/
inductive Ty
  | scalar (size align : Nat)
  | array (size align : Nat) (base : Ty)
  | struct (size align : Nat) (members : List Ty)

def Ty.size : Ty → Nat
  | .scalar s _ => s
  | .array s _ _ => s
  | .struct s _ _ => s

mutual

/-- `align_of`. -/
def alignOf : Ty → Nat
  | .scalar size align => if align ≠ 0 then align else size
  | .array _ align base => if align ≠ 0 then align else alignOf base
  | .struct _ align members => if align ≠ 0 then align else alignOfMembers 1 members

/-- The loop of `align_of` over the members of a struct. -/
def alignOfMembers : Nat → List Ty → Nat
  | a, [] => a
  | a, t :: ts => alignOfMembers (if alignOf t > a then alignOf t else a) ts

end

/-- A `Member` as it comes from the parser. -/
structure Member where
  type : Ty
  isBitfield : Bool := false
  bitWidth : Nat := 0
  align : Nat := 0
  packed : Bool := false

/-- The arguments of `layout_struct`: `packed` and `aligned(N)` on the struct, `#pragma pack`. -/
structure Attrs where
  packed : Bool := false
  alignb : Nat := 0
  maxalign : Nat := 0

/-- A member with the fields the layout fills in. -/
structure Placed where
  member : Member
  offset : Int := 0
  bitOffset : Int := 0
  ealign : Nat := 1
  bfDense : Bool := false

structure StructLayout where
  size : Int
  align : Nat
  members : List Placed

/-! ## The source's walk -/

/-- The cast of a `long long` to `int`. -/
def toInt (x : Nat) : Int := toS (x % 4294967296)

/-- `(x + a - 1) & ~(a - 1)`. -/
def alignMask (x a : Nat) : Nat := x + a - 1 - ((x + a - 1) &&& (a - 1))

/-- `ma`: the alignment a member gets. -/
def effAlign (at_ : Attrs) (m : Member) : Nat :=
  let ma := if at_.packed || m.packed then 1 else alignOf m.type
  let ma := if m.align > ma then m.align else ma
  if at_.maxalign ≠ 0 ∧ ma > at_.maxalign then at_.maxalign else ma

/-- `pk`: the member packs without padding; under `#pragma pack` every bit-field does. -/
def packs (at_ : Attrs) (m : Member) : Bool :=
  at_.packed || m.packed || (m.isBitfield && at_.maxalign != 0)

/-- One round of the loop of `layout_struct`: the new bit position and the member placed. `unit` is an `int`, so
the product is taken to 32 bits. -/
def layoutMember (at_ : Attrs) (bitpos : Nat) (m : Member) : Nat × Placed :=
  let ma := effAlign at_ m
  if m.isBitfield then
    let unit := ma * 8 % 4294967296
    if m.bitWidth = 0 then ((bitpos + unit - 1) / unit * unit, { member := m, ealign := ma })
    else if packs at_ m then
      (bitpos + m.bitWidth,
        { member := m, ealign := ma, bfDense := true, offset := toInt (bitpos / 8)
          bitOffset := toInt (bitpos % 8) })
    else
      let bitpos :=
        if bitpos % unit + m.bitWidth > m.type.size * 8 then (bitpos + unit - 1) / unit * unit
        else bitpos
      let offset := toInt (bitpos / unit * ma)
      (bitpos + m.bitWidth,
        { member := m, ealign := ma, offset := offset, bitOffset := (bitpos : Int) - offset * 8 })
  else
    let byte := alignMask ((bitpos + 7) / 8) ma
    ((byte + m.type.size) * 8, { member := m, ealign := ma, offset := toInt byte })

/-- The loop of `layout_struct`: bit position and struct alignment after it, the members placed. -/
def layoutLoop (at_ : Attrs) : Nat → Nat → List Member → Nat × Nat × List Placed
  | bitpos, salign, [] => (bitpos, salign, [])
  | bitpos, salign, m :: ms =>
    let r := layoutMember at_ bitpos m
    let s := layoutLoop at_ r.1 (if r.2.ealign > salign then r.2.ealign else salign) ms
    (s.1, s.2.1, r.2 :: s.2.2)

/-- `layout_struct` of a struct; `none` when it is too large and the compiler stops. -/
def layoutStruct (at_ : Attrs) (ms : List Member) : Option StructLayout :=
  let r := layoutLoop at_ 0 1 ms
  let salign := if at_.alignb > r.2.1 then at_.alignb else r.2.1
  let bytes := (r.1 + 7) / 8
  if bytes > 0x7fffffff then none
  else some { size := toInt (alignMask bytes salign), align := salign, members := r.2.2 }

/-! ## The layout as intervals of bits -/

/-- The least multiple of `a` that is no less than `x`. -/
def roundTo (x a : Nat) : Nat := (x + a - 1) / a * a

/-- The bits a member takes. -/
def bitsOf (m : Member) : Nat := if m.isBitfield then m.bitWidth else 8 * m.type.size

/-- Where a member that comes at bit `pos` starts. -/
def startBit (at_ : Attrs) (pos : Nat) (m : Member) : Nat :=
  let unit := 8 * effAlign at_ m
  if m.isBitfield then
    if m.bitWidth = 0 then roundTo pos unit
    else if packs at_ m then pos
    else if pos % unit + m.bitWidth > 8 * m.type.size then roundTo pos unit else pos
  else roundTo pos unit

/-- The first bit after the members. -/
def endBits (at_ : Attrs) : Nat → List Member → Nat
  | pos, [] => pos
  | pos, m :: ms => endBits at_ (startBit at_ pos m + bitsOf m) ms

/-- The largest alignment in sight. -/
def structAlign (at_ : Attrs) (ms : List Member) : Nat :=
  max (ms.foldl (fun a m => max a (effAlign at_ m)) 1) at_.alignb

/-- The size of the struct in bytes: up to the last bit used, rounded to the alignment. -/
def structBytes (at_ : Attrs) (ms : List Member) : Nat :=
  roundTo (roundTo (endBits at_ 0 ms) 8 / 8) (structAlign at_ ms)

/-! ## What a sound layout is -/

/-- A zero-width bit-field is a break, not a member. -/
def Placed.stored (p : Placed) : Prop := ¬ (p.member.isBitfield = true ∧ p.member.bitWidth = 0)

/-- The first bit of a member. -/
def Placed.start (p : Placed) : Int :=
  if p.member.isBitfield then 8 * p.offset + p.bitOffset else 8 * p.offset

structure LayoutOk (at_ : Attrs) (ms : List Member) (r : StructLayout) : Prop where
  all : r.members.map Placed.member = ms
  ordered : r.members.Pairwise fun a b =>
    a.stored → b.stored → a.start + (bitsOf a.member : Int) ≤ b.start
  inside : ∀ p ∈ r.members, p.stored → 0 ≤ p.start ∧ p.start + bitsOf p.member ≤ 8 * r.size
  aligned : ∀ p ∈ r.members, p.member.isBitfield = false →
    p.ealign = effAlign at_ p.member ∧ p.offset % p.ealign = 0
  unit : ∀ p ∈ r.members, p.member.isBitfield = true → p.stored → packs at_ p.member = false →
    p.offset % alignOf p.member.type = 0 ∧ 0 ≤ p.bitOffset ∧
      p.bitOffset + p.member.bitWidth ≤ 8 * p.member.type.size
  size : 0 < r.align ∧ r.size % r.align = 0

/-! ## Legal input -/

/-- An alignment as the language allows it: a power of two that is an `int`. -/
def IsAlign (a : Nat) : Prop := ∃ k ≤ 30, a = 2 ^ k

/-- `#pragma pack` and `aligned(N)` take powers of two: the compiler checks it for the first. -/
structure Attrs.Legal (at_ : Attrs) : Prop where
  alignb : at_.alignb ≠ 0 → IsAlign at_.alignb
  maxalign : at_.maxalign ≠ 0 → IsAlign at_.maxalign

/-- A member whose alignments are powers of two; a bit-field has no more bits than its type, and the bits of its
alignment are an `int`. -/
structure Member.Legal (at_ : Attrs) (m : Member) : Prop where
  align : m.align ≠ 0 → IsAlign m.align
  type : IsAlign (alignOf m.type)
  field : m.isBitfield = true → m.bitWidth ≤ 8 * m.type.size ∧ 8 * effAlign at_ m ≤ 0x7fffffff

variable {a x : Nat} {ms : List Member}

theorem IsAlign.pos (h : IsAlign a) : 0 < a := by
  obtain ⟨k, -, rfl⟩ := h
  exact Nat.two_pow_pos k

theorem IsAlign.le (h : IsAlign a) : a ≤ 0x7fffffff := by
  obtain ⟨k, hk, rfl⟩ := h
  exact le_trans (Nat.pow_le_pow_right (by omega) hk) (by omega)

theorem IsAlign.dvd {b : Nat} (ha : IsAlign a) (hb : IsAlign b) (h : a ≤ b) : a ∣ b := by
  obtain ⟨j, -, rfl⟩ := ha
  obtain ⟨k, -, rfl⟩ := hb
  exact Nat.pow_dvd_pow 2 ((Nat.pow_le_pow_iff_right (by omega)).1 h)

theorem roundTo_spec (x : Nat) (ha : 0 < a) :
    x ≤ roundTo x a ∧ roundTo x a < x + a ∧ roundTo x a % a = 0 := by
  have hdiv := Nat.div_add_mod (x + a - 1) a
  have hmod := Nat.mod_lt (x + a - 1) ha
  rw [mul_comm] at hdiv
  exact ⟨by unfold roundTo; omega, by unfold roundTo; omega, Nat.mul_mod_left _ _⟩

/-- Whatever the alignment, masking moves up by less than it. -/
theorem alignMask_range (x : Nat) (ha : 0 < a) : x ≤ alignMask x a ∧ alignMask x a < x + a := by
  have hmask : (x + a - 1) &&& (a - 1) ≤ a - 1 := Nat.and_le_right
  unfold alignMask
  omega

/-- Masking with a power of two rounds. -/
theorem alignMask_eq (x : Nat) (h : IsAlign a) : alignMask x a = roundTo x a := by
  obtain ⟨k, -, rfl⟩ := h
  have hdiv := Nat.div_add_mod' (x + 2 ^ k - 1) (2 ^ k)
  rw [alignMask, Nat.and_two_pow_sub_one_eq_mod, roundTo]
  omega

variable {at_ : Attrs} {m : Member}

theorem effAlign_cases (P : Nat → Prop) (hone : P 1)
    (htype : P (alignOf m.type)) (halign : m.align ≠ 0 → P m.align)
    (hmax : at_.maxalign ≠ 0 → P at_.maxalign) : P (effAlign at_ m) := by
  have hbase : P (if at_.packed || m.packed then 1 else alignOf m.type) := by
    split
    · exact hone
    exact htype
  unfold effAlign
  generalize (if at_.packed || m.packed then 1 else alignOf m.type) = base at hbase ⊢
  have hraise : P (if m.align > base then m.align else base) := by
    split
    · exact halign (by omega)
    exact hbase
  show P (if at_.maxalign ≠ 0 ∧ (if m.align > base then m.align else base) > at_.maxalign
    then at_.maxalign else (if m.align > base then m.align else base))
  generalize (if m.align > base then m.align else base) = raised at hraise ⊢
  split
  · next h => exact hmax h.1
  · exact hraise

theorem effAlign_isAlign (hat : at_.Legal) (hm : m.Legal at_) : IsAlign (effAlign at_ m) :=
  effAlign_cases IsAlign ⟨0, by omega, rfl⟩ hm.type hm.align hat.maxalign

/-- Without packing and without a limit a bit-field is aligned at least to its type. -/
theorem alignOf_dvd_effAlign (hat : at_.Legal) (hm : m.Legal at_)
    (hbf : m.isBitfield = true) (hpk : packs at_ m = false) :
    alignOf m.type ∣ effAlign at_ m := by
  refine hm.type.dvd (effAlign_isAlign hat hm) ?_
  have hplain : (at_.packed || m.packed) = false ∧ at_.maxalign = 0 := by simpa [packs, hbf] using hpk
  unfold effAlign
  simp only [hplain.1, hplain.2]
  simp
  split <;> omega

theorem structAlign_isAlign (hat : at_.Legal) (hms : ∀ m ∈ ms, m.Legal at_) : IsAlign (structAlign at_ ms) := by
  have hmax : ∀ a b, IsAlign a → (b ≠ 0 → IsAlign b) → IsAlign (max a b) := by
    intro a b ha hb
    rcases le_total b a with h | h
    · rwa [max_eq_left h]
    rw [max_eq_right h]
    exact hb (by have := ha.pos; omega)
  have hfold : ∀ (ms : List Member) (a : Nat), (∀ m ∈ ms, m.Legal at_) → IsAlign a →
      IsAlign (ms.foldl (fun a m => max a (effAlign at_ m)) a) := by
    intro ms
    induction ms with
    | nil => intro a _ ha; exact ha
    | cons m ms ih =>
      intro a hms ha
      obtain ⟨hm, hms⟩ := forall_mem_cons.1 hms
      exact ih _ hms (hmax a _ ha fun _ => effAlign_isAlign hat hm)
  exact hmax _ _ (hfold ms 1 hms ⟨0, by omega, rfl⟩) hat.alignb

/-! ## One member -/

theorem toInt_of_le (h : x ≤ 0x7fffffff) : toInt x = x := by
  unfold toInt toS
  rw [Nat.mod_eq_of_lt (by omega)]
  split <;> omega

theorem roundTo_bits (pos : Nat) (ha : 0 < a) : 8 * roundTo ((pos + 7) / 8) a = roundTo pos (8 * a) := by
  unfold roundTo
  rw [← Nat.div_div_eq_div_mul]
  have hbyte : (pos + 8 * a - 1) / 8 = (pos + 7) / 8 + a - 1 := by omega
  rw [hbyte]
  ring

theorem startBit_ge (at_ : Attrs) (pos : Nat) (m : Member) (ha : 0 < effAlign at_ m) :
    pos ≤ startBit at_ pos m := by
  have hround := (roundTo_spec pos (Nat.mul_pos (show 0 < 8 by omega) ha)).1
  simp only [startBit]
  split_ifs <;> omega

/-- What holds of a member placed between the bits `lo` and `hi`. -/
structure PlacedOk (at_ : Attrs) (lo hi : Nat) (p : Placed) : Prop where
  ealign : p.ealign = effAlign at_ p.member
  range : p.stored → (lo : Int) ≤ p.start ∧ p.start + bitsOf p.member ≤ hi
  aligned : p.member.isBitfield = false → p.offset % p.ealign = 0
  unit : p.member.isBitfield = true → p.stored → packs at_ p.member = false →
    p.offset % alignOf p.member.type = 0 ∧ 0 ≤ p.bitOffset ∧
      p.bitOffset + p.member.bitWidth ≤ 8 * p.member.type.size

theorem PlacedOk.widen {lo hi lo' hi' : Nat} {p : Placed}
    (h : PlacedOk at_ lo hi p) (hlo : lo' ≤ lo) (hhi : hi ≤ hi') : PlacedOk at_ lo' hi' p where
  ealign := h.ealign
  range hs := by have := h.range hs; omega
  aligned := h.aligned
  unit := h.unit

section OneMember

variable {at_ : Attrs} {m : Member} (pos : Nat)

/-- A zero-width bit-field moves on to the next unit and stores nothing. -/
theorem layoutMember_break (hm : m.Legal at_) (hbf : m.isBitfield = true) (hw : m.bitWidth = 0) : layoutMember at_ pos m =
      (startBit at_ pos m + bitsOf m, { member := m, ealign := effAlign at_ m }) := by
  have hunit : effAlign at_ m * 8 % 4294967296 = 8 * effAlign at_ m := by have := (hm.field hbf).2; omega
  simp [layoutMember, startBit, bitsOf, roundTo, hbf, hw, hunit]

/-- A packed bit-field starts at the next bit. -/
theorem layoutMember_dense (hbf : m.isBitfield = true) (hw : m.bitWidth ≠ 0) (hpk : packs at_ m = true) :
    startBit at_ pos m = pos ∧
    layoutMember at_ pos m = (startBit at_ pos m + bitsOf m,
      { member := m, ealign := effAlign at_ m, bfDense := true
        offset := toInt (pos / 8), bitOffset := toInt (pos % 8) }) := by
  simp [layoutMember, startBit, bitsOf, hbf, hw, hpk]

/-- A bit-field that does not pack lies in the unit its start falls into. -/
theorem layoutMember_unit (hm : m.Legal at_) (hbf : m.isBitfield = true) (hw : m.bitWidth ≠ 0)
    (hpk : packs at_ m = false) :
    layoutMember at_ pos m = (startBit at_ pos m + bitsOf m,
      { member := m, ealign := effAlign at_ m
        offset := toInt (startBit at_ pos m / (8 * effAlign at_ m) * effAlign at_ m)
        bitOffset := (startBit at_ pos m : Int) -
          toInt (startBit at_ pos m / (8 * effAlign at_ m) * effAlign at_ m) * 8 }) := by
  have hunit : effAlign at_ m * 8 % 4294967296 = 8 * effAlign at_ m := by have := (hm.field hbf).2; omega
  simp only [layoutMember, hunit, mul_comm m.type.size]
  simp [startBit, bitsOf, roundTo, hbf, hw, hpk]

/-- A plain member starts at the next byte its alignment allows. -/
theorem layoutMember_plain (hbf : m.isBitfield = false) (ha : IsAlign (effAlign at_ m)) :
    startBit at_ pos m = 8 * roundTo ((pos + 7) / 8) (effAlign at_ m) ∧
    layoutMember at_ pos m = (startBit at_ pos m + bitsOf m,
      { member := m, ealign := effAlign at_ m
        offset := toInt (roundTo ((pos + 7) / 8) (effAlign at_ m)) }) := by
  have hstart : startBit at_ pos m = 8 * roundTo ((pos + 7) / 8) (effAlign at_ m) := by
    simp [startBit, hbf, roundTo_bits pos ha.pos]
  refine ⟨hstart, ?_⟩
  simp only [layoutMember, hbf, Bool.false_eq_true, if_false, alignMask_eq _ ha, bitsOf, hstart]
  congr 1
  ring

theorem layoutMember_fst (hat : at_.Legal) (hm : m.Legal at_) :
    (layoutMember at_ pos m).1 = startBit at_ pos m + bitsOf m := by
  by_cases hbf : m.isBitfield = true
  · by_cases hw : m.bitWidth = 0
    · rw [layoutMember_break pos hm hbf hw]
    by_cases hpk : packs at_ m = true
    · rw [(layoutMember_dense pos hbf hw hpk).2]
    rw [layoutMember_unit pos hm hbf hw (by simpa using hpk)]
  have hbf' : m.isBitfield = false := by simpa using hbf
  rw [(layoutMember_plain pos hbf' (effAlign_isAlign hat hm)).2]

/-- The start of a bit-field that does not pack leaves room for it in its unit. -/
theorem startBit_unit (hm : m.Legal at_) (hbf : m.isBitfield = true) (hw : m.bitWidth ≠ 0)
    (hpk : packs at_ m = false) (ha : 0 < effAlign at_ m) :
    startBit at_ pos m % (8 * effAlign at_ m) + m.bitWidth ≤ 8 * m.type.size := by
  have hround := (roundTo_spec pos (Nat.mul_pos (show 0 < 8 by omega) ha)).2.2
  have hwidth := (hm.field hbf).1
  simp only [startBit, hbf, hw, hpk, if_true, if_false, Bool.false_eq_true]
  split_ifs with hover <;> omega

/-- **One member**: while the position stays in range, the member gets what `PlacedOk` asks. -/
theorem layoutMember_ok (hat : at_.Legal) (hm : m.Legal at_)
    (hfit : startBit at_ pos m + bitsOf m ≤ 8 * 0x7fffffff) :
    PlacedOk at_ pos (startBit at_ pos m + bitsOf m) (layoutMember at_ pos m).2 := by
  have halign := effAlign_isAlign hat hm
  have ha := halign.pos
  have hge := startBit_ge at_ pos m ha
  by_cases hbf : m.isBitfield = true
  · by_cases hw : m.bitWidth = 0
    · rw [layoutMember_break pos hm hbf hw]
      have hnone : ¬ Placed.stored { member := m, ealign := effAlign at_ m } := fun h => h ⟨hbf, hw⟩
      exact ⟨rfl, fun h => absurd h hnone, fun h => by simp [hbf] at h, fun _ h => absurd h hnone⟩
    by_cases hpk : packs at_ m = true
    · obtain ⟨hstart, heq⟩ := layoutMember_dense pos hbf hw hpk
      rw [heq]
      refine ⟨rfl, fun _ => ?_, fun h => by simp [hbf] at h, fun _ _ h => by simp [hpk] at h⟩
      simp only [Placed.start, hbf, if_true]
      rw [toInt_of_le (by omega), toInt_of_le (by omega)]
      omega
    have hpk' : packs at_ m = false := by simpa using hpk
    rw [layoutMember_unit pos hm hbf hw hpk']
    have hunit := startBit_unit pos hm hbf hw hpk' ha
    have hdvd := alignOf_dvd_effAlign hat hm hbf hpk'
    generalize hae : effAlign at_ m = a at *
    generalize hs : startBit at_ pos m = start at *
    -- the unit the member starts in, and the bit inside it
    have hsplit : start = 8 * (start / (8 * a) * a) + start % (8 * a) := by
      have := Nat.div_add_mod start (8 * a)
      calc start = 8 * a * (start / (8 * a)) + start % (8 * a) := this.symm
        _ = _ := by ring
    have hoff : toInt (start / (8 * a) * a) = (start / (8 * a) * a : Nat) :=
      toInt_of_le (by omega)
    rw [hoff]
    have hmul : alignOf m.type ∣ start / (8 * a) * a := Dvd.dvd.mul_left hdvd _
    generalize start / (8 * a) * a = q at *
    refine ⟨hae.symm, fun _ => ?_, fun h => by simp [hbf] at h, fun _ _ _ => ⟨?_, ?_, ?_⟩⟩
    · simp only [Placed.start, hbf, if_true]
      omega
    · exact Int.emod_eq_zero_of_dvd (Int.natCast_dvd_natCast.2 hmul)
    · show (0 : Int) ≤ (start : Int) - q * 8
      omega
    show (start : Int) - q * 8 + m.bitWidth ≤ 8 * m.type.size
    omega
  have hbf' : m.isBitfield = false := by simpa using hbf
  obtain ⟨hstart, heq⟩ := layoutMember_plain pos hbf' halign
  rw [heq]
  have hround := (roundTo_spec ((pos + 7) / 8) ha).2.2
  refine ⟨rfl, fun _ => ?_, fun _ => ?_, fun h => by simp [hbf'] at h⟩
  · simp only [Placed.start, hbf', Bool.false_eq_true, if_false]
    rw [toInt_of_le (by omega)]
    omega
  show toInt (roundTo ((pos + 7) / 8) (effAlign at_ m)) % (effAlign at_ m : Int) = 0
  rw [toInt_of_le (by omega)]
  exact_mod_cast hround

end OneMember

/-! ## The walk -/

theorem layoutMember_member (at_ : Attrs) (pos : Nat) (m : Member) :
    (layoutMember at_ pos m).2.member = m ∧ (layoutMember at_ pos m).2.ealign = effAlign at_ m := by
  simp only [layoutMember]
  split_ifs <;> exact ⟨rfl, rfl⟩

theorem layoutLoop_align (at_ : Attrs) (ms : List Member) : ∀ pos salign,
    (layoutLoop at_ pos salign ms).2.1 = ms.foldl (fun a m => max a (effAlign at_ m)) salign ∧
      (layoutLoop at_ pos salign ms).2.2.map Placed.member = ms := by
  induction ms with
  | nil => intro pos salign; exact ⟨rfl, rfl⟩
  | cons m ms ih => ?_
  intro pos salign
  obtain ⟨hmem, heal⟩ := layoutMember_member at_ pos m
  have hmax : (if effAlign at_ m > salign then effAlign at_ m else salign) = max salign (effAlign at_ m) := by
    split <;> omega
  obtain ⟨halign, hall⟩ := ih (layoutMember at_ pos m).1 (max salign (effAlign at_ m))
  simp only [layoutLoop, heal, hmax, foldl_cons, map_cons, hmem]
  exact ⟨halign, by rw [hall]⟩

section Walk

variable (hat : at_.Legal) (hms : ∀ m ∈ ms, m.Legal at_)
include hat hms

theorem endBits_ge : ∀ pos, pos ≤ endBits at_ pos ms := by
  induction ms with
  | nil => intro pos; exact le_refl pos
  | cons m ms ih => ?_
  intro pos
  have hm := (effAlign_isAlign hat (hms m mem_cons_self)).pos
  have hstart := startBit_ge at_ pos m hm
  have hrest := ih (forall_mem_cons.1 hms).2 (startBit at_ pos m + bitsOf m)
  show pos ≤ endBits at_ (startBit at_ pos m + bitsOf m) ms
  omega

theorem layoutLoop_end : ∀ pos salign, (layoutLoop at_ pos salign ms).1 = endBits at_ pos ms := by
  induction ms with
  | nil => intro pos salign; rfl
  | cons m ms ih => ?_
  intro pos salign
  simp only [layoutLoop, layoutMember_fst pos hat (hms m mem_cons_self), endBits]
  exact ih (forall_mem_cons.1 hms).2 _ _

/-- **The walk**: the members lie between where it starts and where it ends, one after the other. -/
theorem layoutLoop_ok : ∀ pos salign, endBits at_ pos ms ≤ 8 * 0x7fffffff →
    (∀ p ∈ (layoutLoop at_ pos salign ms).2.2, PlacedOk at_ pos (endBits at_ pos ms) p) ∧
      (layoutLoop at_ pos salign ms).2.2.Pairwise fun a b =>
        a.stored → b.stored → a.start + (bitsOf a.member : Int) ≤ b.start := by
  induction ms with
  | nil =>
    intro pos salign _
    exact ⟨forall_mem_nil _, List.Pairwise.nil⟩
  | cons m ms ih => ?_
  intro pos salign hfit
  obtain ⟨hm, hrest⟩ := forall_mem_cons.1 hms
  have ha := (effAlign_isAlign hat hm).pos
  have hstart := startBit_ge at_ pos m ha
  have hend := endBits_ge hat hrest (startBit at_ pos m + bitsOf m)
  simp only [endBits] at hfit ⊢
  have hone := layoutMember_ok pos hat hm (by omega)
  simp only [layoutLoop, layoutMember_fst pos hat hm]
  generalize (layoutMember at_ pos m).2 = p at hone
  obtain ⟨hplaced, hpairs⟩ := ih hrest (startBit at_ pos m + bitsOf m)
    (if p.ealign > salign then p.ealign else salign) hfit
  refine ⟨forall_mem_cons.2 ⟨hone.widen le_rfl hend, fun q hq =>
    (hplaced q hq).widen (by omega) le_rfl⟩, List.Pairwise.cons ?_ hpairs⟩
  -- everything placed later starts no earlier than this member ends
  intro q hq hp hstored
  have hfirst := (hone.range hp).2
  have hlater := ((hplaced q hq).range hstored).1
  omega

end Walk

/-! ## The layout -/

theorem roundTo_bytes (pos : Nat) : roundTo pos 8 / 8 = (pos + 7) / 8 := by
  unfold roundTo
  omega

theorem layoutStruct_eq {r : StructLayout} (h : layoutStruct at_ ms = some r) :
    (layoutLoop at_ 0 1 ms).1 ≤ 8 * 0x7fffffff ∧
      r.size = toInt (alignMask (((layoutLoop at_ 0 1 ms).1 + 7) / 8) (structAlign at_ ms)) ∧
      r.align = structAlign at_ ms ∧ r.members = (layoutLoop at_ 0 1 ms).2.2 := by
  have halign := (layoutLoop_align at_ ms 0 1).1
  have hsalign : (if at_.alignb > (layoutLoop at_ 0 1 ms).2.1 then at_.alignb
      else (layoutLoop at_ 0 1 ms).2.1) = structAlign at_ ms := by
    rw [halign]
    unfold structAlign
    split <;> omega
  unfold layoutStruct at h
  simp only [hsalign] at h
  split at h
  · simp at h
  cases h
  exact ⟨by omega, rfl, rfl, rfl⟩

theorem endBits_breaks (h : ∀ m ∈ ms, m.isBitfield = true ∧ m.bitWidth = 0) : endBits at_ 0 ms = 0 := by
  induction ms with
  | nil => rfl
  | cons m ms ih => ?_
  obtain ⟨hbf, hw⟩ := h m mem_cons_self
  have hstart : startBit at_ 0 m + bitsOf m = 0 := by
    simp only [startBit, bitsOf, roundTo, hbf, hw, if_true]
    rcases Nat.eq_zero_or_pos (effAlign at_ m) with ha | ha
    · simp [ha]
    rw [Nat.div_eq_of_lt (by omega)]
    simp
  rw [endBits, hstart]
  exact ih (forall_mem_cons.1 h).2

theorem toInt_neg (hbig : 0x7fffffff < x) (hlt : x < 4294967296) : toInt x < 0 := by
  unfold toInt toS
  rw [Nat.mod_eq_of_lt hlt, if_neg (by omega)]
  omega

/-- A sound layout with a member in it has a size that did not wrap. -/
theorem LayoutOk.size_fits {r : StructLayout}
    (hok : LayoutOk at_ ms r) (hx : x < 4294967296) (hsize : r.size = toInt x)
    (hzero : endBits at_ 0 ms = 0 → x = 0) : x ≤ 0x7fffffff := by
  by_contra hbig
  have hneg : r.size < 0 := by
    rw [hsize]
    exact toInt_neg (by omega) hx
  -- nothing fits into a struct of negative size
  have hbreaks : ∀ m ∈ ms, m.isBitfield = true ∧ m.bitWidth = 0 := by
    intro m hm
    rw [← hok.all] at hm
    obtain ⟨p, hp, rfl⟩ := mem_map.1 hm
    by_contra hstored
    have hinside := hok.inside p hp hstored
    omega
  have := hzero (endBits_breaks hbreaks)
  omega

/-- Rounded with another `N` than a power of two, a struct of one byte gets no multiple of `N` as its size. -/
theorem aligned_unsound (h0 : a ≠ 0) (hmax : a ≤ 0x7fffffff) (ha : ¬ IsAlign a) :
    ∃ r, layoutStruct { alignb := a } [{ type := .scalar 1 0 }] = some r ∧
      ¬ LayoutOk { alignb := a } [{ type := .scalar 1 0 }] r := by
  have h1 : 1 < a := by
    by_contra h
    exact ha ⟨0, by omega, by omega⟩
  refine ⟨⟨toInt (alignMask 1 a), a, [⟨{ type := .scalar 1 0 }, 0, 0, 1, false⟩]⟩, ?_, fun hok => ha ?_⟩
  · simp only [layoutStruct, layoutLoop, layoutMember]
    simp [effAlign, alignOf, alignMask, Ty.size, toInt, toS, h1]
  have hmul : toInt (alignMask 1 a) % (a : Int) = 0 := hok.size.2
  obtain ⟨hlo, hhi⟩ := alignMask_range 1 (show 0 < a by omega)
  rw [toInt_of_le (by omega)] at hmul
  -- the only positive multiple up to `a` is `a`
  have hle := Nat.le_of_dvd (by omega) (Nat.dvd_of_mod_eq_zero (show alignMask 1 a % a = 0 by exact_mod_cast hmul))
  have hand : a &&& (a - 1) ≤ a - 1 := Nat.and_le_right
  have hzero : a &&& (a - 1) = 0 := by
    rw [alignMask, show 1 + a - 1 = a by omega] at hle
    omega
  obtain ⟨k, hk⟩ := (Nat.and_sub_one_eq_zero_iff_isPowerOfTwo h0).1 hzero
  refine ⟨k, ?_, hk⟩
  by_contra hbig
  have := Nat.pow_le_pow_right (show 0 < 2 by omega) (show 31 ≤ k by omega)
  omega

/-- `struct { char c; int b : 5; long long : 0; int x; }`: the condition holds, and so does the
conclusion. -/
def mixedMembers : List Member :=
  [{ type := .scalar 1 0 }, { type := .scalar 4 0, isBitfield := true, bitWidth := 5 },
    { type := .scalar 8 0, isBitfield := true }, { type := .scalar 4 0 }]

end Embedded.Toolchain
