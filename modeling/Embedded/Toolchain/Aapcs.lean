import Mathlib.Data.Nat.Bitwise


/-! # Placing arguments (`aapcs_place` of `cc/gen.c`)

The compiler places the arguments of a call one after the other. `Aapcs` is what it keeps between
two of them: the next core register, the stack words taken, the floating-point registers in use.
`Extends` says what one placement does to it, and the rules of the procedure call standard follow
for whole argument lists. Words are counted without bound: an `int` holds the words of any argument
list that fits the address space. -/

namespace Embedded.Toolchain

open List

/-! ## Types -/

mutual

/-- What argument passing looks at in a `Type`; `int` stands for every integer type. -/
inductive CType
  | int (size : Nat)
  | float
  | double
  | ptr
  | array (base : CType) (len : Nat)
  | struct (size : Nat) (members : List CMember)
  | vector (size : Nat)
  | complex (base : CType)

inductive CMember
  | mk (type : CType) (isBitfield promoted : Bool) (ealign : Nat)

end

def CType.size : CType → Nat
  | .int size | .struct size _ | .vector size => size
  | .float | .ptr => 4
  | .double => 8
  | .array base len => len * base.size
  | .complex base => 2 * base.size

/-- `is_aggr`. -/
def isAggr : Option CType → Bool
  | some (.struct ..) | some (.vector _) | some (.complex _) => true
  | _ => false

/-- `arg_words`; an unknown type is one word. -/
def argWords : Option CType → Nat
  | none | some (.array ..) => 1
  | some t => if isAggr t then (t.size + 3) / 4 else if t.size = 8 then 2 else 1

/-- `vfp_regs`: the `s` registers of an element of class `k`. -/
def vfpRegs (k : Nat) : Nat := if k = 1 then 1 else if k = 4 then 4 else 2

/-- One more element of class `k`; `none` if the others are of another class. -/
def hfaElem (k : Nat) (s : Nat × Nat) : Option (Nat × Nat) :=
  if s.1 ≠ 0 ∧ s.1 ≠ k then none else some (k, s.2 + 1)

mutual

/-- `hfa_scan` over `(*kind, *nel)`; `none` where it returns 0. -/
def hfaScan : CType → Nat × Nat → Option (Nat × Nat)
  | .float, s => hfaElem 1 s
  | .double, s => hfaElem 2 s
  | .vector size, s =>
    if size = 8 then hfaElem 3 s else if size = 16 then hfaElem 4 s else none
  | .array base len, s =>
    if len = 0 then none else (List.replicate len ()).foldlM (fun s _ => hfaScan base s) s
  | .complex .float, s => (hfaElem 1 s).bind (hfaElem 1)
  | .complex .double, s => (hfaElem 2 s).bind (hfaElem 2)
  | .struct _ members, s => hfaMembers members false s
  | _, _ => none

/-- The loop of `hfa_scan` over the members of a struct. -/
def hfaMembers : List CMember → Bool → Nat × Nat → Option (Nat × Nat)
  | [], any, s => if any then some s else none
  | .mk type isBitfield promoted _ :: ms, any, s =>
    if promoted then hfaMembers ms any s
    else if isBitfield then none
    else
      match hfaScan type s with
      | none => none
      | some s => hfaMembers ms true s

end

/-- `vfp_class`: the class, 0 for none, and the number of elements. -/
def vfpClass : Option CType → Nat × Nat
  | none | some (.array ..) => (0, 0)
  | some t =>
    match hfaScan t (0, 0) with
    | none => (0, 0)
    | some (kind, n) => if n > 4 ∨ t.size ≠ n * 4 * vfpRegs kind then (0, 0) else (kind, n)

/-- `arg_align8`. -/
def argAlign8 : Option CType → Bool
  | none | some (.array ..) | some .ptr => false
  | some (.struct _ members) => members.any fun | .mk _ _ promoted ealign => !promoted && ealign > 4
  | some (.vector size) => size ≥ 8
  | some (.complex base) => base.size > 4
  | some t => t.size > 4

/-! ## Placement -/

structure Aapcs where
  ncrn : Nat
  nsaa : Nat := 0
  vclosed : Bool := false
  vfp : Bool
  sused : Nat := 0

/-- Where an argument goes: `pos[i]`, or `vreg[i]`. Core word `w < 4` is register `w`, from 4 on it
    is stack word `w - 4`. -/
inductive Place
  | core (pos : Nat)
  | vfp (vreg : Nat)

/-- `(x + 1) & ~1`. -/
def roundEven (x : Nat) : Nat := (x + 1) / 2 * 2

/-- The loop of `aapcs_place` for `need` free registers; it starts below 16 and goes up, so 17 rounds
    are enough. -/
def freeRun (sused need w : Nat) : Nat → Nat → Option Nat
  | 0, _ => none
  | fuel + 1, s =>
    if s + need ≤ 16 then
      if (sused >>> s) &&& (2 ^ need - 1) = 0 then some s else freeRun sused need w fuel (s + w)
    else none

/-- `aapcs_place`. -/
def aapcsPlace (a : Aapcs) (t : Option CType) : Place × Aapcs :=
  let k := if a.vfp then vfpClass t else (0, 0)
  let nsaa := if argAlign8 t then roundEven a.nsaa else a.nsaa
  let nw := argWords t
  if k.1 ≠ 0 then
    let w := vfpRegs k.1
    let need := k.2 * w
    match if a.vclosed then none else freeRun a.sused need w 17 0 with
    | some got => (.vfp got, { a with sused := a.sused ||| (2 ^ need - 1) <<< got })
    | none => (.core (4 + nsaa), { a with vclosed := true, sused := 0xffff, nsaa := nsaa + nw })
  else
    let ncrn := if nw ≠ 0 ∧ argAlign8 t then roundEven a.ncrn else a.ncrn
    if ncrn + nw ≤ 4 then (.core ncrn, { a with ncrn := ncrn + nw })
    else if isAggr t ∧ ncrn < 4 ∧ a.nsaa = 0 then
      (.core ncrn, { a with ncrn := 4, nsaa := nw - (4 - ncrn) })
    else (.core (4 + nsaa), { a with ncrn := 4, nsaa := nsaa + nw })

structure PlacedArg where
  type : Option CType
  place : Place

/-- The loop of `aapcs_layout`. -/
def placeArgs : Aapcs → List (Option CType) → List PlacedArg × Aapcs
  | a, [] => ([], a)
  | a, t :: ts =>
    let r := aapcsPlace a t
    let s := placeArgs r.2 ts
    (⟨t, r.1⟩ :: s.1, s.2)

/-- `aapcs_words`. -/
def aapcsWords (a : Aapcs) : Nat := if a.nsaa ≠ 0 then 4 + a.nsaa else a.ncrn

/-- `aapcs_layout`: the places, and the core words; `first` words are taken beforehand. -/
def aapcsLayout (ty : List (Option CType)) (first : Nat) (vfp : Bool) : List PlacedArg × Nat :=
  let r := placeArgs { ncrn := first, vfp := vfp } ty
  (r.1, aapcsWords r.2)

/-! ## The standard's rules -/

namespace PlacedArg

/-- The core words of an argument. -/
def words (x : PlacedArg) : List Nat :=
  match x.place with
  | .core pos => List.range' pos (argWords x.type)
  | .vfp _ => []

/-- The floating-point registers of an argument. -/
def sregs (x : PlacedArg) : List Nat :=
  match x.place with
  | .core _ => []
  | .vfp s => List.range' s ((vfpClass x.type).2 * vfpRegs (vfpClass x.type).1)

def inVfp (x : PlacedArg) : Prop := ∃ s, x.place = .vfp s

end PlacedArg

/-- What the standard asks of an argument: a doubleword-aligned one starts at an even core word, one
    in floating-point registers at a register its elements are aligned to. -/
structure WellPlaced (x : PlacedArg) : Prop where
  even : argAlign8 x.type = true → ∀ w, x.words.head? = some w → w % 2 = 0
  element : ∀ s, x.place = .vfp s → s % vfpRegs (vfpClass x.type).1 = 0

/-- What the standard asks of an argument `x` and a later one `y`. -/
structure Follows (x y : PlacedArg) : Prop where
  words : x.words.Disjoint y.words
  sregs : x.sregs.Disjoint y.sregs
  closed : (vfpClass x.type).1 ≠ 0 → ¬ x.inVfp → ¬ y.inVfp
  split : (∃ r ∈ y.words, r < 4) → (∃ r ∈ y.words, 4 ≤ r) → ∀ r ∈ x.words, r < 4

/-! ## One placement -/

/-- No floating-point register is given any more. -/
def Aapcs.shut (a : Aapcs) : Prop := a.vfp = false ∨ a.vclosed = true

/-- Placing `x` leads from `a` to `b`. -/
structure Extends (a : Aapcs) (x : PlacedArg) (b : Aapcs) : Prop where
  ncrn : a.ncrn ≤ b.ncrn ∧ b.ncrn ≤ 4
  nsaa : a.nsaa ≤ b.nsaa
  sused : ∀ i < 16, a.sused.testBit i = true → b.sused.testBit i = true
  shut : a.shut → b.shut ∧ ¬ x.inVfp
  words : ∀ r ∈ x.words, a.ncrn ≤ r ∧ r < b.ncrn ∨ 4 + a.nsaa ≤ r ∧ r < 4 + b.nsaa
  sregs : ∀ i ∈ x.sregs, i < 16 ∧ a.sused.testBit i = false ∧ b.sused.testBit i = true
  closed : (vfpClass x.type).1 ≠ 0 → ¬ x.inVfp → b.shut
  split : (∃ r ∈ x.words, r < 4) → (∃ r ∈ x.words, 4 ≤ r) → a.nsaa = 0
  placed : WellPlaced x

section Step

variable {sused need w s : Nat}

theorem testBit_of_and_eq_zero (h : (sused >>> s) &&& (2 ^ need - 1) = 0) {i : Nat}
    (hs : s ≤ i) (hi : i < s + need) : sused.testBit i = false := by
  have hbit := congrArg (Nat.testBit · (i - s)) h
  simp only [Nat.testBit_and, Nat.testBit_shiftRight, Nat.testBit_two_pow_sub_one, Nat.zero_testBit] at hbit
  rw [show s + (i - s) = i by omega, decide_eq_true (by omega), Bool.and_true] at hbit
  exact hbit

/-- The registers in use after a run at `got` was given. -/
theorem testBit_mark (got i : Nat) : (sused ||| (2 ^ need - 1) <<< got).testBit i
    = (sused.testBit i || (decide (got ≤ i) && decide (i - got < need))) := by
  rw [Nat.testBit_or, Nat.testBit_shiftLeft, Nat.testBit_two_pow_sub_one]

theorem freeRun_spec (fuel : Nat) : ∀ {s got : Nat}, freeRun sused need w fuel s = some got →
    s % w = 0 → got % w = 0 ∧ got + need ≤ 16 ∧ ∀ i, got ≤ i → i < got + need → sused.testBit i = false := by
  induction fuel with
  | zero => intro s got h; simp [freeRun] at h
  | succ fuel ih => ?_
  intro s got h hs
  rw [freeRun] at h
  split at h
  · next hle =>
    split at h
    · next hfree =>
      cases h
      exact ⟨hs, hle, fun i h1 h2 => testBit_of_and_eq_zero hfree h1 h2⟩
    exact ih h (by rw [Nat.add_mod_right]; exact hs)
  simp at h

theorem roundEven_spec (P : Prop) [Decidable P] (x : Nat) :
    x ≤ (if P then roundEven x else x) ∧ (P → (if P then roundEven x else x) % 2 = 0) := by
  unfold roundEven
  split
  · exact ⟨by omega, fun _ => by omega⟩
  · next hP => exact ⟨le_refl x, fun h => absurd h hP⟩

theorem Extends.core {a b : Aapcs} {t : Option CType} {pos : Nat}
    (hncrn : a.ncrn ≤ b.ncrn ∧ b.ncrn ≤ 4) (hnsaa : a.nsaa ≤ b.nsaa)
    (hsused : ∀ i < 16, a.sused.testBit i = true → b.sused.testBit i = true)
    (hshut : a.shut → b.shut) (hclosed : (vfpClass t).1 ≠ 0 → b.shut)
    (hwords : ∀ r, pos ≤ r → r < pos + argWords t → a.ncrn ≤ r ∧ r < b.ncrn ∨ 4 + a.nsaa ≤ r ∧ r < 4 + b.nsaa)
    (hsplit : pos < 4 → 4 < pos + argWords t → a.nsaa = 0)
    (heven : argAlign8 t = true → argWords t ≠ 0 → pos % 2 = 0) :
    Extends a ⟨t, .core pos⟩ b := by
  have hmem : ∀ r, r ∈ PlacedArg.words ⟨t, .core pos⟩ ↔ pos ≤ r ∧ r < pos + argWords t :=
    fun r => mem_range'_1
  have hin : ¬ PlacedArg.inVfp ⟨t, .core pos⟩ := by rintro ⟨s, hs⟩; cases hs
  refine ⟨hncrn, hnsaa, hsused, fun h => ⟨hshut h, hin⟩, fun r hr => ?_, by simp [PlacedArg.sregs],
    fun hk _ => hclosed hk, ?_, ⟨fun h8 r hr => ?_, fun s hs => by cases hs⟩⟩
  · exact hwords r ((hmem r).1 hr).1 ((hmem r).1 hr).2
  · rintro ⟨r, hr, hlt⟩ ⟨q, hq, hge⟩
    rw [hmem] at hr hq
    exact hsplit (by omega) (by omega)
  simp only [PlacedArg.words, head?_range'] at hr
  split at hr
  · simp at hr
  next h0 =>
  cases hr
  exact heven h8 h0

theorem aapcsPlace_extends {a : Aapcs} (h4 : a.ncrn ≤ 4) (t : Option CType) :
    Extends a ⟨t, (aapcsPlace a t).1⟩ (aapcsPlace a t).2 := by
  have hs := roundEven_spec (argAlign8 t = true) a.nsaa
  have hc := roundEven_spec (argWords t ≠ 0 ∧ argAlign8 t = true) a.ncrn
  simp only [aapcsPlace]
  generalize (if argWords t ≠ 0 ∧ argAlign8 t then roundEven a.ncrn else a.ncrn) = ncrn at hc ⊢
  by_cases hfp : a.vfp = true ∧ (vfpClass t).1 ≠ 0
  · obtain ⟨hvfp, hk⟩ := hfp
    rw [if_pos hvfp, if_pos hk]
    split
    · next got hgot =>
      -- a free run of floating-point registers
      have hopen : a.vclosed = false := by
        by_contra h
        simp [h] at hgot
      rw [hopen, if_neg (by simp)] at hgot
      obtain ⟨hmod, hle, hfree⟩ := freeRun_spec 17 hgot (Nat.zero_mod _)
      refine ⟨⟨le_rfl, h4⟩, le_rfl, fun i _ hi => ?_, fun h => ?_, by simp [PlacedArg.words],
        fun i hi => ?_, fun _ h => absurd ⟨got, rfl⟩ h, by simp [PlacedArg.words],
        by simp [PlacedArg.words], ?_⟩
      · rw [testBit_mark, hi, Bool.true_or]
      · simp [Aapcs.shut, hvfp, hopen] at h
      · simp only [PlacedArg.sregs, mem_range'_1] at hi
        refine ⟨by omega, hfree i hi.1 hi.2, ?_⟩
        rw [testBit_mark, decide_eq_true hi.1, decide_eq_true (by omega), Bool.and_true, Bool.or_true]
      rintro s ⟨⟩
      exact hmod
    -- the registers are closed, and the argument goes to the stack
    refine .core ⟨le_rfl, h4⟩ (by simp only; omega) (fun i hi _ => ?_) (fun _ => .inr rfl)
      (fun _ => .inr rfl) (fun r _ _ => .inr (by simp only; omega)) (by omega)
      fun h8 _ => by have := hs.2 h8; omega
    rw [show (0xffff : Nat) = 2 ^ 16 - 1 by rfl, Nat.testBit_two_pow_sub_one]
    exact decide_eq_true hi
  have hclosed : (vfpClass t).1 ≠ 0 → a.shut := by
    intro hk
    exact .inl (by simpa using fun h => hfp ⟨h, hk⟩)
  rw [if_neg (by intro h; split at h <;> simp_all)]
  split
  · -- in registers
    exact .core (by simp only; omega) le_rfl (fun _ _ h => h) id hclosed
      (fun r _ _ => .inl (by simp only; omega)) (by omega) fun h8 h0 => hc.2 ⟨h0, h8⟩
  split
  · next hsplit =>
    -- split between registers and a stack that is empty
    obtain ⟨-, hlt, h0⟩ := hsplit
    exact .core ⟨h4, le_rfl⟩ (by omega) (fun _ _ h => h) id hclosed
      (fun r _ _ => by simp only; omega) (fun _ _ => h0) fun h8 hne => hc.2 ⟨hne, h8⟩
  -- on the stack
  exact .core ⟨h4, le_rfl⟩ (by simp only; omega) (fun _ _ h => h) id hclosed
    (fun r _ _ => .inr (by simp only; omega)) (by omega) fun h8 _ => by have := hs.2 h8; omega

end Step

/-! ## Argument lists -/

section Lists

variable {a b : Aapcs} {x y : PlacedArg}

/-- What is known of an argument that was placed before. -/
structure Covers (a : Aapcs) (x : PlacedArg) : Prop where
  words : ∀ r ∈ x.words, r < 4 ∧ r < a.ncrn ∨ 4 ≤ r ∧ r < 4 + a.nsaa
  sregs : ∀ i ∈ x.sregs, i < 16 ∧ a.sused.testBit i = true
  closed : (vfpClass x.type).1 ≠ 0 → ¬ x.inVfp → a.shut

theorem Extends.covers (h : Extends a x b) : Covers b x := by
  refine ⟨fun r hr => ?_, fun i hi => ⟨(h.sregs i hi).1, (h.sregs i hi).2.2⟩, h.closed⟩
  have := h.words r hr
  have := h.ncrn
  omega

theorem Covers.mono (hx : Covers a x) (h : Extends a y b) : Covers b x := by
  refine ⟨fun r hr => ?_, fun i hi => ?_, fun hk hin => (h.shut (hx.closed hk hin)).1⟩
  · have := hx.words r hr
    have := h.ncrn
    have := h.nsaa
    omega
  obtain ⟨hlt, hbit⟩ := hx.sregs i hi
  exact ⟨hlt, h.sused i hlt hbit⟩

theorem Covers.follows (hx : Covers a x) (h : Extends a y b) : Follows x y := by
  have hncrn := h.ncrn
  refine ⟨fun r hr hr' => ?_, fun i hi hi' => ?_, fun hk hin => (h.shut (hx.closed hk hin)).2,
    fun hlow hhigh r hr => ?_⟩
  · have := hx.words r hr
    have := h.words r hr'
    omega
  · have hset := (hx.sregs i hi).2
    rw [(h.sregs i hi').2.1] at hset
    simp at hset
  have := hx.words r hr
  have := h.split hlow hhigh
  omega

/-- The arguments of a list are placed one by one; they keep the rules among themselves and with all that were
    placed before, and lie between the words taken before and those taken in the end. -/
theorem placeArgs_follows (ts : List (Option CType)) : ∀ a : Aapcs, a.ncrn ≤ 4 →
    (placeArgs a ts).1.map PlacedArg.type = ts ∧ (placeArgs a ts).1.Pairwise Follows ∧
      (∀ y ∈ (placeArgs a ts).1, WellPlaced y ∧ Covers (placeArgs a ts).2 y ∧ ∀ r ∈ y.words, a.ncrn ≤ r) ∧
      ∀ x, Covers a x → Covers (placeArgs a ts).2 x ∧ ∀ y ∈ (placeArgs a ts).1, Follows x y := by
  induction ts with
  | nil => intro a _; simp [placeArgs]
  | cons t ts ih => ?_
  intro a h4
  have hext := aapcsPlace_extends h4 t
  obtain ⟨htypes, hpair, hwell, hold⟩ := ih (aapcsPlace a t).2 hext.ncrn.2
  simp only [placeArgs, map_cons, htypes, pairwise_cons, forall_mem_cons]
  refine ⟨trivial, ⟨(hold _ hext.covers).2, hpair⟩, ⟨⟨hext.placed, (hold _ hext.covers).1, fun r hr => ?_⟩,
    fun y hy => ?_⟩, fun x hx => ⟨(hold x (hx.mono hext)).1, hx.follows hext, (hold x (hx.mono hext)).2⟩⟩
  · have := hext.words r hr
    omega
  · obtain ⟨hplaced, hcovers, hle⟩ := hwell y hy
    exact ⟨hplaced, hcovers, fun r hr => le_trans hext.ncrn.1 (hle r hr)⟩

end Lists

/-- **Arguments are placed as the procedure call standard says**: each gets a place, behind the word of a
    result pointer and within the words counted; distinct ones share no core
    register, stack word or floating-point register, doubleword-aligned ones start at an even core
    register or stack word, no floating-point register is given after a floating-point argument went
    without, and an argument is split only while nothing is on the stack. -/
theorem aapcsLayout_standard (ty : List (Option CType)) (sret vfp : Bool) :
    (aapcsLayout ty sret.toNat vfp).1.map PlacedArg.type = ty ∧
      (aapcsLayout ty sret.toNat vfp).1.Pairwise Follows ∧
      ∀ x ∈ (aapcsLayout ty sret.toNat vfp).1, WellPlaced x ∧
        (∀ w ∈ x.words, sret.toNat ≤ w ∧ w < (aapcsLayout ty sret.toNat vfp).2) ∧ ∀ i ∈ x.sregs, i < 16 := by
  obtain ⟨htypes, hpair, hwell, -⟩ :=
    placeArgs_follows ty { ncrn := sret.toNat, vfp := vfp } (le_trans sret.toNat_le (by decide))
  refine ⟨htypes, hpair, fun x hx => ?_⟩
  obtain ⟨hplaced, hcovers, hle⟩ := hwell x hx
  refine ⟨hplaced, fun w hw => ⟨hle w hw, ?_⟩, fun i hi => (hcovers.sregs i hi).1⟩
  have hword := hcovers.words w hw
  show w < aapcsWords _
  unfold aapcsWords
  split <;> omega

/-- An `int`, a `float`, a `double`, a struct of three words and a `float` with a result pointer: the struct is
    split, and the last `float` goes back to `s1`. -/
example : (aapcsLayout [some (.int 4), some .float, some .double,
      some (.struct 12 [.mk (.array (.int 4) 3) false false 4]), some .float] 1 true).1.map
        (fun x => (x.words, x.sregs)) =
    [([1], []), ([], [0]), ([], [2, 3]), ([2, 3, 4], []), ([], [1])] := by decide +kernel

end Embedded.Toolchain
