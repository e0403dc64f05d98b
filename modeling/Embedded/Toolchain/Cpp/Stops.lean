import Embedded.Toolchain.Cpp.Lex

/-! # Where a token of the preprocessor stops

A token is whole if the lexer reads it back from in front of a space. What the lexer does at a text in
front of which a whole token stands depends on the first bytes of that text only, in a way that differs
with the kind of the token: a literal stops at its quote whatever follows, a number and a name stop in
front of what they cannot go on with, a punctuator stops where no longer one begins. -/

namespace Embedded.Toolchain.Cpp

open List

variable {a y v x d u r s p : List UInt8} {i : Nat} {w q : UInt8}

/-! ## Bytes of a text -/

theorem byteAt_append_left (h : i < a.length) :
    byteAt (a ++ y) i = byteAt a i := by simp [byteAt, getD_eq_getElem?_getD, getElem?_append_left h]

theorem byteAt_append_right (a y : List UInt8) (i : Nat) : byteAt (a ++ y) (a.length + i) = byteAt y i := by
  simp [byteAt, getD_eq_getElem?_getD, getElem?_append_right (Nat.le_add_right _ _)]

theorem byteAt_append_length (a y : List UInt8) : byteAt (a ++ y) a.length = byteAt y 0 :=
  byteAt_append_right a y 0

theorem byteAt_cons_zero (c : UInt8) (p : List UInt8) : byteAt (c :: p) 0 = c := rfl

theorem byteAt_cons_succ (c : UInt8) (p : List UInt8) (i : Nat) : byteAt (c :: p) (i + 1) = byteAt p i := rfl

variable {p : List UInt8}

/-- A byte that is not the terminator stands inside the text. -/
theorem lt_length_of_byteAt (h : byteAt p i ≠ 0) : i < p.length := by
  by_contra hge
  exact h (by simp [byteAt, getD_eq_getElem?_getD, getElem?_eq_none (Nat.not_lt.1 hge)])

theorem isPrefixOf_append {w : List UInt8} (h : w.length ≤ v.length) (x : List UInt8) :
    w.isPrefixOf (v ++ x) = w.isPrefixOf v := by
  rw [Bool.eq_iff_iff, isPrefixOf_iff_prefix, isPrefixOf_iff_prefix,
    prefix_iff_eq_take, prefix_iff_eq_take, take_append_of_le_length h]

/-- The two texts have the same bytes below `n`. -/
def Agree (n : Nat) (p p' : List UInt8) : Prop := ∀ i < n, byteAt p' i = byteAt p i

theorem agree_append {n : Nat} (h : n ≤ a.length) : Agree n (a ++ x) (a ++ y) := by
  intro i hi
  rw [byteAt_append_left (by omega), byteAt_append_left (by omega)]

/-! ## Loops that go on byte by byte -/

/-- How far a step goes depends on the bytes it takes only. -/
def Local (step : UInt8 → List UInt8 → Nat) : Prop :=
  ∀ prev p p', 0 < step prev p → Agree (step prev p) p p' → step prev p' = step prev p

theorem scanBy_length_le (step : UInt8 → List UInt8 → Nat) (fuel : Nat) (prev : UInt8) (p : List UInt8) :
    (scanBy step fuel prev p).length ≤ p.length := by
  induction fuel generalizing prev p with
  | zero => exact Nat.le.refl
  | succ fuel ih => ?_
  rw [scanBy]
  by_cases hk : step prev p = 0
  · simp [hk]
  rw [if_neg hk]
  exact Nat.le_trans (ih _ _) (by simp)

/-- A loop that runs through `u` and stops in front of `x` runs through `u` in front of any other text
as well. -/
theorem scanBy_append {step : UInt8 → List UInt8 → Nat} (hl : Local step) (hx : x ≠ []) :
    ∀ (fuel : Nat) (prev : UInt8) (u : List UInt8), (scanBy step fuel prev (u ++ x)).length = x.length →
      ∃ n ≤ u.length, ∃ last, ∀ m y, scanBy step (n + m) prev (u ++ y) = scanBy step m last y := by
  intro fuel
  induction fuel with
  | zero =>
    intro prev u h
    have hu : u = [] := by
      rw [scanBy, length_append] at h
      exact length_eq_zero_iff.1 (by omega)
    subst hu
    exact ⟨0, Nat.le.refl, prev, fun m y => by simp⟩
  | succ fuel ih => ?_
  intro prev u h
  by_cases hu : u = []
  · subst hu
    exact ⟨0, Nat.le.refl, prev, fun m y => by simp⟩
  have hpos : 0 < u.length := length_pos_iff.2 hu
  have hxpos : 0 < x.length := length_pos_iff.2 hx
  rw [scanBy] at h
  by_cases hk : step prev (u ++ x) = 0
  · rw [if_pos hk, length_append] at h
    omega
  rw [if_neg hk] at h
  -- a step that went beyond `u` would leave less than `x`
  have hle : step prev (u ++ x) ≤ u.length := by
    have := scanBy_length_le step fuel (byteAt (u ++ x) (step prev (u ++ x) - 1))
      ((u ++ x).drop (step prev (u ++ x)))
    rw [length_drop, length_append] at this
    omega
  rw [drop_append_of_le_length hle] at h
  obtain ⟨n, hn, last, hgo⟩ := ih _ _ h
  refine ⟨n + 1, ?_, last, fun m y => ?_⟩
  · rw [length_drop] at hn
    omega
  have hstep := hl prev _ (u ++ y) (by omega) (agree_append hle)
  rw [show n + 1 + m = (n + m) + 1 by omega, scanBy, hstep, if_neg hk,
    drop_append_of_le_length hle, ← hgo m y]
  congr 1
  rw [byteAt_append_left (by omega), byteAt_append_left (by omega)]

/-- In front of a text at which the loop can go on it does not stop. -/
theorem scanBy_stops {step : UInt8 → List UInt8 → Nat} {m : Nat} {last : UInt8} {y : List UInt8}
    (hy : y ≠ []) : (scanBy step (m + 1) last y).length = y.length ↔ step last y = 0 := by
  have hpos : 0 < y.length := length_pos_iff.2 hy
  rw [scanBy]
  by_cases hk : step last y = 0
  · simp [hk]
  have := scanBy_length_le step m (byteAt y (step last y - 1)) (y.drop (step last y))
  rw [length_drop] at this
  simp only [hk, if_false, iff_false]
  omega

/-! ## Steps over names and numbers -/

variable {p p' : List UInt8}

theorem ucnLen_congr (h0 : 0 < ucnLen p) (h : Agree (ucnLen p) p p') : ucnLen p' = ucnLen p := by
  unfold ucnLen at h0 h ⊢
  by_cases hc : byteAt p 0 = 92 ∧ (byteAt p 1 = 117 ∨ byteAt p 1 = 85)
  · simp only [hc, and_self, if_true] at h0 h ⊢
    generalize hn : (if byteAt p 1 = 117 then 4 else 8) = n at h0 h ⊢
    by_cases hx : ((range n).all fun k => isXdigit (byteAt p (2 + k))) = true
    · simp only [hx, if_true] at h ⊢
      have e0 := h 0 (by omega)
      have e1 := h 1 (by omega)
      have hx' : ((range n).all fun k => isXdigit (byteAt p' (2 + k))) = true := by
        rw [all_eq_true] at hx ⊢
        intro k hk
        rw [h (2 + k) (by have := mem_range.1 hk; omega)]
        exact hx k hk
      rw [e0, e1, if_pos hc, hn, if_pos hx']
    simp [hx] at h0
  simp [hc] at h0

variable {lx : Lang}

theorem identChar_congr (h0 : 0 < identChar lx p)
    (h : Agree (identChar lx p) p p') : identChar lx p' = identChar lx p := by
  have e0 := h 0 h0
  unfold identChar at h0 h ⊢
  rw [e0]
  by_cases hc : identByte lx (byteAt p 0) = true
  · simp [hc]
  simp only [hc, if_false, Bool.false_eq_true] at h0 h ⊢
  by_cases hx : lx.extid = true
  · simp only [hx, if_true] at h0 h ⊢
    exact ucnLen_congr h0 h
  simp [hx]

theorem identChar_local (lx : Lang) : Local fun _ => identChar lx := fun _ _ _ h0 h => identChar_congr h0 h

theorem numStep_local (lx : Lang) : Local (numStep lx) := by
  intro prev p p' h0 h
  have e0 := h 0 h0
  unfold numStep at h0 h ⊢
  rw [e0]
  by_cases h1 : (byteAt p 0 = 43 ∨ byteAt p 0 = 45) ∧ (prev = 101 ∨ prev = 69 ∨ prev = 112 ∨ prev = 80)
  · simp [h1]
  by_cases h2 : byteAt p 0 = 46
  · simp [h2]
  simp only [h1, h2, if_false] at h0 h ⊢
  exact identChar_congr h0 h

/-- What follows a token stops a name or a number if it is white space. -/
theorem identChar_white {w : UInt8} (hw : w = 32 ∨ w = 10) (r : List UInt8) : identChar lx (w :: r) = 0 := by
  rcases hw with rfl | rfl <;>
    cases hx : lx.extid <;>
      simp [identChar, identByte, isAlpha, isDigit, ucnLen, byteAt_cons_zero, hx]

theorem numStep_white (hw : w = 32 ∨ w = 10) (prev : UInt8) (r : List UInt8) :
    numStep lx prev (w :: r) = 0 := by
  have h := @identChar_white lx w hw r
  rcases hw with rfl | rfl <;> simp [numStep, byteAt_cons_zero, h]

/-! ## Literals -/

/-- A prefix ends at the quote, and stands of letters that names have as well. -/
theorem litPrefix_spec (h : (litPrefix lx p).1 ≠ 0) :
    (byteAt p (litPrefix lx p).1 = 34 ∨ byteAt p (litPrefix lx p).1 = 39) ∧
      ∀ j < (litPrefix lx p).1, identByte lx (byteAt p j) = true := by
  have hL : ∀ c : UInt8, c = 76 ∨ c = 117 ∨ c = 85 ∨ c = 56 ∨ c = 82 → identByte lx c = true := by
    rintro c (rfl | rfl | rfl | rfl | rfl) <;> simp [identByte, isAlpha, isDigit]
  simp only [litPrefix] at h ⊢
  grind

theorem litPrefix_congr (h : (litPrefix lx p).1 ≠ 0)
    (ha : Agree ((litPrefix lx p).1 + 1) p p') : litPrefix lx p' = litPrefix lx p := by
  have e1 := ha 1 (by omega)
  simp only [litPrefix] at h ha ⊢
  grind [Agree]

section

variable (h : (encPrefix lx p).1 ≠ 0)
include h

theorem encPrefix_eq : encPrefix lx p = litPrefix lx p := by
  unfold encPrefix at h ⊢
  split
  · rfl
  · next hc => simp [hc] at h

theorem encPrefix_spec : (byteAt p (encPrefix lx p).1 = 34 ∨ byteAt p (encPrefix lx p).1 = 39) ∧
      ∀ j < (encPrefix lx p).1, identByte lx (byteAt p j) = true := by
  have e := encPrefix_eq h
  rw [e] at h ⊢
  exact litPrefix_spec h

theorem encPrefix_congr
    (ha : Agree ((encPrefix lx p).1 + 1) p p') : encPrefix lx p' = encPrefix lx p := by
  have e := encPrefix_eq h
  have e0 := ha 0 (by omega)
  rw [e] at h ha ⊢
  rw [← litPrefix_congr h ha]
  unfold encPrefix at e ⊢
  rw [e0]
  split
  · rfl
  rename_i hc
  rw [if_neg hc] at e
  rw [← e] at h
  exact absurd rfl h

end

theorem litScan_quote (q : UInt8) (u : List UInt8) : litScan q (q :: u) = u := by
  cases u <;> simp [litScan, strScan]

theorem litScan_newline (hq : (10 : UInt8) ≠ q) (u : List UInt8) : litScan q (10 :: u) = 10 :: u := by
  cases u <;> simp [litScan, strScan, hq]

theorem litScan_escape {d : UInt8} (hq : (92 : UInt8) ≠ q) (hd : d ≠ 10) (u : List UInt8) :
    litScan q (92 :: d :: u) = litScan q u := by simp [litScan, strScan, hq, hd]

theorem litScan_other {c : UInt8} (hq : c ≠ q) (h10 : c ≠ 10)
    (hu : c = 92 → ∀ d v, u = d :: v → d = 10) : litScan q (c :: u) = litScan q u := by
  cases u with
  | nil => simp [litScan, strScan, hq, h10]
  | cons d v =>
    have : ¬ (c = 92 ∧ d ≠ 10) := fun h => h.2 (hu h.1 d v rfl)
    rw [litScan, strScan, if_neg (by simp [hq, h10]), if_neg this, litScan]

/-- A literal that ends in front of a space ends there in front of any text. -/
theorem litScan_append (hq : q = 34 ∨ q = 39) (y : List UInt8) :
    ∀ (n : Nat) (u : List UInt8), u.length ≤ n → (litScan q (u ++ [32])).length = 1 →
      litScan q (u ++ y) = y := by
  have hq32 : (32 : UInt8) ≠ q := by rcases hq with rfl | rfl <;> decide
  have hq10 : (10 : UInt8) ≠ q := by rcases hq with rfl | rfl <;> decide
  have hq92 : (92 : UInt8) ≠ q := by rcases hq with rfl | rfl <;> decide
  intro n
  induction n with
  | zero =>
    intro u hu h
    obtain rfl := length_eq_zero_iff.1 (Nat.le_zero.1 hu)
    simp [litScan, strScan, hq32] at h
  | succ n ih => ?_
  intro u hu h
  cases u with
  | nil => simp [litScan, strScan, hq32] at h
  | cons c v => ?_
  simp only [length_cons, cons_append] at hu h ⊢
  by_cases hc : c = q
  · subst hc
    rw [litScan_quote] at h
    obtain rfl : v = [] := length_eq_zero_iff.1 (by simpa using h)
    exact litScan_quote c y
  by_cases h10 : c = 10
  · subst h10
    rw [litScan_newline hq10] at h
    simp at h
  by_cases h92 : c = 92
  · subst h92
    cases v with
    | nil =>
      rw [nil_append, litScan_escape hq92 (by decide)] at h
      simp [litScan, strScan] at h
    | cons d v => ?_
    simp only [length_cons, cons_append] at hu h ⊢
    by_cases hd : d = 10
    · have hu' : ∀ z : List UInt8, (92 : UInt8) = 92 → ∀ e w, d :: z = e :: w → e = 10 := by
        intro z _ e w he
        rw [← (cons.inj he).1, hd]
      rw [litScan_other hq92 (by decide) (hu' _)] at h ⊢
      exact ih (d :: v) (by simp; omega) h
    rw [litScan_escape hq92 hd] at h ⊢
    exact ih v (by omega) h
  rw [litScan_other hc h10 fun h => absurd h h92] at h ⊢
  exact ih v (by omega) h

theorem litScan_length_le (q : UInt8) (p : List UInt8) : (litScan q p).length ≤ p.length := by
  have hstr : (strScan q p).length ≤ p.length := by
    induction p using strScan.induct q with
    | case1 => simp [strScan]
    | case2 c h | case3 c h | case4 c d rest h => simp [strScan, h]
    | case5 c d rest h h' ih =>
      rw [strScan, if_neg h, if_pos h']
      simp only [length_cons]
      omega
    | case6 c d rest h h' ih =>
      rw [strScan, if_neg h, if_neg h']
      simp only [length_cons] at ih ⊢
      omega
  unfold litScan
  split
  · next c rest heq =>
    rw [heq, length_cons] at hstr
    split <;> simp <;> omega
  simp

theorem rawClose_length_le (d p : List UInt8) : (rawClose d p).length ≤ p.length := by
  induction p with
  | nil => simp [rawClose]
  | cons c rest ih =>
    rw [rawClose]
    split <;> simp <;> omega

theorem rawScan_length_le (h : rawScan u = some r) : r.length ≤ u.length := by
  unfold rawScan at h
  split at h
  · simp at h
  cases h
  exact Nat.le_trans (rawClose_length_le _ _) (by simp)

/-- The end of a raw string takes a parenthesis, the delimiter and a quote. -/
theorem rawClose_end : ∀ {v : List UInt8}, (rawClose d (v ++ [32])).length = 1 →
    d.length + 2 ≤ v.length := by
  intro v
  induction v with
  | nil => simp [rawClose]
  | cons c v ih => ?_
  intro h
  rw [cons_append, rawClose] at h
  split at h
  · next hc =>
    rw [length_drop, length_append] at h
    simp only [length_cons, length_nil] at h ⊢
    omega
  have := ih h
  simp only [length_cons]
  omega

theorem rawClose_append (y : List UInt8) : ∀ {v : List UInt8},
    (rawClose d (v ++ [32])).length = 1 → rawClose d (v ++ y) = y := by
  intro v
  induction v with
  | nil => simp [rawClose]
  | cons c v ih => ?_
  intro h
  have hend := rawClose_end h
  simp only [length_cons] at hend
  -- the delimiter lies inside the string, so it is found there in front of any text
  have hsame : (d ++ [34]).isPrefixOf (v ++ y) = (d ++ [34]).isPrefixOf (v ++ [32]) := by
    have hle : (d ++ [34]).length ≤ v.length := by simp; omega
    rw [isPrefixOf_append hle, isPrefixOf_append hle]
  rw [cons_append, rawClose] at h ⊢
  rw [hsame]
  split at h
  · next hc =>
    rw [if_pos hc]
    rw [length_drop, length_append] at h
    simp only [length_cons, length_nil] at h
    exact drop_left' (by omega)
  next hc =>
  rw [if_neg hc]
  exact ih h

theorem delimLen_append (h : delimLen (u ++ x) < u.length)
    (y : List UInt8) : delimLen (u ++ y) = delimLen (u ++ x) := by
  unfold delimLen at h ⊢
  rw [takeWhile_append] at h ⊢
  rw [takeWhile_append]
  split
  · next hw =>
    rw [if_pos hw] at h
    simp only [length_append] at h ⊢
    omega
  rfl

/-- A raw string that ends in front of a space ends there in front of any text. -/
theorem rawScan_append (h : rawScan (u ++ [32]) = some r) (hr : r.length = 1)
    (y : List UInt8) : rawScan (u ++ y) = some y := by
  unfold rawScan at h
  by_cases hlen : (u ++ [32]).length ≤ delimLen (u ++ [32])
  · rw [if_pos hlen] at h
    simp at h
  rw [if_neg hlen] at h
  cases h
  -- the parenthesis lies inside the string, or nothing would be left behind it
  have hin : delimLen (u ++ [32]) + 1 ≤ u.length := by
    by_contra hge
    rw [drop_eq_nil_of_le (by rw [length_append, length_singleton]; omega)] at hr
    simp [rawClose] at hr
  have hd := delimLen_append (Nat.lt_of_succ_le hin) y
  rw [drop_append_of_le_length hin, take_append_of_le_length (by omega)] at hr
  unfold rawScan
  rw [hd, if_neg (by rw [length_append]; omega), drop_append_of_le_length hin,
    take_append_of_le_length (by omega), rawClose_append y hr]

/-! ## The length of a token, by its kind -/

section Length

variable {lx : Lang} {p : List UInt8}

theorem lexLen_raw (hk : (encPrefix lx p).1 ≠ 0) (hr : (encPrefix lx p).2 = true) :
    (lexLen lx p).1 = match rawScan (p.drop ((encPrefix lx p).1 + 1)) with
      | some rest => p.length - rest.length
      | none => p.length + 1 := by
  unfold lexLen
  simp only [hk, hr, ne_eq, not_false_eq_true, and_self, if_true]
  cases rawScan (p.drop ((encPrefix lx p).1 + 1)) <;> rfl

theorem lexLen_lit (hr : ¬ ((encPrefix lx p).1 ≠ 0 ∧ (encPrefix lx p).2 = true))
    (hk : (encPrefix lx p).1 ≠ 0 ∨ byteAt p 0 = 34 ∨ byteAt p 0 = 39) :
    (lexLen lx p).1 = p.length -
      (litScan (byteAt p (encPrefix lx p).1) (p.drop ((encPrefix lx p).1 + 1))).length := by
  unfold lexLen
  simp only [hr, hk, if_false, if_true]

/-- There is no literal at `p`. -/
def NoLit (lx : Lang) (p : List UInt8) : Prop :=
  (encPrefix lx p).1 = 0 ∧ byteAt p 0 ≠ 34 ∧ byteAt p 0 ≠ 39

/-- A number starts at `p`. -/
def NumStart (p : List UInt8) : Prop :=
  isDigit (byteAt p 0) = true ∨ byteAt p 0 = 46 ∧ isDigit (byteAt p 1) = true

theorem lexLen_num (hl : NoLit lx p) (hn : NumStart p) :
    (lexLen lx p).1 = p.length - (scanBy (numStep lx) p.length (byteAt p 0) (p.drop 1)).length := by
  unfold NumStart at hn
  unfold lexLen
  simp [hl.1, hl.2.1, hl.2.2, hn]

theorem lexLen_ident (hl : NoLit lx p) (hn : ¬ NumStart p) (hi : identStart lx p = true) :
    (lexLen lx p).1 = if p.length - (scanBy (fun _ => identChar lx) p.length 0 p).length = 0 then 1
      else p.length - (scanBy (fun _ => identChar lx) p.length 0 p).length := by
  unfold NumStart at hn
  unfold lexLen
  simp [hl.1, hl.2.1, hl.2.2, hn, hi]

theorem lexLen_punct (hl : NoLit lx p) (hn : ¬ NumStart p) (hi : ¬ identStart lx p = true) : (lexLen lx p).1 =
      if 128 ≤ byteAt p 0 then punctLen lx p + ((p.drop (punctLen lx p)).takeWhile isCont).length
      else punctLen lx p := by
  unfold NumStart at hn
  unfold lexLen
  simp [hl.1, hl.2.1, hl.2.2, hn, hi]

end Length

/-! ## Whole tokens -/

/-- The lexer reads `a` back from in front of a space. -/
def Whole (lx : Lang) (a : List UInt8) : Prop := (lexLen lx (a ++ [32])).1 = a.length

/-- The lexer reads `a` back from in front of `y`. -/
def Stops (lx : Lang) (a y : List UInt8) : Prop := (lexLen lx (a ++ y)).1 = a.length

section Kinds

variable {lx : Lang} {a : List UInt8}

theorem encPrefix_of_quote (h : byteAt p 0 = 34 ∨ byteAt p 0 = 39) : encPrefix lx p = (0, false) := by
  unfold encPrefix
  rcases h with h | h <;> simp [h]

theorem stops_literal (h : Whole lx a) (hl : ¬ NoLit lx (a ++ [32])) (y : List UInt8) : Stops lx a y := by
  have hspec := @encPrefix_spec (a ++ [32]) lx
  have hzero := @encPrefix_of_quote (a ++ [32]) lx
  have hcongr := @encPrefix_congr (a ++ [32]) (a ++ y) lx
  have hraw := @lexLen_raw lx (a ++ [32])
  have hlit := @lexLen_lit lx (a ++ [32])
  unfold NoLit at hl
  unfold Whole at h
  unfold Stops
  generalize encPrefix lx (a ++ [32]) = e at *
  have hk : e.1 ≠ 0 ∨ byteAt (a ++ [32]) 0 = 34 ∨ byteAt (a ++ [32]) 0 = 39 := by
    by_contra hq
    rw [not_or, not_or, not_ne_iff] at hq
    exact hl hq
  -- the opening quote lies inside the token
  have hquote : byteAt (a ++ [32]) e.1 = 34 ∨ byteAt (a ++ [32]) e.1 = 39 := by
    rcases hk with hk | hk
    · exact (hspec hk).1
    rw [hzero hk]
    exact hk
  have hin : e.1 + 1 ≤ a.length := by
    have hlt : e.1 < (a ++ [32]).length :=
      lt_length_of_byteAt (by rcases hquote with h | h <;> rw [h] <;> decide)
    rw [length_append, length_singleton] at hlt
    have hne : e.1 ≠ a.length := by
      intro he
      rw [he, byteAt_append_length, byteAt_cons_zero] at hquote
      revert hquote
      decide
    omega
  have hpos : 0 < a.length := by omega
  have hagree : Agree (e.1 + 1) (a ++ [32]) (a ++ y) := agree_append hin
  have hsame : encPrefix lx (a ++ y) = e := by
    by_cases h0 : e.1 = 0
    · have hq := hk.resolve_left (absurd h0)
      rw [hzero hq, encPrefix_of_quote (by rw [hagree 0 (by omega)]; exact hq)]
    exact hcongr h0 hagree
  have hbyte := hagree e.1 (by omega)
  have hk' : e.1 ≠ 0 ∨ byteAt (a ++ y) 0 = 34 ∨ byteAt (a ++ y) 0 = 39 := by
    rw [hagree 0 (by omega)]
    exact hk
  by_cases hr : e.1 ≠ 0 ∧ e.2 = true
  · rw [hraw hr.1 hr.2] at h
    rw [lexLen_raw (by rw [hsame]; exact hr.1) (by rw [hsame]; exact hr.2), hsame]
    generalize e.1 + 1 = k at *
    rw [drop_append_of_le_length hin] at h ⊢
    cases hs : rawScan (a.drop k ++ [32]) with
    | none =>
      rw [hs] at h
      simp only [length_append, length_singleton] at h
      omega
    | some rest => ?_
    rw [hs] at h
    simp only [length_append, length_singleton] at h
    rw [rawScan_append hs (by omega) y]
    simp
  rw [hlit hr hk] at h
  rw [lexLen_lit (by rw [hsame]; exact hr) (by rw [hsame]; exact hk'), hsame, hbyte]
  generalize e.1 = k at *
  rw [drop_append_of_le_length hin] at h ⊢
  have hle := litScan_length_le (byteAt (a ++ [32]) k) (a.drop (k + 1) ++ [32])
  simp only [length_append, length_singleton] at h hle
  rw [litScan_append hquote y _ _ Nat.le.refl (by omega)]
  simp

theorem encPrefix_lt_lexLen (hk : (encPrefix lx p).1 ≠ 0) : (encPrefix lx p).1 < (lexLen lx p).1 := by
  have hlt : (encPrefix lx p).1 < p.length :=
    lt_length_of_byteAt (by rcases (encPrefix_spec hk).1 with h | h <;> rw [h] <;> decide)
  by_cases hr : (encPrefix lx p).2 = true
  · rw [lexLen_raw hk hr]
    cases hs : rawScan (p.drop ((encPrefix lx p).1 + 1)) with
    | none => exact Nat.lt_succ_of_lt hlt
    | some rest => ?_
    have hrest := rawScan_length_le hs
    rw [length_drop] at hrest
    exact Nat.lt_sub_of_add_lt (by omega)
  rw [lexLen_lit (fun h => hr h.2) (.inl hk)]
  have := litScan_length_le (byteAt p (encPrefix lx p).1) (p.drop ((encPrefix lx p).1 + 1))
  rw [length_drop] at this
  omega

theorem stops_number (h : Whole lx a) (hl : NoLit lx (a ++ [32])) (hn : NumStart (a ++ [32])) :
    ∃ last, ∀ y, y ≠ [] → (Stops lx a y ↔ numStep lx last y = 0) := by
  unfold Whole at h
  rw [lexLen_num hl hn] at h
  cases a with
  | nil => exact absurd hn (by unfold NumStart; decide)
  | cons c u => ?_
  simp only [cons_append, byteAt_cons_zero, drop_succ_cons, drop_zero,
    length_cons, length_append, length_nil] at h
  obtain ⟨n, hle, last, hgo⟩ := scanBy_append (numStep_local lx) (x := [32]) (by simp)
    (u.length + (0 + 1) + 1) c u (by
      have := scanBy_length_le (numStep lx) (u.length + (0 + 1) + 1) c (u ++ [32])
      simp only [length_append, length_singleton] at this ⊢
      omega)
  refine ⟨last, fun y hy => ?_⟩
  have hc : isDigit c = true ∨ c = 46 := hn.imp id And.left
  have hnum : NumStart (c :: u ++ y) := by
    refine hn.imp id fun hd => ⟨hd.1, ?_⟩
    cases u with
    | nil => exact absurd (show isDigit 32 = true from hd.2) (by decide)
    | cons d v => exact hd.2
  have hlit : NoLit lx (c :: u ++ y) := by
    refine ⟨?_, hl.2⟩
    have : ¬ (c = 76 ∨ c = 117 ∨ c = 85 ∨ c = 82) := by
      rintro (rfl | rfl | rfl | rfl) <;> revert hc <;> decide
    rw [encPrefix, cons_append, byteAt_cons_zero, if_neg this]
  unfold Stops
  rw [lexLen_num hlit hnum, ← scanBy_stops (m := u.length + y.length - n) hy, ← hgo,
    cons_append, byteAt_cons_zero, drop_succ_cons, drop_zero,
    show (c :: (u ++ y)).length = n + (u.length + y.length - n + 1) by
      simp only [length_cons, length_append]; omega]
  simp only [length_cons]
  omega

theorem byteAt_zero_append (ha : a ≠ []) : byteAt (a ++ y) 0 = byteAt a 0 :=
  byteAt_append_left (length_pos_iff.2 ha)

/-- Names start in the same way in front of any text: the second byte matters behind a backslash only. -/
theorem identStart_append (ha : a ≠ []) (hi : identStart lx (a ++ [32]) = true) :
    identStart lx (a ++ y) = true := by
  unfold identStart at hi ⊢
  rw [byteAt_zero_append ha] at hi ⊢
  by_cases h1 : 1 < a.length
  · rw [byteAt_append_left h1] at hi ⊢
    exact hi
  have hlen : a.length = 1 := by
    have := length_pos_iff.2 ha
    omega
  have e1 : byteAt (a ++ [32]) 1 = 32 := hlen ▸ byteAt_append_length a [32]
  rw [e1] at hi
  simp only [Bool.or_eq_true, Bool.and_eq_true, decide_eq_true_eq] at hi ⊢
  tauto

/-- A single byte that starts a name in front of a space is a character of it. -/
theorem identChar_start (hlen : a.length = 1) (hi : identStart lx (a ++ [32]) = true) :
    identChar lx (a ++ [32]) ≠ 0 := by
  have e1 : byteAt (a ++ [32]) 1 = 32 := hlen ▸ byteAt_append_length a [32]
  have hb : identByte lx (byteAt (a ++ [32]) 0) = true := by
    unfold identStart at hi
    rw [e1] at hi
    unfold identByte
    simp only [Bool.or_eq_true, Bool.and_eq_true, decide_eq_true_eq] at hi ⊢
    tauto
  simp [identChar, hb]

/-- A name goes through `identChar` up to its end. -/
theorem stops_name (h : Whole lx a) (hl : NoLit lx (a ++ [32])) (hn : ¬ NumStart (a ++ [32]))
    (hi : identStart lx (a ++ [32]) = true) (hy : y ≠ []) :
    Stops lx a y ↔ (encPrefix lx (a ++ y)).1 = 0 ∧ identChar lx y = 0 := by
  have ha : a ≠ [] := by
    rintro rfl
    cases hx : lx.extid <;> simp [identStart, isAlpha, byteAt, hx] at hi
  have hapos : 0 < a.length := length_pos_iff.2 ha
  have hypos : 0 < y.length := length_pos_iff.2 hy
  by_cases he : (encPrefix lx (a ++ y)).1 = 0
  · have hlit : NoLit lx (a ++ y) := by
      refine ⟨he, ?_⟩
      have := hl.2
      rw [byteAt_zero_append ha] at this ⊢
      exact this
    have hnum : ¬ NumStart (a ++ y) := by
      unfold NumStart at hn ⊢
      rw [byteAt_zero_append ha] at hn ⊢
      rintro (hd | hd)
      · exact hn (.inl hd)
      unfold identStart at hi
      rw [byteAt_zero_append ha, hd.1] at hi
      simp [isAlpha] at hi
    unfold Whole at h
    rw [lexLen_ident hl hn hi] at h
    have hscan : (scanBy (fun _ => identChar lx) (a ++ [32]).length 0 (a ++ [32])).length = 1 := by
      have hle := scanBy_length_le (fun _ => identChar lx) (a ++ [32]).length 0 (a ++ [32])
      have hlen : (a ++ [32]).length = a.length + 1 := by simp
      rw [hlen] at h hle ⊢
      split at h
      · have hst := (@scanBy_stops (fun _ => identChar lx) a.length 0 (a ++ [32]) (by simp)).1 (by omega)
        exact absurd hst (identChar_start h.symm hi)
      omega
    obtain ⟨n, hle, last, hgo⟩ := scanBy_append (identChar_local lx) (by simp) _ 0 a hscan
    have hb : (scanBy (fun _ => identChar lx) (a ++ y).length 0 (a ++ y)).length =
        (scanBy (fun _ => identChar lx) (a.length + y.length - n - 1 + 1) last y).length := by
      rw [← hgo, length_append]
      congr 2
      omega
    have hle' := scanBy_length_le (fun _ => identChar lx) (a.length + y.length - n - 1 + 1) last y
    unfold Stops
    rw [lexLen_ident hlit hnum (identStart_append ha hi), hb, length_append,
      if_neg (by omega), and_iff_right he,
      ← @scanBy_stops (fun _ => identChar lx) (a.length + y.length - n - 1) last y hy]
    omega
  -- the quote lies behind the name, or the name were a literal itself
  have hlt := encPrefix_lt_lexLen he
  have hge : a.length ≤ (encPrefix lx (a ++ y)).1 := by
    by_contra hin
    have := encPrefix_congr he (agree_append (y := [32]) (by omega))
    rw [← this] at he
    exact he hl.1
  unfold Stops
  constructor
  · intro hs
    omega
  intro hs
  exact absurd hs.1 he

end Kinds

/-! ## Punctuators -/

theorem find?_congr_mem {α : Type} {f g : α → Bool} {l : List α} (h : ∀ x ∈ l, f x = g x) :
    l.find? f = l.find? g := by
  induction l with
  | nil => rfl
  | cons x l ih =>
    rw [find?_cons, find?_cons, h x mem_cons_self, ih (forall_mem_cons.1 h).2]

theorem byteAt_of_isPrefixOf (h : s.isPrefixOf p = true)
    (hi : i < s.length) : byteAt p i = byteAt s i := by
  obtain ⟨t, rfl⟩ := isPrefixOf_iff_prefix.1 h
  exact byteAt_append_left hi

theorem PUNCT_spec : ∀ s ∈ PUNCT, 2 ≤ s.length ∧ byteAt s 0 ≠ 92 ∧ byteAt s 0 < 128 ∧
    ∀ i < s.length, byteAt s i ≠ 32 ∧ byteAt s i ≠ 10 := by decide

section Punct

variable {lx : Lang}

theorem punctLen_ge (hs : s ∈ PUNCT) (hp : s.isPrefixOf p = true)
    (hd : (lx.digraphs || !isDigraph s) = true) : 2 ≤ punctLen lx p := by
  unfold punctLen
  split
  · next t ht => exact (PUNCT_spec t (mem_of_find?_eq_some ht)).1
  rename_i hn
  have := find?_eq_none.1 hn s hs
  simp [hp, hd] at this

theorem punctLen_pos (p : List UInt8) : 0 < punctLen lx p := by
  unfold punctLen
  split
  · next t ht => exact Nat.lt_of_lt_of_le (by decide) (PUNCT_spec t (mem_of_find?_eq_some ht)).1
  · exact Nat.one_pos

theorem lexLen_pos (hp : p ≠ []) : 0 < (lexLen lx p).1 := by
  have hlen : 0 < p.length := length_pos_iff.2 hp
  by_cases hk : (encPrefix lx p).1 = 0
  case neg => exact Nat.lt_of_le_of_lt (Nat.zero_le _) (encPrefix_lt_lexLen hk)
  by_cases hq : byteAt p 0 = 34 ∨ byteAt p 0 = 39
  · rw [lexLen_lit (fun h => h.1 hk) (.inr hq), hk]
    have := litScan_length_le (byteAt p 0) (p.drop (0 + 1))
    rw [length_drop] at this
    omega
  have hl : NoLit lx p := ⟨hk, fun h => hq (.inl h), fun h => hq (.inr h)⟩
  by_cases hn : NumStart p
  · rw [lexLen_num hl hn]
    have := scanBy_length_le (numStep lx) p.length (byteAt p 0) (p.drop 1)
    rw [length_drop] at this
    omega
  by_cases hi : identStart lx p = true
  · rw [lexLen_ident hl hn hi]
    split <;> omega
  rw [lexLen_punct hl hn hi]
  have := @punctLen_pos lx p
  split <;> omega

/-- No punctuator of the table starts with a backslash or a byte from 0x80 on. -/
theorem punctLen_one (h : byteAt p 0 = 92 ∨ 128 ≤ byteAt p 0) : punctLen lx p = 1 := by
  have hnone : (PUNCT.find? fun s => s.isPrefixOf p && (lx.digraphs || !isDigraph s)) = none := by
    rw [find?_eq_none]
    intro s hs hm
    obtain ⟨hlen, h92, h128, -⟩ := PUNCT_spec s hs
    rw [Bool.and_eq_true] at hm
    rw [byteAt_of_isPrefixOf hm.1 (by omega)] at h
    rcases h with h | h
    · exact h92 h
    exact absurd h (UInt8.not_le.2 h128)
  rw [punctLen, hnone]

/-- The punctuator does not depend on what stands behind, if no longer one reaches into it. -/
theorem punctLen_of_short (h : ∀ s ∈ PUNCT, v.length < s.length →
    (s.isPrefixOf (v ++ x) && (lx.digraphs || !isDigraph s)) = false) :
    punctLen lx (v ++ x) = punctLen lx v := by
  have hfind : (PUNCT.find? fun s => s.isPrefixOf (v ++ x) && (lx.digraphs || !isDigraph s)) =
      PUNCT.find? fun s => s.isPrefixOf v && (lx.digraphs || !isDigraph s) := by
    apply find?_congr_mem
    intro s hs
    by_cases hle : s.length ≤ v.length
    · rw [isPrefixOf_append hle]
    have hv : s.isPrefixOf v = false := by
      by_contra hp
      exact hle ( isPrefixOf_iff_prefix.1 (Bool.not_eq_false _ ▸ hp)).length_le
    rw [h s hs (Nat.not_le.1 hle), hv, Bool.false_and]
  rw [punctLen, hfind, punctLen]

theorem punctLen_white (hw : w = 32 ∨ w = 10) (a r : List UInt8) :
    punctLen lx (a ++ w :: r) = punctLen lx a := by
  refine punctLen_of_short fun s hs hlt => ?_
  have hno : s.isPrefixOf (a ++ w :: r) = false := by
    by_contra hp
    have := byteAt_of_isPrefixOf (Bool.not_eq_false _ ▸ hp) hlt
    rw [byteAt_append_length, byteAt_cons_zero] at this
    have hne := (PUNCT_spec s hs).2.2.2 a.length hlt
    rw [← this] at hne
    rcases hw with rfl | rfl
    · exact hne.1 rfl
    exact hne.2 rfl
  rw [hno, Bool.false_and]

/-- **The one run of punctuators the pairwise test misses.** If the punctuator in front of `a ++ b` is `a`,
and `b` reads back in front of `r`, then the punctuator in front of all three is `a`, but for three dots. -/
theorem punctLen_append {b : List UInt8} (ha : a ≠ []) (hb : b ≠ []) (h : punctLen lx (a ++ b) = a.length)
    (hbr : b = [37] → punctLen lx (b ++ r) = 1) (hdots : ¬ (a = [46] ∧ b = [46] ∧ byteAt r 0 = 46)) :
    punctLen lx (a ++ (b ++ r)) = a.length := by
  have hapos : 0 < a.length := length_pos_iff.2 ha
  have hbpos : 0 < b.length := length_pos_iff.2 hb
  rw [← append_assoc, ← h]
  by_cases hlong : ∃ s ∈ PUNCT, (a ++ b).length < s.length ∧ s.isPrefixOf (a ++ b ++ r) = true ∧
      (lx.digraphs || !isDigraph s) = true
  · exfalso
    obtain ⟨s, hs, hlen, hp, hd⟩ := hlong
    have hx : a ++ b = s.take (a ++ b).length := by
      obtain ⟨t, ht⟩ := isPrefixOf_iff_prefix.1 hp
      have htake : (s ++ t).take (a ++ b).length = s.take (a ++ b).length :=
        take_append_of_le_length (by omega)
      rw [← htake, ht, take_left]
    have hr : byteAt r 0 = byteAt s (a ++ b).length := by
      rw [← byteAt_of_isPrefixOf hp hlen, byteAt_append_length]
    rw [length_append] at hlen hx hr
    -- only the punctuators of three bytes and more are longer than `a` and `b`
    have hfour : s = [37, 58, 37, 58] ∨ s = [60, 60, 61] ∨ s = [62, 62, 61] ∨ s = [46, 46, 46] :=
      (show ∀ s ∈ PUNCT, 3 ≤ s.length → s = [37, 58, 37, 58] ∨ s = [60, 60, 61] ∨ s = [62, 62, 61] ∨
        s = [46, 46, 46] by decide) s hs (by omega)
    -- two bytes that are a punctuator would have been read instead of `a`
    have htwo : ∀ t ∈ PUNCT, (lx.digraphs || !isDigraph t) = true → t.isPrefixOf (a ++ b) = true →
        2 ≤ a.length := fun t ht hd hp => h ▸ punctLen_ge ht hp hd
    rcases hfour with rfl | rfl | rfl | rfl
    · have hdi : lx.digraphs = true := by simpa [isDigraph] using hd
      have hge := htwo [37, 58] (by decide) (by simp [hdi]) (by
        rw [hx, show a.length + b.length = (a.length + b.length - 2) + 2 by omega]
        simp)
      simp only [length_cons, length_nil] at hlen
      have ha2 : a.length = 2 := by omega
      have hb1 : b.length = 1 := by omega
      rw [ha2, hb1] at hx hr
      have hb37 : b = [37] := (append_inj (show a ++ b = [37, 58] ++ [37] from hx) ha2).2
      have h1 := hbr hb37
      have hp2 : isPrefixOf [37, 58] (b ++ r) = true := by
        cases r with
        | nil => simp [byteAt] at hr
        | cons c r =>
          obtain rfl : c = 58 := hr
          simp [hb37]
      have h2 : 2 ≤ punctLen lx (b ++ r) := punctLen_ge (by decide) hp2 (by simp [hdi])
      omega
    · simp only [length_cons, length_nil] at hlen
      rw [show a.length + b.length = 2 by omega] at hx
      have := htwo [60, 60] (by decide) (by simp [isDigraph]) (by rw [hx]; decide)
      omega
    · simp only [length_cons, length_nil] at hlen
      rw [show a.length + b.length = 2 by omega] at hx
      have := htwo [62, 62] (by decide) (by simp [isDigraph]) (by rw [hx]; decide)
      omega
    simp only [length_cons, length_nil] at hlen
    rw [show a.length + b.length = 2 by omega] at hx hr
    obtain ⟨ha46, hb46⟩ := append_inj (show a ++ b = [46] ++ [46] from hx) (by simp; omega)
    exact hdots ⟨ha46, hb46, hr⟩
  refine punctLen_of_short fun s hs hlt => ?_
  by_contra hp
  rw [Bool.not_eq_false, Bool.and_eq_true] at hp
  exact hlong ⟨s, hs, hlt, hp.1, hp.2⟩

end Punct

end Embedded.Toolchain.Cpp
