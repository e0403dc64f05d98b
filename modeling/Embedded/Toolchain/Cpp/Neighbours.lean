import Embedded.Toolchain.Cpp.Stops

/-! # Neighbouring tokens of the preprocessor

A whole token stops in front of white space. If it stops in front of another token, and that one stops in
front of what follows, then it stops in front of both, with one exception: a dot in front of a dot does not
see the third one. -/

namespace Embedded.Toolchain.Cpp

open List

variable {p : List UInt8} {c w : UInt8}

section

variable {lx : Lang} {a b r : List UInt8}

theorem Whole.ne_nil (h : Whole lx a) : a ≠ [] := by
  rintro rfl
  unfold Whole at h
  rw [nil_append, lexLen_punct] at h
  · have hw : punctLen lx [32] = 1 := punctLen_white (.inl rfl) [] []
    simp [hw, byteAt] at h
  · simp [NoLit, encPrefix, byteAt]
  · simp [NumStart, isDigit, byteAt]
  simp [identStart, isAlpha, byteAt]

/-! ## Names and numbers -/

/-- A character of a name that is longer than a byte is a universal character name. -/
theorem identChar_ucn (h : 2 ≤ identChar lx p) :
    lx.extid = true ∧ byteAt p 0 = 92 ∧ (byteAt p 1 = 117 ∨ byteAt p 1 = 85) ∧ 6 ≤ identChar lx p ∧
      ∀ i, 2 ≤ i → i < identChar lx p → isXdigit (byteAt p i) = true := by
  unfold identChar at h ⊢
  by_cases hc : identByte lx (byteAt p 0) = true
  · simp [hc] at h
  by_cases hx : lx.extid = true
  · simp only [hc, hx, if_true, if_false, Bool.false_eq_true] at h ⊢
    unfold ucnLen at h ⊢
    by_cases hu : byteAt p 0 = 92 ∧ (byteAt p 1 = 117 ∨ byteAt p 1 = 85)
    · rw [if_pos hu] at h ⊢
      have hn : 4 ≤ (if byteAt p 1 = 117 then 4 else 8) := by split <;> omega
      generalize (if byteAt p 1 = 117 then 4 else 8) = n at h hn ⊢
      simp only at h ⊢
      split at h
      · next hall =>
        rw [if_pos hall]
        refine ⟨trivial, hu.1, hu.2, by omega, fun i h2 hi => ?_⟩
        have := all_eq_true.1 hall (i - 2) (mem_range.2 (by omega))
        rwa [show 2 + (i - 2) = i by omega] at this
      omega
    simp [hu] at h
  simp [hc, hx] at h

theorem ne_zero_of_isXdigit (h : isXdigit c = true) : c ≠ 0 := by
  rintro rfl
  revert h
  decide

theorem identByte_of_isXdigit (h : isXdigit c = true) : identByte lx c = true := by
  simp only [isXdigit, Bool.or_eq_true, Bool.and_eq_true, decide_eq_true_eq] at h
  simp only [identByte, isAlpha, Bool.or_eq_true, Bool.and_eq_true, decide_eq_true_eq]
  rcases h with (h | h) | h
  · exact .inl (.inl (.inl (.inr h)))
  · have : c ≤ 90 := UInt8.le_trans h.2 (by decide)
    tauto
  have : c ≤ 122 := UInt8.le_trans h.2 (by decide)
  tauto

/-- The token at a universal character name takes it. -/
theorem identChar_le_lexLen (h : 2 ≤ identChar lx p) : identChar lx p ≤ (lexLen lx p).1 := by
  obtain ⟨hx, h0, h1, hk, hdig⟩ := identChar_ucn h
  have hlt : identChar lx p - 1 < p.length :=
    lt_length_of_byteAt (ne_zero_of_isXdigit (hdig _ (by omega) (by omega)))
  have hlit : NoLit lx p := by simp [NoLit, encPrefix, h0]
  have hnum : ¬ NumStart p := by simp [NumStart, isDigit, h0]
  have hid : identStart lx p = true := by
    rcases h1 with h1 | h1 <;> simp [identStart, h0, h1, hx]
  have hscan : (scanBy (fun _ => identChar lx) p.length 0 p).length ≤ p.length - identChar lx p := by
    rw [show p.length = p.length - 1 + 1 by omega, scanBy, if_neg (by omega)]
    refine Nat.le_trans (scanBy_length_le _ _ _ _) ?_
    rw [length_drop]
    omega
  rw [lexLen_ident hlit hnum hid, if_neg (by omega)]
  omega

/-- A text at which no name goes on does not become one at which it does when the token in front of it
stops there. -/
theorem identChar_append (hb : b ≠ []) (hs : Stops lx b r) (h : identChar lx b = 0) :
    identChar lx (b ++ r) = 0 := by
  by_contra hne
  have hbpos : 0 < b.length := length_pos_iff.2 hb
  have hpos : 0 < identChar lx (b ++ r) := Nat.pos_of_ne_zero hne
  by_cases hle : identChar lx (b ++ r) ≤ b.length
  · have hagree : Agree (identChar lx (b ++ r)) (b ++ r) b := by
      intro i hi
      exact (byteAt_append_left (by omega)).symm
    exact hne ((identChar_congr hpos hagree).symm.trans h)
  -- what is longer than `b` is a universal character name, which the token would have taken
  have hlen : identChar lx (b ++ r) ≤ (lexLen lx (b ++ r)).1 := identChar_le_lexLen (by omega)
  unfold Stops at hs
  omega

theorem numStep_append {last : UInt8} (hb : b ≠ []) (hs : Stops lx b r) (h : numStep lx last b = 0) :
    numStep lx last (b ++ r) = 0 := by
  unfold numStep at h ⊢
  rw [byteAt_zero_append hb]
  split at h
  · omega
  rename_i h1
  rw [if_neg h1]
  split at h
  · omega
  rename_i h2
  rw [if_neg h2]
  exact identChar_append hb hs h

/-- A name does not become a literal either: the quote would have to be the byte behind it. -/
theorem encPrefix_append (ha : (encPrefix lx (a ++ [32])).1 = 0) (hb : b ≠ [])
    (hab : (encPrefix lx (a ++ b)).1 = 0) (h : identChar lx b = 0) :
    (encPrefix lx (a ++ (b ++ r))).1 = 0 := by
  by_contra hne
  have hbpos : 0 < b.length := length_pos_iff.2 hb
  obtain ⟨-, hname⟩ := encPrefix_spec hne
  rcases Nat.lt_trichotomy (encPrefix lx (a ++ (b ++ r))).1 a.length with hlt | heq | hgt
  · have := encPrefix_congr hne (agree_append (y := [32]) hlt)
    rw [this] at ha
    exact hne ha
  · have hagree : Agree ((encPrefix lx (a ++ (b ++ r))).1 + 1) (a ++ (b ++ r)) (a ++ b) := by
      intro i hi
      rw [← append_assoc]
      exact (byteAt_append_left (by rw [length_append]; omega)).symm
    rw [encPrefix_congr hne hagree] at hab
    exact hne hab
  have hbyte := hname _ hgt
  rw [byteAt_append_length, byteAt_zero_append hb] at hbyte
  simp [identChar, hbyte] at h

theorem encPrefix_white (hw : w = 32 ∨ w = 10) (ha : (encPrefix lx (a ++ [32])).1 = 0) :
    (encPrefix lx (a ++ w :: r)).1 = 0 := by
  by_contra hne
  obtain ⟨hquote, hname⟩ := encPrefix_spec hne
  rcases Nat.lt_trichotomy (encPrefix lx (a ++ w :: r)).1 a.length with hlt | heq | hgt
  · have := encPrefix_congr hne (agree_append (y := [32]) hlt)
    rw [this] at ha
    exact hne ha
  · rw [heq, byteAt_append_length, byteAt_cons_zero] at hquote
    rcases hw with rfl | rfl <;> revert hquote <;> decide
  have hbyte := hname _ hgt
  rw [byteAt_append_length] at hbyte
  have := @identChar_white lx w hw r
  simp [identChar, hbyte] at this

/-! ## Punctuators -/

/-- The token `a` is a punctuator. -/
def PunctStart (lx : Lang) (a : List UInt8) : Prop :=
  NoLit lx (a ++ [32]) ∧ ¬ NumStart (a ++ [32]) ∧ ¬ identStart lx (a ++ [32]) = true

variable (hp : PunctStart lx a)
include hp

theorem PunctStart.noLit (ha : a ≠ []) (y : List UInt8) : NoLit lx (a ++ y) := by
  obtain ⟨hl, -, hi⟩ := hp
  refine ⟨?_, ?_⟩
  · have : ¬ (byteAt a 0 = 76 ∨ byteAt a 0 = 117 ∨ byteAt a 0 = 85 ∨ byteAt a 0 = 82) := by
      unfold identStart at hi
      rw [byteAt_zero_append ha] at hi
      rintro (h | h | h | h) <;> simp [h, isAlpha] at hi
    rw [encPrefix, byteAt_zero_append ha, if_neg this]
  have := hl.2
  rw [byteAt_zero_append ha] at this ⊢
  exact this

theorem PunctStart.not_identStart (ha : a ≠ []) (h92 : byteAt a 0 ≠ 92)
    (y : List UInt8) : ¬ identStart lx (a ++ y) = true := by
  have hi := hp.2.2
  unfold identStart at hi ⊢
  rw [byteAt_zero_append ha] at hi ⊢
  simp only [h92, Bool.or_eq_true, Bool.and_eq_true, decide_eq_true_eq] at hi ⊢
  tauto

variable {y : List UInt8}

/-- A dot is no number in front of what is no digit. -/
theorem PunctStart.not_numStart (ha : a ≠ [])
    (hy : a.length = 1 → byteAt a 0 = 46 → isDigit (byteAt y 0) = false) : ¬ NumStart (a ++ y) := by
  have hn := hp.2.1
  unfold NumStart at hn ⊢
  rw [byteAt_zero_append ha] at hn ⊢
  rintro (hd | ⟨h46, hd⟩)
  · exact hn (.inl hd)
  by_cases hlen : a.length = 1
  · have : byteAt (a ++ y) 1 = byteAt y 0 := by
      rw [← hlen]
      exact byteAt_append_length a y
    rw [this, hy hlen h46] at hd
    simp at hd
  have hpos := length_pos_iff.2 ha
  rw [byteAt_append_left (by omega)] at hd
  rw [byteAt_append_left (by omega)] at hn
  exact hn (.inr ⟨h46, hd⟩)

theorem PunctStart.lexLen_eq (ha : a ≠ []) (h92 : byteAt a 0 ≠ 92)
    (hn : ¬ NumStart (a ++ y)) (h128 : ¬ 128 ≤ byteAt a 0) :
    (lexLen lx (a ++ y)).1 = punctLen lx (a ++ y) := by
  rw [lexLen_punct (hp.noLit ha y) hn (hp.not_identStart ha h92 y), byteAt_zero_append ha, if_neg h128]

omit hp

/-- A character outside ASCII takes the continuation bytes that follow. -/
theorem PunctStart.lexLen_cont (h : Whole lx a) (hp : PunctStart lx a) (h128 : 128 ≤ byteAt a 0)
    (y : List UInt8) : (lexLen lx (a ++ y)).1 = a.length + (y.takeWhile isCont).length := by
  have ha := h.ne_nil
  have hpos : 0 < a.length := length_pos_iff.2 ha
  have h92 : byteAt a 0 ≠ 92 := by
    intro he
    rw [he] at h128
    exact absurd h128 (by decide)
  have h46 : byteAt a 0 ≠ 46 := by
    intro he
    rw [he] at h128
    exact absurd h128 (by decide)
  have hlen : ∀ z : List UInt8, (lexLen lx (a ++ z)).1 = 1 + ((a.drop 1 ++ z).takeWhile isCont).length := by
    intro z
    rw [lexLen_punct (hp.noLit ha z) (hp.not_numStart ha fun _ h => absurd h h46)
      (hp.not_identStart ha h92 z), byteAt_zero_append ha, if_pos h128,
      punctLen_one (by rw [byteAt_zero_append ha]; exact .inr h128),
      drop_append_of_le_length (by omega)]
  have hall : ((a.drop 1).takeWhile isCont).length = (a.drop 1).length := by
    unfold Whole at h
    rw [hlen, takeWhile_append] at h
    split at h
    · next he => exact he
    rename_i he
    rw [length_drop] at he ⊢
    omega
  rw [hlen, takeWhile_append, if_pos hall, length_append, length_drop]
  omega

theorem PunctStart.backslash (h : Whole lx a) (hp : PunctStart lx a) (h92 : byteAt a 0 = 92) : a = [92] := by
  have ha := h.ne_nil
  unfold Whole at h
  rw [lexLen_punct hp.1 hp.2.1 hp.2.2, byteAt_zero_append ha, if_neg (by rw [h92]; decide),
    punctLen_one (by rw [byteAt_zero_append ha]; exact .inl h92)] at h
  obtain ⟨c, rfl⟩ := length_eq_one_iff.1 h.symm
  rw [show c = 92 from h92]

theorem two_le_ucnLen (h : ucnLen p ≠ 0) : 2 ≤ ucnLen p := by
  unfold ucnLen at h ⊢
  generalize (if byteAt p 1 = 117 then 4 else 8) = n at h ⊢
  simp only at h ⊢
  split at h
  · next hu =>
    rw [if_pos hu]
    split at h
    · next hall =>
      rw [if_pos hall]
      exact Nat.le_add_right _ _
    exact absurd rfl h
  exact absurd rfl h

theorem two_le_identChar_backslash (h : identChar lx (92 :: y) ≠ 0) : 2 ≤ identChar lx (92 :: y) := by
  have h92 : identByte lx 92 = false := by
    cases hx : lx.extid <;> simp [identByte, isAlpha, isDigit, hx]
  simp only [identChar, byteAt_cons_zero, h92, Bool.false_eq_true, if_false] at h ⊢
  split at h
  · next hx =>
    rw [if_pos hx]
    exact two_le_ucnLen h
  exact absurd rfl h

/-- A lone backslash is read alone if no universal character name starts there. -/
theorem lexLen_backslash (h : identChar lx (92 :: y) = 0) : (lexLen lx (92 :: y)).1 = 1 := by
  have hlit : NoLit lx (92 :: y) := by simp [NoLit, encPrefix, byteAt_cons_zero]
  have hnum : ¬ NumStart (92 :: y) := by simp [NumStart, isDigit, byteAt_cons_zero]
  by_cases hi : identStart lx (92 :: y) = true
  · rw [lexLen_ident hlit hnum hi, length_cons, scanBy, if_pos h]
    simp
  rw [lexLen_punct hlit hnum hi, if_neg (by rw [byteAt_cons_zero]; decide),
    punctLen_one (.inl (byteAt_cons_zero 92 y))]

/-! ## White space behind a token -/

/-- **A whole token stops in front of white space.** -/
theorem stops_white (h : Whole lx a) (hw : w = 32 ∨ w = 10) (r : List UInt8) : Stops lx a (w :: r) := by
  have ha := h.ne_nil
  by_cases hl : NoLit lx (a ++ [32])
  · by_cases hn : NumStart (a ++ [32])
    · obtain ⟨last, hstop⟩ := stops_number h hl hn
      exact (hstop _ (by simp)).2 (numStep_white hw last r)
    by_cases hi : identStart lx (a ++ [32]) = true
    · exact (stops_name h hl hn hi (by simp)).2 ⟨encPrefix_white hw hl.1, identChar_white hw r⟩
    have hp : PunctStart lx a := ⟨hl, hn, hi⟩
    by_cases h92 : byteAt a 0 = 92
    · obtain rfl := hp.backslash h h92
      show (lexLen lx (92 :: w :: r)).1 = 1
      refine lexLen_backslash ?_
      by_contra hne
      obtain ⟨-, -, h1, -⟩ := identChar_ucn (two_le_identChar_backslash hne)
      rw [byteAt_cons_succ, byteAt_cons_zero] at h1
      rcases hw with rfl | rfl <;> revert h1 <;> decide
    by_cases h128 : 128 ≤ byteAt a 0
    · unfold Stops
      rw [PunctStart.lexLen_cont h hp h128]
      have hc : isCont w = false := by rcases hw with rfl | rfl <;> decide
      rw [takeWhile_cons_of_neg (by simp [hc])]
      rfl
    have hnum : ∀ (v : UInt8) (z : List UInt8), v = 32 ∨ v = 10 → ¬ NumStart (a ++ v :: z) := by
      intro v z hv
      refine hp.not_numStart ha fun _ _ => ?_
      rw [byteAt_cons_zero]
      rcases hv with rfl | rfl <;> decide
    unfold Whole at h
    unfold Stops
    rw [hp.lexLen_eq ha h92 (hnum 32 [] (.inl rfl)) h128, punctLen_white (.inl rfl)] at h
    rw [hp.lexLen_eq ha h92 (hnum w r hw) h128, punctLen_white hw, h]
  exact stops_literal h hl _

/-! ## Another token behind a token -/

/-- A backslash in front of a token that stops does not get to be the start of a universal character
name: the token would have to be the rest of it, or go on. -/
theorem stops_backslash (hb : Whole lx b) (hs : Stops lx [92] b) (hbr : Stops lx b r) :
    Stops lx [92] (b ++ r) := by
  show (lexLen lx (92 :: (b ++ r))).1 = 1
  refine lexLen_backslash ?_
  by_contra hne
  have hk := two_le_identChar_backslash hne
  obtain ⟨hx, -, h1, -, hdig⟩ := identChar_ucn hk
  have hbne := hb.ne_nil
  have hbpos : 0 < b.length := length_pos_iff.2 hbne
  rw [byteAt_cons_succ, byteAt_zero_append hbne] at h1
  by_cases hle : identChar lx (92 :: (b ++ r)) ≤ b.length + 1
  · -- the whole name lies in the backslash and `b`
    have hagree : Agree (identChar lx (92 :: (b ++ r))) (92 :: (b ++ r)) (92 :: b) := by
      intro i hi
      rw [← cons_append]
      exact (byteAt_append_left (by rw [length_cons]; omega)).symm
    have hsame := identChar_congr (by omega) hagree
    have hlen : identChar lx (92 :: b) ≤ (lexLen lx (92 :: b)).1 := identChar_le_lexLen (by omega)
    unfold Stops at hs
    rw [singleton_append] at hs
    simp only [length_singleton] at hs
    omega
  -- `b` is a name that could go on with the digits that follow it
  have hdigit : ∀ j, 1 ≤ j → j ≤ b.length → isXdigit (byteAt (b ++ r) j) = true := by
    intro j h1 hj
    exact hdig (j + 1) (by omega) (by omega)
  have hl : NoLit lx (b ++ [32]) := by
    refine ⟨?_, ?_⟩
    · by_contra hj
      have hquote := (encPrefix_spec hj).1
      have hlt : (encPrefix lx (b ++ [32])).1 < b.length := by
        have h2 : (encPrefix lx (b ++ [32])).1 < (b ++ [32]).length :=
          lt_length_of_byteAt (by rcases hquote with h | h <;> rw [h] <;> decide)
        rw [length_append, length_singleton] at h2
        rcases Nat.lt_or_eq_of_le (Nat.lt_succ_iff.1 h2) with h3 | h3
        · exact h3
        rw [h3, byteAt_append_length, byteAt_cons_zero] at hquote
        exact absurd hquote (by decide)
      have hd := hdigit _ (Nat.pos_of_ne_zero hj) (by omega)
      rw [byteAt_append_left hlt] at hquote hd
      rcases hquote with h | h <;> rw [h] at hd <;> revert hd <;> decide
    rw [byteAt_zero_append hbne]
    rcases h1 with h1 | h1 <;> rw [h1] <;> decide
  have hn : ¬ NumStart (b ++ [32]) := by
    unfold NumStart
    rw [byteAt_zero_append hbne]
    rcases h1 with h1 | h1 <;> simp [h1, isDigit]
  have hi : identStart lx (b ++ [32]) = true := by
    unfold identStart
    rw [byteAt_zero_append hbne]
    rcases h1 with h1 | h1 <;> simp [h1, isAlpha]
  have hd := hdigit b.length hbpos Nat.le.refl
  rw [byteAt_append_length] at hd
  have hr : r ≠ [] := by
    rintro rfl
    exact ne_zero_of_isXdigit hd rfl
  have hend := ((stops_name hb hl hn hi hr).1 hbr).2
  simp [identChar, identByte_of_isXdigit hd] at hend

/-- A dot in front of a digit is the start of a number. -/
theorem not_stops_dot (hb : b ≠ []) (hd : isDigit (byteAt b 0) = true) : ¬ Stops lx [46] b := by
  have hlit : NoLit lx (46 :: b) := by simp [NoLit, encPrefix, byteAt_cons_zero]
  have hnum : NumStart (46 :: b) := .inr ⟨rfl, hd⟩
  have hstep : numStep lx 46 b ≠ 0 := by
    have hid : identByte lx (byteAt b 0) = true := by simp [identByte, hd]
    unfold numStep identChar
    simp only [hid, if_true]
    split <;> simp
  unfold Stops
  rw [singleton_append, lexLen_num hlit hnum, length_cons, byteAt_cons_zero, drop_succ_cons, drop_zero]
  have hne := mt (scanBy_stops (m := b.length) hb).1 hstep
  simp only [length_singleton]
  omega

/-- **A token that stops in front of the next one stops in front of all that follows it**, but for a dot
in front of a dot and a third one. -/
theorem stops_append (ha : Whole lx a) (hb : Whole lx b) (hab : Stops lx a b) (hbr : Stops lx b r)
    (hdots : ¬ (a = [46] ∧ b = [46] ∧ byteAt r 0 = 46)) : Stops lx a (b ++ r) := by
  have hane := ha.ne_nil
  have hbne := hb.ne_nil
  have hbrne : b ++ r ≠ [] := by simp [hbne]
  by_cases hl : NoLit lx (a ++ [32])
  · by_cases hn : NumStart (a ++ [32])
    · obtain ⟨last, hstop⟩ := stops_number ha hl hn
      exact (hstop _ hbrne).2 (numStep_append hbne hbr ((hstop b hbne).1 hab))
    by_cases hi : identStart lx (a ++ [32]) = true
    · obtain ⟨he, hid⟩ := (stops_name ha hl hn hi hbne).1 hab
      exact (stops_name ha hl hn hi hbrne).2
        ⟨encPrefix_append hl.1 hbne he hid, identChar_append hbne hbr hid⟩
    have hp : PunctStart lx a := ⟨hl, hn, hi⟩
    by_cases h92 : byteAt a 0 = 92
    · obtain rfl := hp.backslash ha h92
      exact stops_backslash hb hab hbr
    by_cases h128 : 128 ≤ byteAt a 0
    · unfold Stops at hab ⊢
      rw [PunctStart.lexLen_cont ha hp h128] at hab ⊢
      cases b with
      | nil => exact absurd rfl hbne
      | cons c b => ?_
      by_cases hc : isCont c = true
      · rw [takeWhile_cons_of_pos hc, length_cons] at hab
        omega
      rw [cons_append, takeWhile_cons_of_neg hc]
      rfl
    have hdigit : a.length = 1 → byteAt a 0 = 46 → isDigit (byteAt b 0) = false := by
      intro h1 h46
      obtain ⟨c, rfl⟩ := length_eq_one_iff.1 h1
      obtain rfl : c = 46 := h46
      by_contra hd
      exact not_stops_dot hbne (by simpa using hd) hab
    have hnab : ¬ NumStart (a ++ b) := hp.not_numStart hane hdigit
    have hnabr : ¬ NumStart (a ++ (b ++ r)) := hp.not_numStart hane fun h1 h46 => by
      rw [byteAt_zero_append hbne]
      exact hdigit h1 h46
    unfold Stops at hab ⊢
    rw [hp.lexLen_eq hane h92 hnab h128] at hab
    rw [hp.lexLen_eq hane h92 hnabr h128]
    refine punctLen_append hane hbne hab ?_ hdots
    rintro rfl
    unfold Stops at hbr
    rw [lexLen_punct] at hbr
    · rw [if_neg (by rw [byteAt_zero_append hbne]; decide)] at hbr
      exact hbr
    · simp [NoLit, encPrefix, byteAt_cons_zero]
    · simp [NumStart, isDigit, byteAt_cons_zero]
    simp [identStart, isAlpha, byteAt_cons_zero]
  exact stops_literal ha hl _

end

end Embedded.Toolchain.Cpp
