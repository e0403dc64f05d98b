import Embedded.Toolchain.Cpp.Neighbours

/-! # What the preprocessor writes reads back as what it wrote

`emit` puts a space between two tokens that would merge. The test is made of two tokens at a time. That is
enough for every run of tokens but one: two dots and a third one, or a number that starts with one, do not
merge in pairs, and are read back as an ellipsis. -/

namespace Embedded.Toolchain.Cpp

/-! ## The output of the preprocessor (`toolchain/cpp/cpp.c`)

`emit` prints tokens: a token that was the first of its line starts a line, others follow the one before
them, with a space if they had one or would be read together with it. Line markers stand on lines of
their own between the others; they are kept apart from the text. -/

/-- `would_merge`. -/
def wouldMerge (lx : Lang) (a b : List UInt8) : Bool :=
  byteAt a (a.length - 1) = 47 && (byteAt b 0 = 47 || byteAt b 0 = 42) ||
    decide ((lexLen lx (a ++ b)).1 ≠ a.length)

/-- What is printed: text, or the line of a marker. -/
inductive Piece
  | text (bytes : List UInt8)
  | marker (bytes : List UInt8)

/-- What the output depends on: `no_markers`, `presumed` and `line_delta`. -/
structure OutMode where
  noMarkers : Bool
  presumed : List UInt8
  lineDelta : Int

/-- `mk_file` and `mk_line`, and the variables of `emit`. -/
structure OutState where
  mkFile : Option (List UInt8)
  mkLine : Int
  lineOpen : Bool
  prev : Option (List UInt8)

/-- The line of a marker: `# line "file"`. -/
def markerLine (line : Int) (file : List UInt8) : List UInt8 :=
  35 :: 32 :: ((toString line).toUTF8.toList ++ 32 :: 34 :: (file ++ [34, 10]))

/-- `sync_line` without a flag. -/
def syncLine (m : OutMode) (line : Int) (st : OutState) : List Piece × OutState :=
  if m.noMarkers ∨ m.presumed = [] then ([], st)
  else if st.mkFile = some m.presumed ∧ line = st.mkLine then ([], st)
  else if st.mkFile = some m.presumed ∧ st.mkLine < line ∧ line - st.mkLine < 8 then
    ([.text (List.replicate (line - st.mkLine).toNat 10)], { st with mkLine := line })
  else ([.marker (markerLine line m.presumed)], { st with mkFile := some m.presumed, mkLine := line })

/-- The end of a line that is open. -/
def closeLine (st : OutState) : List Piece × OutState :=
  if st.lineOpen then ([.text [10]], { st with mkLine := st.mkLine + 1, lineOpen := false }) else ([], st)

/-- What is printed in front of a token. -/
def before (lx : Lang) (m : OutMode) (st : OutState) (t : Tok) : List Piece × OutState :=
  if t.bol then
    let r := closeLine st
    let r' := if t.line ≠ 0 then syncLine m (t.line + m.lineDelta) r.2 else ([], r.2)
    (r.1 ++ (r'.1 ++ [.text (List.replicate (t.col - 1) 32)]), r'.2)
  else if t.space || st.prev.any (fun a => wouldMerge lx a t.text) then ([.text [32]], st)
  else ([], st)

/-- The loop of `emit`. -/
def emitLoop (lx : Lang) (m : OutMode) : OutState → List Tok → List Piece
  | st, [] => (closeLine st).1
  | st, t :: ts =>
    match t.kind with
    | .eof => (closeLine st).1
    | .line =>
      let r := closeLine st
      r.1 ++ .text (t.text ++ [10]) :: emitLoop lx m { r.2 with mkLine := r.2.mkLine + 1, prev := none } ts
    | _ =>
      let r := before lx m st t
      r.1 ++ .text t.text :: emitLoop lx m { r.2 with lineOpen := true, prev := some t.text } ts

/-- `emit`, not under `-dM`. -/
def emit (lx : Lang) (m : OutMode) (mkFile : Option (List UInt8)) (mkLine : Int) (ts : List Tok) :
    List Piece := emitLoop lx m ⟨mkFile, mkLine, false, none⟩ ts

/-- The text apart from the markers. -/
def textOf (ps : List Piece) : List UInt8 :=
  ps.flatMap fun
    | .text bytes => bytes
    | .marker _ => []

open List

variable {a c : List UInt8} {ts : List Tok}

/-- A preprocessing token: it does not start with white space, and the lexer reads it back whole. -/
structure Valid (lx : Lang) (t : Tok) : Prop where
  noNul : 0 ∉ t.text
  notWhite : ∀ c ∈ [10, 32, 9, 12, 11], byteAt t.text 0 ≠ c
  lexes : lexLen lx (t.text ++ [32]) = (t.text.length, t.kind)

def spellings (r : Option (List Tok)) : Option (List (List UInt8)) := r.map fun ts => ts.map Tok.text

/-- The text that is written for the tokens, line markers apart, reads back as the tokens. -/
def Relexes (lx : Lang) (m : OutMode) (mkFile : Option (List UInt8)) (mkLine : Int) (ts : List Tok) : Prop :=
  spellings (tokenize lx (textOf (emit lx m mkFile mkLine ts))) = some (ts.map Tok.text)

/-- The token follows the one before it on its line, without white space between them. -/
def Tok.adjoins (t : Tok) : Prop := t.bol = false ∧ t.space = false

/-- There are two dots, and right behind them a token that starts with a dot and is not an ellipsis. -/
def DotRun : List Tok → Prop
  | a :: b :: c :: ts =>
    a.text = [46] ∧ b.text = [46] ∧ b.adjoins ∧ c.adjoins ∧ byteAt c.text 0 = 46 ∧ c.text ≠ [46, 46, 46] ∨
      DotRun (b :: c :: ts)
  | _ => False

variable {t : Tok} {st : OutState}

section

variable {lx : Lang} {m : OutMode}

theorem Valid.whole (h : Valid lx t) : Whole lx t.text := congrArg Prod.fst h.lexes

theorem lexLen_kind (p : List UInt8) : (lexLen lx p).2 ≠ .eof ∧ (lexLen lx p).2 ≠ .line := by
  unfold lexLen
  simp only
  split_ifs
  · split <;> simp
  all_goals simp

theorem Valid.kind (h : Valid lx t) : t.kind ≠ .eof ∧ t.kind ≠ .line := by
  have := @lexLen_kind lx (t.text ++ [32])
  rwa [h.lexes] at this

/-! ## The text that is written -/

@[simp] theorem textOf_nil : textOf [] = [] := rfl

@[simp] theorem textOf_append (p q : List Piece) : textOf (p ++ q) = textOf p ++ textOf q := by
  simp [textOf]

@[simp] theorem textOf_text (s : List UInt8) (q : List Piece) : textOf (.text s :: q) = s ++ textOf q := by
  simp [textOf]

@[simp] theorem textOf_marker (s : List UInt8) (q : List Piece) : textOf (.marker s :: q) = textOf q := by
  simp [textOf]

/-- What stands between tokens. -/
def Blank (s : List UInt8) : Prop := ∀ c ∈ s, c = 32 ∨ c = 10

theorem closeLine_blank (st : OutState) : Blank (textOf (closeLine st).1) := by
  unfold closeLine Blank
  split <;> simp

theorem syncLine_blank (line : Int) (st : OutState) : Blank (textOf (syncLine m line st).1) := by
  unfold syncLine Blank
  split_ifs
  · simp
  · simp
  · intro c hc
    simp only [textOf_text, textOf_nil, append_nil, mem_replicate] at hc
    exact .inr hc.2
  simp

theorem before_blank (st : OutState) (t : Tok) : Blank (textOf (before lx m st t).1) := by
  unfold before
  split
  · intro c hc
    simp only [textOf_append, textOf_text, textOf_nil, append_nil, mem_append, mem_replicate] at hc
    rcases hc with hc | hc | hc
    · exact closeLine_blank st c hc
    · split at hc
      · exact syncLine_blank _ _ c hc
      simp at hc
    exact .inl hc.2
  split <;> simp [Blank]

/-- On an open line nothing is written in front of a token just if it follows the one before it and does
not merge with it. -/
theorem before_empty (hp : st.prev = some a) (ho : st.lineOpen = true)
    (t : Tok) : textOf (before lx m st t).1 = [] ↔ t.adjoins ∧ wouldMerge lx a t.text = false := by
  unfold before Tok.adjoins
  cases hb : t.bol with
  | true => simp [closeLine, ho]
  | false =>
    cases hs : t.space with
    | true => simp
    | false => cases hm : wouldMerge lx a t.text <;> simp [hp, hm]

/-- The output behind a token that has been written. -/
def OutState.after (st : OutState) (t : Tok) : OutState := { st with lineOpen := true, prev := some t.text }

theorem emitLoop_cons (ht : Valid lx t) (st : OutState) (ts : List Tok) :
    textOf (emitLoop lx m st (t :: ts)) = textOf (before lx m st t).1 ++
      (t.text ++ textOf (emitLoop lx m ((before lx m st t).2.after t) ts)) := by
  have hk := ht.kind
  rw [emitLoop]
  cases h : t.kind <;> simp_all [OutState.after]

theorem emitLoop_ne_nil (ho : st.lineOpen = true) :
    ∀ {ts : List Tok}, (∀ t ∈ ts, Valid lx t) → textOf (emitLoop lx m st ts) ≠ [] := by
  intro ts hv
  cases ts with
  | nil => simp [emitLoop, closeLine, ho]
  | cons t ts =>
    have ht := hv t mem_cons_self
    rw [emitLoop_cons ht]
    simp [ht.whole.ne_nil]

/-! ## Reading it back -/

theorem spellings_cons (t : Tok) (r : Option (List Tok)) :
    spellings (r.map (t :: ·)) = (spellings r).map (t.text :: ·) := by
  cases r <;> simp [spellings]

/-- The spellings do not depend on where the tokens stand. -/
theorem spellings_flags (fuel : Nat) (p : List UInt8) (bol cbol space : Bool) (col : Nat) :
    spellings (tokenizeLoop lx fuel p bol cbol space col) =
      spellings (tokenizeLoop lx fuel p true false false 0) := by
  induction fuel generalizing p bol cbol space col with
  | zero => rfl
  | succ fuel ih => ?_
  have hany : ∀ (q : List UInt8) (b c s b' c' s' : Bool) (n n' : Nat),
      spellings (tokenizeLoop lx fuel q b c s n) = spellings (tokenizeLoop lx fuel q b' c' s' n') :=
    fun q b c s b' c' s' n n' => (ih q b c s n).trans (ih q b' c' s' n').symm
  rw [tokenizeLoop, tokenizeLoop]
  split_ifs
  · rfl
  · rfl
  · exact hany ..
  · exact hany ..
  · cases commentEnd (p.drop 2) with
    | none => rfl
    | some r => ?_
    simp only [Option.bind_some]
    split_ifs
    · exact hany ..
    exact hany ..
  simp only [spellings_cons]
  rw [hany (p.drop (lexLen lx p).1) false false false false false false (col + (lexLen lx p).1)
    (0 + (lexLen lx p).1)]

/-- The spellings of the tokens of a text. -/
def respell (lx : Lang) (fuel : Nat) (p : List UInt8) : Option (List (List UInt8)) :=
  spellings (tokenizeLoop lx fuel p true false false 0)

theorem respell_nil (fuel : Nat) : respell lx (fuel + 1) [] = some [] := by
  simp [respell, tokenizeLoop, spellings]

theorem respell_blank {s : List UInt8} (hs : Blank s) (fuel : Nat) (p : List UInt8) :
    respell lx (s.length + fuel) (s ++ p) = respell lx fuel p := by
  induction s with
  | nil => simp
  | cons c s ih => ?_
  rw [length_cons, show s.length + 1 + fuel = (s.length + fuel) + 1 by omega, cons_append,
    ← ih (forall_mem_cons.1 hs).2, respell, tokenizeLoop]
  rcases hs c mem_cons_self with rfl | rfl
  · simp [byteAt_cons_zero, spellings_flags, respell]
  · simp [byteAt_cons_zero, respell]

theorem respell_token {p : List UInt8} (hp : p ≠ []) (hw : ∀ c ∈ [10, 32, 9, 12, 11], byteAt p 0 ≠ c)
    (hc : byteAt p 0 = 47 → byteAt p 1 ≠ 47 ∧ byteAt p 1 ≠ 42) (fuel : Nat) :
    respell lx (fuel + 1) p = (respell lx fuel (p.drop (lexLen lx p).1)).map (p.take (lexLen lx p).1 :: ·) := by
  have hw2 : ¬ (byteAt p 0 = 32 ∨ byteAt p 0 = 9 ∨ byteAt p 0 = 12 ∨ byteAt p 0 = 11) := by
    rintro (h | h | h | h) <;> exact hw _ (by simp) h
  rw [respell, tokenizeLoop, if_neg hp, if_neg (hw 10 (by simp)), if_neg hw2,
    if_neg fun h => (hc h.2.1).1 h.2.2, if_neg fun h => (hc h.1).2 h.2]
  simp only [spellings_cons]
  rw [spellings_flags, respell]

/-- A token is read back first just if it stops in front of what follows it. -/
theorem respell_cons (ht : Valid lx t) {x : List UInt8} (hx : x ≠ [])
    (hc : byteAt (t.text ++ x) 0 = 47 → byteAt (t.text ++ x) 1 ≠ 47 ∧ byteAt (t.text ++ x) 1 ≠ 42)
    (fuel : Nat) (ss : List (List UInt8)) :
    respell lx (fuel + 1) (t.text ++ x) = some (t.text :: ss) ↔
      Stops lx t.text x ∧ respell lx fuel x = some ss := by
  have hne := ht.whole.ne_nil
  rw [respell_token (by simp [hne]) (by rw [byteAt_zero_append hne]; exact ht.notWhite) hc]
  simp only [Option.map_eq_some_iff, cons.injEq]
  constructor
  · rintro ⟨ss', hss, htake, rfl⟩
    have hlen : (lexLen lx (t.text ++ x)).1 = t.text.length := by
      have h := congrArg length htake
      have hpos : 0 < x.length := length_pos_iff.2 hx
      rw [length_take, length_append] at h
      omega
    rw [hlen, drop_left] at hss
    exact ⟨hlen, hss⟩
  rintro ⟨hs, hss⟩
  rw [hs, drop_left, take_left]
  exact ⟨ss, hss, rfl, rfl⟩

/-! ## Slashes and dots -/

theorem punctLen_slash (q : List UInt8) : punctLen lx (47 :: q) = if byteAt q 0 = 61 then 2 else 1 := by
  cases q with
  | nil => simp [punctLen, PUNCT, find?, isPrefixOf, byteAt]
  | cons c q => ?_
  by_cases h : c = 61
  · simp [punctLen, PUNCT, find?, isPrefixOf, byteAt_cons_zero, h, isDigraph]
  have h' : ((61 : UInt8) == c) = false := by simpa using Ne.symm h
  simp [punctLen, PUNCT, find?, isPrefixOf, byteAt_cons_zero, h, h']

theorem punctLen_dot (q : List UInt8) :
    punctLen lx (46 :: q) = if List.isPrefixOf [46, 46] q = true then 3 else 1 := by
  by_cases h : isPrefixOf [46, 46] q = true
  · simp [punctLen, PUNCT, find?, isPrefixOf, h, isDigraph]
  · simp [punctLen, PUNCT, find?, isPrefixOf, h]

theorem lexLen_slash (q : List UInt8) : (lexLen lx (47 :: q)).1 = if byteAt q 0 = 61 then 2 else 1 := by
  rw [lexLen_punct, byteAt_cons_zero, if_neg (by decide), punctLen_slash]
  · simp [NoLit, encPrefix, byteAt_cons_zero]
  · simp [NumStart, isDigit, byteAt_cons_zero]
  simp [identStart, isAlpha, byteAt_cons_zero]

theorem lexLen_dot {q : List UInt8} (hq : isDigit (byteAt q 0) = false) :
    (lexLen lx (46 :: q)).1 = if List.isPrefixOf [46, 46] q = true then 3 else 1 := by
  rw [lexLen_punct, byteAt_cons_zero, if_neg (by decide), punctLen_dot]
  · simp [NoLit, encPrefix, byteAt_cons_zero]
  · rintro (h | h)
    · exact absurd (show isDigit 46 = true from h) (by decide)
    rw [byteAt_cons_succ, hq] at h
    exact absurd h.2 (by simp)
  simp [identStart, isAlpha, byteAt_cons_zero]

theorem Whole.slash (h : Whole lx a) (h0 : byteAt a 0 = 47) : a = [47] ∨ byteAt a 1 = 61 := by
  cases a with
  | nil => exact absurd rfl h.ne_nil
  | cons c u => ?_
  obtain rfl : c = 47 := h0
  unfold Whole at h
  rw [cons_append, lexLen_slash, length_cons] at h
  cases u with
  | nil => exact .inl rfl
  | cons d v => ?_
  right
  by_contra hd
  rw [if_neg (by simpa [byteAt_cons_zero, byteAt_cons_succ] using hd), length_cons] at h
  omega

theorem Whole.twoDots (hc : Whole lx c) (h : List.isPrefixOf [46, 46] c = true) : c = [46, 46, 46] := by
  obtain ⟨z, rfl⟩ := isPrefixOf_iff_prefix.1 h
  unfold Whole at hc
  rw [append_assoc, cons_append, lexLen_dot (by rw [cons_append]; rfl)] at hc
  split at hc
  · next h2 =>
    obtain ⟨d, rfl⟩ := length_eq_one_iff.1 (show z.length = 1 by simpa using hc.symm)
    have hd : d = 46 := byteAt_of_isPrefixOf h2 (i := 1) (by simp)
    rw [hd]
    rfl
  simp at hc

/-- A token that starts with a dot merges with a dot in front of it just if it is an ellipsis. -/
theorem wouldMerge_dot (hc : Whole lx c) (h0 : byteAt c 0 = 46) :
    wouldMerge lx [46] c = false ↔ c ≠ [46, 46, 46] := by
  have hlen := @lexLen_dot lx c (by rw [h0]; decide)
  have hm : wouldMerge lx [46] c = decide ((lexLen lx (46 :: c)).1 ≠ 1) := by
    simp [wouldMerge, byteAt_cons_zero]
  rw [hm, hlen]
  constructor
  · rintro h rfl
    simp at h
  intro hne
  rw [if_neg fun h => hne (hc.twoDots h)]
  simp

/-! ## Runs of tokens -/

/-- What follows a token that has been written: white space, or a token it does not merge with. -/
theorem emitLoop_follows (hp : st.prev = some t.text) (ho : st.lineOpen = true) (hv : ∀ u ∈ ts, Valid lx u) :
    (∃ w r, (w = 32 ∨ w = 10) ∧ textOf (emitLoop lx m st ts) = w :: r) ∨
      ∃ u us, ts = u :: us ∧ u.adjoins ∧ wouldMerge lx t.text u.text = false ∧ textOf (emitLoop lx m st ts) =
          u.text ++ textOf (emitLoop lx m ((before lx m st u).2.after u) us) := by
  cases ts with
  | nil => exact .inl ⟨10, [], .inr rfl, by simp [emitLoop, closeLine, ho]⟩
  | cons u us => ?_
  have hu := hv u mem_cons_self
  rw [emitLoop_cons hu]
  cases hs : textOf (before lx m st u).1 with
  | nil =>
    obtain ⟨had, hm⟩ := (before_empty hp ho u).1 hs
    exact .inr ⟨u, us, rfl, had, hm, rfl⟩
  | cons w r =>
    exact .inl ⟨w, _, before_blank st u w (by rw [hs]; exact mem_cons_self ..), rfl⟩

/-- No comment starts at a token that has been written. -/
theorem no_comment (ht : Valid lx t) (hp : st.prev = some t.text)
    (ho : st.lineOpen = true) {ts : List Tok} (hv : ∀ u ∈ ts, Valid lx u)
    (h47 : byteAt (t.text ++ textOf (emitLoop lx m st ts)) 0 = 47) :
    byteAt (t.text ++ textOf (emitLoop lx m st ts)) 1 ≠ 47 ∧
      byteAt (t.text ++ textOf (emitLoop lx m st ts)) 1 ≠ 42 := by
  have hne := ht.whole.ne_nil
  rw [byteAt_zero_append hne] at h47
  rcases ht.whole.slash h47 with hone | h61
  · rw [hone]
    show byteAt (textOf (emitLoop lx m st ts)) 0 ≠ 47 ∧ byteAt (textOf (emitLoop lx m st ts)) 0 ≠ 42
    rcases emitLoop_follows hp ho hv with ⟨w, r, hw, h⟩ | ⟨u, us, rfl, -, hm, h⟩
    · rw [h, byteAt_cons_zero]
      rcases hw with rfl | rfl <;> decide
    rw [h, byteAt_zero_append (hv u mem_cons_self).whole.ne_nil]
    rw [hone] at hm
    simp only [wouldMerge, Bool.or_eq_false_iff, Bool.and_eq_false_iff] at hm
    constructor <;> intro h0 <;> simp [h0, byteAt_cons_zero] at hm
  have hlt : 1 < t.text.length := lt_length_of_byteAt (by rw [h61]; decide)
  rw [byteAt_append_left hlt, h61]
  decide

/-- Behind two dots a third one follows just if a token that starts with it does. -/
theorem third_dot (hp : st.prev = some t.text) (ho : st.lineOpen = true)
    (hdot : t.text = [46]) {ts : List Tok} (hv : ∀ u ∈ ts, Valid lx u) :
    byteAt (textOf (emitLoop lx m st ts)) 0 = 46 ↔
      ∃ u us, ts = u :: us ∧ u.adjoins ∧ byteAt u.text 0 = 46 ∧ u.text ≠ [46, 46, 46] := by
  constructor
  · intro h46
    rcases emitLoop_follows hp ho hv with ⟨w, r, hw, h⟩ | ⟨u, us, rfl, had, hm, h⟩
    · rw [h, byteAt_cons_zero] at h46
      rcases hw with rfl | rfl <;> cases h46
    have hu := (hv u mem_cons_self).whole
    rw [h, byteAt_zero_append hu.ne_nil] at h46
    rw [hdot] at hm
    exact ⟨u, us, rfl, had, h46, (wouldMerge_dot hu h46).1 hm⟩
  rintro ⟨u, us, rfl, had, h46, hne⟩
  have hu := hv u mem_cons_self
  have hm : wouldMerge lx t.text u.text = false := by
    rw [hdot]
    exact (wouldMerge_dot hu.whole h46).2 hne
  rw [emitLoop_cons hu, (before_empty hp ho u).2 ⟨had, hm⟩, nil_append,
    byteAt_zero_append hu.whole.ne_nil, h46]

theorem dotRun_cons (t u : Tok) (us : List Tok) :
    DotRun (t :: u :: us) ↔ (t.text = [46] ∧ u.text = [46] ∧ u.adjoins ∧
      ∃ v vs, us = v :: vs ∧ v.adjoins ∧ byteAt v.text 0 = 46 ∧ v.text ≠ [46, 46, 46]) ∨
        DotRun (u :: us) := by
  cases us with
  | nil => simp [DotRun]
  | cons v vs => ?_
  rw [DotRun]
  constructor
  · rintro (⟨h1, h2, h3, h4, h5, h6⟩ | h)
    · exact .inl ⟨h1, h2, h3, v, vs, rfl, h4, h5, h6⟩
    exact .inr h
  rintro (⟨h1, h2, h3, v', vs', he, h4, h5, h6⟩ | h)
  · obtain ⟨rfl, rfl⟩ := cons.inj he
    exact .inl ⟨h1, h2, h3, h4, h5, h6⟩
  exact .inr h

/-- A token that has been written stops in front of what follows it, if the next one does, unless they are
the first two of three dots. -/
theorem stops_rest (ht : Valid lx t) (hp : st.prev = some t.text)
    (ho : st.lineOpen = true) {u : Tok} {us : List Tok} (hu : Valid lx u)
    (hnext : Stops lx u.text (textOf (emitLoop lx m ((before lx m st u).2.after u) us))) :
    Stops lx t.text (textOf (emitLoop lx m st (u :: us))) ↔ ¬ (t.text = [46] ∧ u.text = [46] ∧ u.adjoins ∧
        byteAt (textOf (emitLoop lx m ((before lx m st u).2.after u) us)) 0 = 46) := by
  rw [emitLoop_cons hu]
  generalize textOf (emitLoop lx m ((before lx m st u).2.after u) us) = x at hnext ⊢
  cases hs : textOf (before lx m st u).1 with
  | cons w r =>
    have hw := before_blank st u w (by rw [hs]; exact mem_cons_self ..)
    refine iff_of_true (stops_white ht.whole hw _) ?_
    rintro ⟨h1, h2, had, -⟩
    have hm : wouldMerge lx t.text u.text = false := by
      rw [h1, wouldMerge_dot hu.whole (by rw [h2]; rfl), h2]
      decide
    rw [(before_empty hp ho u).2 ⟨had, hm⟩] at hs
    simp at hs
  | nil => ?_
  obtain ⟨had, hm⟩ := (before_empty hp ho u).1 hs
  have htu : Stops lx t.text u.text := by
    simp only [wouldMerge, Bool.or_eq_false_iff, decide_eq_false_iff_not, not_not] at hm
    exact hm.2
  rw [nil_append]
  constructor
  · rintro hstop ⟨h1, h2, -, h46⟩
    unfold Stops at hstop
    rw [h1, h2, singleton_append, lexLen_dot rfl] at hstop
    cases x with
    | nil => cases h46
    | cons c x =>
      obtain rfl : c = 46 := h46
      simp at hstop
  intro hnot
  exact stops_append ht.whole hu.whole htu hnext fun h => hnot ⟨h.1, h.2.1, had, h.2.2⟩

/-- **What follows a token that has been written reads back, and the token stops in front of it, just if
there is no run of dots.** -/
theorem respell_rest : ∀ (ts : List Tok) (t : Tok) (st : OutState) (fuel : Nat), Valid lx t →
    (∀ u ∈ ts, Valid lx u) → st.prev = some t.text → st.lineOpen = true →
    (textOf (emitLoop lx m st ts)).length < fuel →
    ((Stops lx t.text (textOf (emitLoop lx m st ts)) ∧
      respell lx fuel (textOf (emitLoop lx m st ts)) = some (ts.map Tok.text)) ↔ ¬ DotRun (t :: ts)) := by
  intro ts
  induction ts with
  | nil =>
    intro t st fuel ht _ _ ho hf
    have hx : textOf (emitLoop lx m st []) = [10] := by simp [emitLoop, closeLine, ho]
    rw [hx] at hf ⊢
    obtain ⟨k, rfl⟩ : ∃ k, fuel = 1 + (k + 1) := ⟨fuel - 2, by simp at hf; omega⟩
    have hb : Blank [10] := by simp [Blank]
    refine iff_of_true ⟨stops_white ht.whole (.inr rfl) [], ?_⟩ (by simp [DotRun])
    exact (respell_blank hb (k + 1) []).trans (respell_nil k)
  | cons u us ih => ?_
  intro t st fuel ht hv hp ho hf
  have hu := hv u mem_cons_self
  have hus : ∀ v ∈ us, Valid lx v := fun v hv' => hv v (mem_cons_of_mem _ hv')
  have hupos : 0 < u.text.length := length_pos_iff.2 hu.whole.ne_nil
  have hrest := @emitLoop_cons u lx m hu st us
  -- the fuel that is left behind the white space, and behind the token
  rw [hrest, length_append, length_append] at hf
  obtain ⟨k, rfl⟩ : ∃ k, fuel = (textOf (before lx m st u).1).length + (k + 1) :=
    ⟨fuel - (textOf (before lx m st u).1).length - 1, by omega⟩
  have hread : respell lx ((textOf (before lx m st u).1).length + (k + 1))
      (textOf (emitLoop lx m st (u :: us))) = some ((u :: us).map Tok.text) ↔
      Stops lx u.text (textOf (emitLoop lx m ((before lx m st u).2.after u) us)) ∧
        respell lx k (textOf (emitLoop lx m ((before lx m st u).2.after u) us)) = some (us.map Tok.text) := by
    rw [hrest, respell_blank (before_blank st u)]
    exact respell_cons hu (emitLoop_ne_nil rfl hus) (no_comment hu rfl rfl hus) k _
  have hnext := ih u ((before lx m st u).2.after u) k hu hus rfl rfl (by omega)
  rw [hread, hnext, dotRun_cons, not_or]
  constructor
  · rintro ⟨hs, hno⟩
    have hnot := (stops_rest ht hp ho hu (hnext.2 hno).1).1 hs
    refine ⟨?_, hno⟩
    rintro ⟨h1, h2, had, hthird⟩
    exact hnot ⟨h1, h2, had, (third_dot rfl rfl h2 hus).2 hthird⟩
  rintro ⟨hnot, hno⟩
  refine ⟨(stops_rest ht hp ho hu (hnext.2 hno).1).2 ?_, hno⟩
  rintro ⟨h1, h2, had, h46⟩
  exact hnot ⟨h1, h2, had, (third_dot rfl rfl h2 hus).1 h46⟩

/-- **What the preprocessor writes reads back as the tokens it wrote just if there is no run of dots among
them.** -/
theorem relexes_iff (lx : Lang) (m : OutMode) (mkFile : Option (List UInt8)) (mkLine : Int) (ts : List Tok)
    (hv : ∀ t ∈ ts, Valid lx t) : Relexes lx m mkFile mkLine ts ↔ ¬ DotRun ts := by
  unfold Relexes tokenize emit
  show respell lx _ _ = _ ↔ _
  cases ts with
  | nil => exact iff_of_true rfl (by simp [DotRun])
  | cons t ts => ?_
  have ht := hv t mem_cons_self
  have hts : ∀ u ∈ ts, Valid lx u := (forall_mem_cons.1 hv).2
  rw [emitLoop_cons ht]
  generalize hst : (before lx m ⟨mkFile, mkLine, false, none⟩ t).2.after t = st
  have hp : st.prev = some t.text := by rw [← hst]; rfl
  have ho : st.lineOpen = true := by rw [← hst]; rfl
  have hpos : 0 < t.text.length := length_pos_iff.2 ht.whole.ne_nil
  rw [length_append, Nat.add_assoc, respell_blank (before_blank _ t), map_cons,
    respell_cons ht (emitLoop_ne_nil ho hts) (no_comment ht hp ho hts)]
  exact respell_rest ts t st _ ht hts hp ho (by rw [length_append]; omega)

end

/-- A token as it comes out of a macro, without white space in front of it. -/
def plainTok (kind : Kind) (text : List UInt8) : Tok := ⟨kind, text, false, false, false, 0, 0⟩

/-- `a`, `+`, `+` and `.5`, written as `a+ +.5`, read back. -/
theorem relexes_iff_plus : Relexes gnu17 ⟨true, [], 0⟩ none 1
      [plainTok .ident [97], plainTok .punct [43], plainTok .punct [43], plainTok .num [46, 53]] :=
  (relexes_iff gnu17 ⟨true, [], 0⟩ none 1 _ (by
    intro t ht
    simp only [mem_cons, not_mem_nil, or_false] at ht
    rcases ht with rfl | rfl | rfl | rfl <;>
      exact ⟨by decide, by simp [plainTok, byteAt], by decide⟩)).2 (by simp [DotRun, plainTok])

/-- Three dots, as `.E.E.` with an empty macro `E` leaves them, are written without a space and read back as
an ellipsis. -/
theorem dots_merge :
    (∀ t ∈ [plainTok .punct [46], plainTok .punct [46], plainTok .punct [46]], Valid gnu17 t) ∧
      textOf (emit gnu17 ⟨true, [], 0⟩ none 1
        [plainTok .punct [46], plainTok .punct [46], plainTok .punct [46]]) = [46, 46, 46, 10] ∧
      ¬ Relexes gnu17 ⟨true, [], 0⟩ none 1
        [plainTok .punct [46], plainTok .punct [46], plainTok .punct [46]] := by
  refine ⟨?_, by decide, by unfold Relexes; decide⟩
  intro t ht
  simp only [mem_cons, not_mem_nil, or_false, or_self] at ht
  subst ht
  exact ⟨by decide, by simp [plainTok, byteAt], by decide⟩

end Embedded.Toolchain.Cpp
