import Embedded.Lib.HideSets
import Embedded.Toolchain.Cpp.Macro
import Embedded.Toolchain.Cpp.Stops

/-! # Macro expansion terminates (`toolchain/cpp/cpp.c`)

`expand` runs on fuel. More fuel does not change a result (`expand_agrees`), and every token list has
enough fuel: what `expand` goes on with, and each argument it expands on the way, is a step of rescanning
with hide sets, which comes to an end by `HideSets.wellFounded_reduces`. All that matters about `subst` is
that it expands nothing but arguments; whatever it makes of them, `copy_body` hides the macro, and what the
name and the `)` both hide, in every token of the replacement. -/

namespace Embedded.Toolchain.Cpp

open List

/-! ## Hide sets -/

variable {n : List UInt8} {tok : HideTok} {rest : List HideTok}

theorem mem_hideUnion {a b : Hide} : n ∈ hideUnion a b ↔ n ∈ a ∨ n ∈ b := by
  induction b generalizing a with
  | nil => simp [hideUnion]
  | cons m b ih => ?_
  rw [hideUnion, ih, mem_cons]
  split
  next h =>
    have hm : m ∈ a := by simpa [hideHas] using h
    constructor
    · tauto
    rintro (h | rfl | h)
    · exact .inl h
    · exact .inl hm
    exact .inr h
  · rw [hideAdd, mem_cons]
    tauto

theorem mem_hideInter {a b : Hide} : n ∈ hideInter a b ↔ n ∈ a ∧ n ∈ b := by
  have hloop : ∀ r : Hide, n ∈ a.foldl (fun r n => if hideHas b n then hideAdd r n else r) r ↔
      n ∈ r ∨ n ∈ a ∧ n ∈ b := by
    induction a with
    | nil => simp
    | cons m a ih => ?_
    intro r
    rw [foldl_cons, ih, mem_cons]
    split
    next h =>
      have hm : m ∈ b := by simpa [hideHas] using h
      rw [hideAdd, mem_cons]
      constructor
      · rintro ((rfl | h) | h)
        · exact .inr ⟨.inl rfl, hm⟩
        · exact .inl h
        exact .inr ⟨.inr h.1, h.2⟩
      tauto
    next h =>
    have hm : m ∉ b := by simpa [hideHas] using h
    constructor
    · tauto
    rintro (h | ⟨rfl | h, hb⟩)
    · exact .inl h
    · exact absurd hb hm
    exact .inr ⟨h, hb⟩
  rw [hideInter, hloop]
  simp

@[simp] theorem copyBody_nil (body : List HideTok) : copyBody body [] = body := by
  simp [copyBody, hideUnion]

theorem hide_of_mem_replacement {t : HideTok} {rep : List HideTok} {hs : Hide}
    (ht : t ∈ placeAt tok (copyBody rep hs)) (hn : n ∈ hs) : n ∈ t.hide := by
  cases rep with
  | nil => simp [copyBody, placeAt] at ht
  | cons u us => ?_
  have hu : ∃ v : HideTok, t.hide = hideUnion v.hide hs := by
    simp only [copyBody, map_cons, placeAt, mem_cons, mem_map] at ht
    rcases ht with rfl | ⟨v, -, rfl⟩
    · exact ⟨u, rfl⟩
    exact ⟨v, rfl⟩
  obtain ⟨v, hv⟩ := hu
  rw [hv]
  exact mem_hideUnion.2 (.inr hn)

/-! ## Arguments -/

/-- The arguments are parts of what stands before the `)`. -/
theorem readArgsLoop_ok {variadic : Bool} {nparams : Nat} {toks : List HideTok} {depth n : Nat}
    {cur : List HideTok} {r : ArgList} (h : readArgsLoop variadic nparams depth n cur toks = .ok r) :
    ∃ inner, toks = inner ++ r.rparen :: r.behind ∧ ∀ a ∈ r.args, a.Sublist (cur ++ inner) := by
  induction toks generalizing depth n cur r with
  | nil => simp [readArgsLoop] at h
  | cons t rest ih => ?_
  rw [readArgsLoop] at h
  split at h
  · cases h
    exact ⟨[], rfl, by simp⟩
  split at h
  · cases hr : readArgsLoop variadic nparams 0 (n + 1) [] rest with
    | error e => simp [hr, Except.map] at h
    | ok r' => ?_
    obtain ⟨inner, hrest, hargs⟩ := ih hr
    simp only [hr, Except.map] at h
    cases h
    refine ⟨t :: inner, by rw [hrest]; rfl, fun a ha => ?_⟩
    rcases mem_cons.1 ha with rfl | ha
    · exact sublist_append_left _ _
    exact ((hargs a ha).trans (sublist_cons_self t inner)).trans (sublist_append_right _ _)
  obtain ⟨inner, hrest, hargs⟩ := ih h
  refine ⟨t :: inner, by rw [hrest]; rfl, fun a ha => ?_⟩
  simpa using hargs a ha

/-! ## The lexer under `##` -/

theorem commentEnd_length : ∀ {p : List UInt8} {r : List UInt8 × List UInt8}, commentEnd p = some r →
    r.2.length ≤ p.length
  | [], _, h => by cases h
  | [_], _, h => by cases h
  | c :: d :: rest, r, h => by
    rw [commentEnd] at h
    split at h
    · cases h
      simp only [length_cons]
      omega
    obtain ⟨r', hr', rfl⟩ := Option.map_eq_some_iff.1 h
    have := commentEnd_length hr'
    simp only [length_cons] at this ⊢
    omega

/-- Every round of the lexer takes at least one byte, so its fuel is never used up. -/
theorem tokenizeLoop_fuel {lx : Lang} {n k : Nat} {p : List UInt8} {bol cbol space : Bool} {col : Nat}
    (hn : p.length < n) (hk : p.length < k) :
    tokenizeLoop lx n p bol cbol space col = tokenizeLoop lx k p bol cbol space col := by
  induction n generalizing k p bol cbol space col with
  | zero => omega
  | succ n ih => ?_
  cases k with
  | zero => omega
  | succ k => ?_
  -- what the round goes on with is shorter than `p`
  have hgo : ∀ (q : List UInt8) (b c s : Bool) (l : Nat), q.length < p.length →
      tokenizeLoop lx n q b c s l = tokenizeLoop lx k q b c s l :=
    fun q b c s l hq => ih (by omega) (by omega)
  rw [tokenizeLoop, tokenizeLoop]
  by_cases hp : p = []
  · rw [if_pos hp, if_pos hp]
  have hpos : 0 < p.length := length_pos_iff.2 hp
  have hdrop : ∀ i, 0 < i → (p.drop i).length < p.length := fun i hi => by
    rw [length_drop]
    omega
  rw [if_neg hp, if_neg hp]
  split
  · exact hgo _ _ _ _ _ (hdrop 1 Nat.one_pos)
  next =>
  split
  · exact hgo _ _ _ _ _ (hdrop 1 Nat.one_pos)
  next =>
  split
  next hslash =>
    refine hgo _ _ _ _ _ ?_
    obtain ⟨c, q, rfl⟩ := exists_cons_of_ne_nil hp
    have hc : c = 47 := hslash.2.1
    subst hc
    rw [dropWhile_cons_of_pos (by decide)]
    exact Nat.lt_succ_of_le (dropWhile_sublist _).length_le
  next =>
  split
  · cases hc : commentEnd (p.drop 2) with
    | none => rfl
    | some r => ?_
    have hr : r.2.length < p.length := Nat.lt_of_le_of_lt (commentEnd_length hc) (hdrop 2 Nat.two_pos)
    simp only [Option.bind_some]
    split
    · exact hgo _ _ _ _ _ hr
    exact hgo _ _ _ _ _ hr
  simp only
  rw [hgo _ _ _ _ _ (hdrop _ (lexLen_pos hp))]

/-! ## Substitution -/

theorem bind_eq_ok {ε α β : Type} {x : Except ε α} {f : α → Except ε β} {b : β} (h : x >>= f = .ok b) :
    ∃ a, x = .ok a ∧ f a = .ok b := by
  cases x with
  | error e => cases h
  | ok a => exact ⟨a, rfl, h⟩

/-- A chain leaves no more of the body than it was given. -/
theorem pasteChain_length {po : Options} {m : Macro} {args : List (List HideTok)} :
    ∀ (body : List HideTok) {acc : Option HideTok} {r : List HideTok × List HideTok},
      pasteChain po m args acc body = .ok r → r.2.length ≤ body.length
  | [], _, _, h => by
    cases h
    simp
  | [p], _, _, h => by
    rw [pasteChain] at h
    split at h
    · cases h
    cases h
    simp
  | p :: rhs :: rest, _, _, h => by
    -- what is left comes from the rest of the chain, or is all of the body
    have hmore : ∀ acc more, pasteChain po m args acc rest = .ok more →
        more.2.length ≤ (p :: rhs :: rest).length := by
      intro acc more hmore
      have := pasteChain_length rest hmore
      simp only [length_cons]
      omega
    rw [pasteChain] at h
    split at h
    · split at h
      · obtain ⟨more, hm, h⟩ := bind_eq_ok h
        cases h
        exact hmore _ more hm
      obtain ⟨_, -, h⟩ := bind_eq_ok h
      obtain ⟨more, hm, h⟩ := bind_eq_ok h
      cases h
      exact hmore _ more hm
    cases h
    simp

section

variable {po : Options} {m : Macro} {args : List (List HideTok)} {line : Int}
  {ex ex' : List HideTok → Except (Stop Error) (List HideTok)}

/-- `subst` comes to an end when the expansion of every argument does. -/
theorem substLoop_ran (hex : ∀ a ∈ args, Ran (ex a)) {fuel : Nat} {pre : Pre} {body : List HideTok}
    (hfuel : body.length < fuel) : Ran (substLoop po ex m args line fuel pre body) := by
  induction fuel generalizing pre body with
  | zero => omega
  | succ fuel ih => ?_
  cases body with
  | nil => exact .ok _
  | cons t rest => ?_
  rw [length_cons] at hfuel
  have hrest : ∀ pre, Ran (substLoop po ex m args line fuel pre rest) := fun pre => ih (by omega)
  rw [substLoop]
  split
  · have htail : rest.tail.length < fuel := by
      rw [length_tail]
      omega
    exact (ih htail).map _
  next =>
  split
  · refine (Ran.lift _).bind fun chain hchain => (ih ?_).map _
    have := pasteChain_length _ (Stop.eq_ok_of_lift hchain)
    omega
  next =>
  split
  next i _ =>
    split
    next hi =>
      split
      · exact .die _
      refine Ran.bind ?_ fun a _ => (hrest _).map _
      rw [expandedArg]
      split
      · exact .ok _
      rw [copyBody_nil]
      exact hex _ (by simp [getD_eq_getElem?_getD, hi])
    · exact hrest _
  · split
    · exact hrest _
    exact (hrest _).map _

theorem substLoop_agrees (hex : ∀ l, Agrees (ex l) (ex' l)) (fuel : Nat) (pre : Pre) (body : List HideTok) :
    Agrees (substLoop po ex m args line fuel pre body) (substLoop po ex' m args line fuel pre body) := by
  induction fuel generalizing pre body with
  | zero => exact .out _
  | succ fuel ih => ?_
  cases body with
  | nil => exact .refl _
  | cons t rest => ?_
  rw [substLoop, substLoop]
  split
  · exact (ih _ _).map _
  next =>
  split
  · exact .bind (.refl _) fun chain => (ih _ _).map _
  next =>
  split
  next i _ =>
    split
    · split
      · exact .refl _
      refine .bind ?_ fun a => (ih _ _).map _
      rw [expandedArg, expandedArg]
      split
      · exact .refl _
      exact hex _
    exact ih _ _
  · split
    · exact ih _ _
    exact (ih _ _).map _

theorem subst_ran (hex : ∀ a ∈ args, Ran (ex a)) : Ran (subst po ex m args line) :=
  substLoop_ran hex (Nat.lt_succ_self _)

theorem subst_agrees (hex : ∀ l, Agrees (ex l) (ex' l)) :
    Agrees (subst po ex m args line) (subst po ex' m args line) :=
  substLoop_agrees hex _ _ _

end

/-! ## One round of the loop -/

/-- An invocation at the front of a token list: the macro, its arguments, and the hide set of the
replacement. The invocation ends in `last`, which is the `)` or, for an object-like macro, the name. -/
structure Invocation (macros : List Macro) (tok : HideTok) (rest : List HideTok) where
  m : Macro
  args : List (List HideTok)
  run : List HideTok
  last : HideTok
  behind : List HideTok
  hs : Hide
  toks_eq : tok :: rest = run ++ last :: behind
  head_eq : (run ++ [last]).head? = some tok
  name_mem : tok.text ∈ macros.map (·.name)
  name_free : tok.text ∉ tok.hide
  name_hidden : tok.text ∈ hs
  both_hidden : ∀ n ∈ tok.hide, n ∈ last.hide → n ∈ hs
  args_part : ∀ a ∈ args, a.Sublist run

/-- What the loop goes on with when the invocation is replaced by `rep`. -/
def Invocation.next {macros : List Macro} {tok : HideTok} {rest : List HideTok}
    (inv : Invocation macros tok rest) (rep : List HideTok) : List HideTok :=
  placeAt tok (copyBody rep inv.hs) ++ inv.behind

section

variable {po : Options} {macros : List Macro}

theorem macroFind_name {m : Macro} (h : macroFind macros n = some m) :
    m.name = n ∧ n ∈ macros.map (·.name) := by
  have hname : m.name = n := by simpa using find?_some h
  exact ⟨hname, mem_map.2 ⟨m, mem_of_find?_eq_some h, hname⟩⟩

/-- The invocation of an object-like macro. -/
def objectInvocation {tok : HideTok} (rest : List HideTok) {m : Macro}
    (hfree : tok.text ∉ tok.hide) (hm : macroFind macros tok.text = some m) :
    Invocation macros tok rest where
  m := m
  args := []
  run := []
  last := tok
  behind := rest
  hs := hideAdd tok.hide m.name
  toks_eq := rfl
  head_eq := rfl
  name_mem := (macroFind_name hm).2
  name_free := hfree
  name_hidden := by simp [hideAdd, (macroFind_name hm).1]
  both_hidden := fun n hn _ => mem_cons_of_mem _ hn
  args_part := by simp

/-- The invocation of a function-like macro with the arguments `r`. -/
theorem exists_callInvocation (paren : HideTok) {after : List HideTok} {m : Macro} {r : ArgList}
    (hfree : tok.text ∉ tok.hide) (hm : macroFind macros tok.text = some m)
    (hr : readArgs m.variadic m.nparams after = .ok r) :
    ∃ inv : Invocation macros tok (paren :: after), inv.m = m ∧ inv.args = r.args ∧
      inv.hs = hideAdd (hideInter tok.hide r.rparen.hide) m.name ∧ inv.behind = r.behind := by
  obtain ⟨inner, hafter, hargs⟩ := readArgsLoop_ok hr
  refine ⟨{ m := m, args := r.args, run := tok :: paren :: inner, last := r.rparen, behind := r.behind,
            hs := hideAdd (hideInter tok.hide r.rparen.hide) m.name, toks_eq := ?_, head_eq := rfl,
            name_mem := (macroFind_name hm).2, name_free := hfree,
            name_hidden := by simp [hideAdd, (macroFind_name hm).1],
            both_hidden := fun n hn hlast => mem_cons_of_mem _ (mem_hideInter.2 ⟨hn, hlast⟩),
            args_part := fun a ha => ?_ }, rfl, rfl, rfl, rfl⟩
  · rw [hafter]
    rfl
  exact (hargs a ha).trans ((sublist_cons_self _ _).trans (sublist_cons_self _ _))

/-- **One round of `expand`**: it dies, it passes the token on, or it replaces an invocation. -/
theorem expand_cons (po : Options) (macros : List Macro) (tok : HideTok) (rest : List HideTok) :
    (∃ e, ∀ fuel, expand po macros (fuel + 1) (tok :: rest) = .error (.die e)) ∨
    (∀ fuel, expand po macros (fuel + 1) (tok :: rest) = (tok :: ·) <$> expand po macros fuel rest) ∨
    ∃ inv : Invocation macros tok rest, ∀ fuel, expand po macros (fuel + 1) (tok :: rest) =
      subst po (expand po macros fuel) inv.m inv.args tok.line >>=
        fun rep => expand po macros fuel (inv.next rep) := by
  by_cases hid : tok.kind = .ident ∧ !hideHas tok.hide tok.text
  case neg => exact .inr (.inl fun fuel => by rw [expand, if_neg hid])
  have hfree : tok.text ∉ tok.hide := by simpa [hideHas] using hid.2
  by_cases hpoison : tok.text ∈ po.poisoned
  case pos => exact .inl ⟨_, fun fuel => by rw [expand, if_pos hid, if_pos hpoison]⟩
  cases hm : macroFind macros tok.text with
  | none => exact .inr (.inl fun fuel => by rw [expand.eq_3, if_pos hid, if_neg hpoison, hm])
  | some m => ?_
  by_cases hfunc : m.func = true
  case neg =>
    refine .inr (.inr ⟨objectInvocation rest hfree hm, fun fuel => ?_⟩)
    rw [expand, if_pos hid, if_neg hpoison, hm]
    simp only [if_neg hfunc]
    rfl
  cases rest with
  | nil =>
    refine .inr (.inl fun fuel => ?_)
    rw [expand, if_pos hid, if_neg hpoison, hm]
    simp only [if_pos hfunc]
  | cons paren after => ?_
  by_cases hparen : paren.text = [40]
  case neg =>
    refine .inr (.inl fun fuel => ?_)
    rw [expand, if_pos hid, if_neg hpoison, hm]
    simp only [if_pos hfunc, if_neg hparen]
  have hexp : ∀ fuel, expand po macros (fuel + 1) (tok :: paren :: after) =
      Stop.lift (readArgs m.variadic m.nparams after) >>= fun r =>
        Stop.lift (checkArgs m r.args) >>= fun _ =>
          subst po (expand po macros fuel) m r.args tok.line >>= fun rep =>
            expand po macros fuel (placeAt tok
              (copyBody rep (hideAdd (hideInter tok.hide r.rparen.hide) m.name)) ++ r.behind) := by
    intro fuel
    rw [expand, if_pos hid, if_neg hpoison, hm]
    simp only [if_pos hfunc, if_pos hparen]
  cases hr : readArgs m.variadic m.nparams after with
  | error e => exact .inl ⟨e, fun fuel => by rw [hexp, hr, Stop.lift_error_bind]⟩
  | ok r => ?_
  cases hc : checkArgs m r.args with
  | error e =>
    exact .inl ⟨e, fun fuel => by rw [hexp, hr, Stop.lift_ok_bind, hc, Stop.lift_error_bind]⟩
  | ok u => ?_
  obtain ⟨inv, h1, h2, h3, h4⟩ := exists_callInvocation paren hfree hm hr
  refine .inr (.inr ⟨inv, fun fuel => ?_⟩)
  rw [hexp, hr, Stop.lift_ok_bind, hc, Stop.lift_ok_bind]
  simp only [Invocation.next, h1, h2, h3, h4]

/-! ## Termination -/

theorem expand_agrees {n k : Nat} (h : n ≤ k) (toks : List HideTok) :
    Agrees (expand po macros n toks) (expand po macros k toks) := by
  refine Agrees.of_succ (fun n => expand po macros n toks) (fun n => ?_) h
  induction n generalizing toks with
  | zero => exact .out _
  | succ n ih => ?_
  cases toks with
  | nil => exact .refl _
  | cons tok rest => ?_
  rcases expand_cons po macros tok rest with ⟨e, he⟩ | he | ⟨inv, he⟩
  · simp only [he]
    exact .refl _
  · simp only [he]
    exact (ih rest).map _
  simp only [he]
  exact (subst_agrees ih).bind fun rep => ih _

/-- Rescanning as the abstract rewriting: a token names a rule by its text. -/
abbrev Rescans (macros : List Macro) : List HideTok → List HideTok → Prop :=
  HideSets.Reduces (fun t : HideTok => t.text) (fun t => {n | n ∈ t.hide})
    (macros.map (·.name)).toFinset

theorem wellFounded_rescans (macros : List Macro) : WellFounded (Rescans macros) :=
  HideSets.wellFounded_reduces _ _ _

theorem Invocation.rescans_next (inv : Invocation macros tok rest)
    (rep : List HideTok) : Rescans macros (inv.next rep) (tok :: rest) := by
  rw [inv.toks_eq]
  refine .replace inv.head_eq (by simpa using inv.name_mem) inv.name_free fun t ht => ⟨?_, ?_⟩
  · exact hide_of_mem_replacement ht inv.name_hidden
  rintro n ⟨hn, hlast⟩
  exact hide_of_mem_replacement ht (inv.both_hidden n hn hlast)

theorem Invocation.rescans_arg {a : List HideTok} (inv : Invocation macros tok rest)
    (ha : a ∈ inv.args) : Rescans macros a (tok :: rest) := by
  rw [inv.toks_eq]
  refine .part ((inv.args_part a ha).trans (sublist_append_left _ _)) ?_
  have := (inv.args_part a ha).length_le
  simp only [length_append, length_cons]
  omega

/-- Enough fuel for every list of a finite family. -/
theorem exists_fuel_forall {lists : List (List HideTok)} (h : ∀ a ∈ lists, ∃ n, Ran (expand po macros n a)) :
    ∃ n, ∀ a ∈ lists, Ran (expand po macros n a) := by
  induction lists with
  | nil => exact ⟨0, by simp⟩
  | cons a as ih => ?_
  obtain ⟨n, hn⟩ := h a (by simp)
  obtain ⟨k, hk⟩ := ih fun b hb => h b (by simp [hb])
  refine ⟨max n k, fun b hb => ?_⟩
  rcases mem_cons.1 hb with rfl | hb
  · exact (expand_agrees (Nat.le_max_left n k) _).ran hn
  · exact (expand_agrees (Nat.le_max_right n k) _).ran (hk b hb)

/-- An invocation is expanded with some fuel when its arguments and what it leads to are. -/
theorem Invocation.exists_fuel (inv : Invocation macros tok rest)
    (hargs : ∀ a ∈ inv.args, ∃ n, Ran (expand po macros n a))
    (hnext : ∀ rep, ∃ n, Ran (expand po macros n (inv.next rep))) :
    ∃ n, Ran (subst po (expand po macros n) inv.m inv.args tok.line >>=
      fun rep => expand po macros n (inv.next rep)) := by
  obtain ⟨n, hn⟩ := exists_fuel_forall hargs
  have hsub : Ran (subst po (expand po macros n) inv.m inv.args tok.line) := subst_ran hn
  cases hrep : subst po (expand po macros n) inv.m inv.args tok.line with
  | error e =>
    refine ⟨n, hsub.bind fun rep h => ?_⟩
    rw [hrep] at h
    cases h
  | ok rep => ?_
  obtain ⟨k, hk⟩ := hnext rep
  -- with the larger fuel the arguments still expand to the same replacement
  have hsame : subst po (expand po macros (max n k)) inv.m inv.args tok.line = .ok rep := by
    rw [subst_agrees (fun l => expand_agrees (Nat.le_max_left n k) l) hsub, hrep]
  refine ⟨max n k, ?_⟩
  rw [hsame]
  exact (expand_agrees (Nat.le_max_right n k) _).ran hk

theorem exists_fuel (po : Options) (macros : List Macro) (toks : List HideTok) : ∃ n, Ran (expand po macros n toks) := by
  induction toks using (wellFounded_rescans macros).induction with
  | _ toks ih =>
    cases toks with
    | nil => exact ⟨1, .ok _⟩
    | cons tok rest => ?_
    rcases expand_cons po macros tok rest with ⟨e, he⟩ | he | ⟨inv, he⟩
    · exact ⟨1, by rw [he]; exact .die e⟩
    · obtain ⟨n, hn⟩ := ih rest (.part (sublist_cons_self _ _) (Nat.lt_succ_self _))
      exact ⟨n + 1, by rw [he]; exact hn.map _⟩
    obtain ⟨n, hn⟩ := inv.exists_fuel (fun a ha => ih a (inv.rescans_arg ha))
      fun rep => ih _ (inv.rescans_next rep)
    exact ⟨n + 1, by rw [he]; exact hn⟩

end

/-- **Macro expansion terminates**: whatever the macros are and whatever the list, from some fuel on
`expand` returns, and always the same; and the lexer that `##` calls does not run out of its own fuel on
any spelling. -/
theorem expand_terminates (po : Options) (macros : List Macro) (toks : List HideTok) :
    (∃ (n : Nat) (r : Except Error (List HideTok)), ∀ fuel, n ≤ fuel →
      expand po macros fuel toks = Stop.lift r) ∧
    ∀ (text : List UInt8) (fuel : Nat), text.length < fuel →
      tokenizeLoop po.lx fuel text true false false 0 = tokenize po.lx text := by
  refine ⟨?_, fun text fuel h => tokenizeLoop_fuel h (Nat.lt_succ_self _)⟩
  obtain ⟨n, hn⟩ := exists_fuel po macros toks
  obtain ⟨r, hr⟩ := hn.exists_lift
  exact ⟨n, r, fun fuel h => by rw [expand_agrees h toks hn, hr]⟩

/-- A name that an expansion ends in takes its arguments from behind it: with `f(a)` for `a*g` and `g(a)`
for `f(a)`, `f(2)(9)` is `2*9*g`. -/
example : let f : Macro := ⟨[102], true, false, [[97]],
      [newtok .ident [97], newtok .punct [42], newtok .ident [103]]⟩
    let g : Macro := ⟨[103], true, false, [[97]],
      [newtok .ident [102], newtok .punct [40], newtok .ident [97], newtok .punct [41]]⟩
    (expand ⟨gnu17, false, []⟩ [g, f] 20
      [newtok .ident [102], newtok .punct [40], newtok .num [50], newtok .punct [41],
        newtok .punct [40], newtok .num [57], newtok .punct [41]]).toOption.map (·.map (·.text)) =
      some [[50], [42], [57], [42], [103]] := by decide +kernel

end Embedded.Toolchain.Cpp
