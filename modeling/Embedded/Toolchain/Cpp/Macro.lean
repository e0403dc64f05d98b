import Embedded.Lib.Fuel
import Embedded.Toolchain.Cpp.Lex

/-! # Macro expansion (`toolchain/cpp/cpp.c`)

A token carries the set of macros it must not be expanded by. `expand` replaces every macro invocation of a
token list and scans the replacement again with what follows; `subst` puts the arguments into a body, with
`#` and `##`, and expands an argument on its own when it is needed.

A token list is what stands before its `TEOF`, and a missing list (`NULL`) is the empty one. The dynamic
builtins, `_Pragma` and the `__has_*` operators of `expand` are left aside, so the macro table does not
change while a list is expanded. -/

namespace Embedded.Toolchain.Cpp

/-! ## Hide sets -/

/-- `Hide`: the names of macros. -/
abbrev Hide := List (List UInt8)

/-- `hide_has`. -/
def hideHas (h : Hide) (n : List UInt8) : Bool := h.contains n

/-- `hide_add`. -/
def hideAdd (h : Hide) (n : List UInt8) : Hide := n :: h

/-- `hide_union`. -/
def hideUnion : Hide → Hide → Hide
  | a, [] => a
  | a, n :: b => hideUnion (if hideHas a n then a else hideAdd a n) b

/-- `hide_inter`. -/
def hideInter (a b : Hide) : Hide :=
  a.foldl (fun r n => if hideHas b n then hideAdd r n else r) []

/-- `Tok`, with its hide set. -/
structure HideTok extends Tok where
  hide : Hide

/-- `newtok`. -/
def newtok (kind : Kind) (text : List UInt8) : HideTok :=
  ⟨⟨kind, text, false, false, false, 0, 0⟩, []⟩

/-- `copy_body`. -/
def copyBody (body : List HideTok) (hs : Hide) : List HideTok :=
  body.map fun t => { t with hide := hideUnion t.hide hs }

/-! ## Macros and what can go wrong -/

structure Macro where
  name : List UInt8
  func : Bool
  variadic : Bool
  params : List (List UInt8)
  body : List HideTok

def Macro.nparams (m : Macro) : Nat := m.params.length

/-- `macro_find`: `macros` lists the macros, the newest first. -/
def macroFind (macros : List Macro) (n : List UInt8) : Option Macro := macros.find? fun m => m.name = n

/-- What `die` is called with. -/
inductive Error
  /-- "unterminated macro argument list" -/
  | unterminatedArgs
  /-- "macro \"%s\": too many arguments (%d)" -/
  | tooManyArgs (name : List UInt8) (nargs : Nat)
  /-- "macro \"%s\" passed %d arguments, but takes just %d" -/
  | passedArgs (name : List UInt8) (nargs nparams : Nat)
  /-- "macro \"%s\" requires %d arguments, but only %d given" -/
  | requiresArgs (name : List UInt8) (nparams nargs : Nat)
  /-- "'##' cannot appear at either end of a macro expansion" -/
  | pasteAtEnd
  /-- "pasting \"%s\" and \"%s\" does not give a valid preprocessing token" -/
  | badPaste (a b : List UInt8)
  /-- "macro '%s': too many parameters" -/
  | tooManyParams (name : List UInt8)
  /-- "attempt to use poisoned \"%s\"" -/
  | usePoisoned (name : List UInt8)
  /-- "unterminated comment", from the lexer -/
  | comment
deriving DecidableEq

/-- What expansion reads besides the macros: the language of the lexer, `asm_mode` and `poisoned`. -/
structure Options where
  lx : Lang
  asmMode : Bool
  poisoned : List (List UInt8)

/-! ## Arguments -/

/-- What `read_args` gives back: the arguments, the `)` that ends them and what follows it. -/
structure ArgList where
  args : List (List HideTok)
  rparen : HideTok
  behind : List HideTok

/-- The loop of `read_args`: the argument list ends at the `)` at depth 0; a comma at depth 0 ends an
argument, unless it is in the variadic one. `n` arguments are complete, `cur` is the one being read. -/
def readArgsLoop (variadic : Bool) (nparams : Nat) :
    Nat → Nat → List HideTok → List HideTok → Except Error ArgList
  | _, _, _, [] => .error .unterminatedArgs
  | depth, n, cur, t :: rest =>
    if depth = 0 ∧ t.text = [41] then .ok ⟨[cur], t, rest⟩
    else if depth = 0 ∧ t.text = [44] ∧ ¬ (variadic ∧ n + 1 = nparams) then
      (readArgsLoop variadic nparams 0 (n + 1) [] rest).map fun r =>
        { r with args := cur :: r.args }
    else
      let depth := if t.text = [40] then depth + 1 else depth
      let depth := if t.text = [41] then depth - 1 else depth
      readArgsLoop variadic nparams depth n (cur ++ [t]) rest

/-- `read_args`, from behind the `(` on. -/
def readArgs (variadic : Bool) (nparams : Nat) (toks : List HideTok) : Except Error ArgList :=
  readArgsLoop variadic nparams 0 0 [] toks

/-- The checks on the number of arguments: there is room for 64, and the macro takes so many. -/
def checkArgs (m : Macro) (args : List (List HideTok)) : Except Error Unit :=
  let nargs := args.length
  if 64 < nargs then .error (.tooManyArgs m.name nargs)
  else if m.variadic then
    if nargs + 1 < m.nparams then .error (.requiresArgs m.name (m.nparams - 1) nargs) else .ok ()
  else if nargs ≠ m.nparams ∧ ¬ (m.nparams = 0 ∧ args.map List.isEmpty = [true]) then
    if m.nparams < nargs then .error (.passedArgs m.name nargs m.nparams)
    else .error (.requiresArgs m.name m.nparams nargs)
  else .ok ()

/-! ## `#` and `##` -/

/-- What `stringize` writes for one token: in a string or character literal a quote and a backslash get a
backslash. -/
def stringizeTok (t : HideTok) : List UInt8 :=
  if t.kind = .str ∨ t.kind = .char then
    t.text.flatMap fun c => if c = 34 ∨ c = 92 then [92, c] else [c]
  else t.text

/-- `stringize`. -/
def stringize (arg : List HideTok) : HideTok :=
  let inner := arg.foldl
    (fun out t => out ++ (if t.space ∧ out ≠ [] then [32] else []) ++ stringizeTok t) []
  newtok .str (34 :: inner ++ [34])

/-- `paste`. The result has two tokens only in assembler mode. -/
def paste (po : Options) : Option HideTok → Option HideTok → Except Error (List HideTok)
  | none, none => .ok []
  | some a, none => .ok [a]
  | none, some b => .ok [b]
  | some a, some b =>
    match tokenize po.lx (a.text ++ b.text) with
    | none => .error .comment
    | some [r] => .ok [⟨{ r with bol := false, space := a.space }, []⟩]
    | some _ =>
      if po.asmMode then .ok [{ a with bol := false }, { b with space := false, bol := false }]
      else .error (.badPaste a.text b.text)

/-- `is_paste`. -/
def isPaste (t : HideTok) : Bool := t.kind = .punct && t.text = [35, 35]

/-- `param_index`. -/
def paramIndex (m : Macro) (t : HideTok) : Option Nat :=
  if t.kind = .ident then (List.range m.nparams).find? fun i => m.params[i]? = some t.text else none

/-- The last parameter of that name, which is the one the loops of `subst` find. -/
def paramLast (m : Macro) (text : List UInt8) : Option Nat :=
  (List.range m.nparams).reverse.find? fun i => m.params[i]? = some text

/-- `pi` of `subst`: the parameter that a body token names. -/
def bodyParam (m : Macro) (t : HideTok) : Option Nat :=
  if t.kind = .ident then paramLast m t.text else none

/-- `operand`. -/
def operand (m : Macro) (args : List (List HideTok)) (t : HideTok) : List HideTok :=
  match paramIndex m t with
  | none => [t]
  | some i => args.getD i []

/-- `vaop`: the operand is the variadic parameter. -/
def isVaop (m : Macro) (rhs : HideTok) : Bool :=
  m.variadic && match paramIndex m rhs with
    | some i => i + 1 = m.nparams
    | none => m.nparams = 0

/-- The loop over a `##` chain, from behind an operand on: `acc` is the last token so far. Returns what is
emitted and the body behind the chain. -/
def pasteChain (po : Options) (m : Macro) (args : List (List HideTok)) : Option HideTok → List HideTok →
    Except Error (List HideTok × List HideTok)
  | acc, [] => .ok (acc.toList, [])
  | acc, [p] => if isPaste p then .error .pasteAtEnd else .ok (acc.toList, [p])
  | acc, p :: rhs :: rest =>
    if isPaste p then do
      let r := operand m args rhs
      if isVaop m rhs ∧ acc.map (·.text) = some [44] then
        -- `, ## __VA_ARGS__`: an omitted variadic argument drops the comma
        let omitted := args.length < m.nparams ∨ m.nparams = 1 ∧ r = []
        let more ← pasteChain po m args r.getLast? rest
        pure ((if omitted then [] else acc.toList) ++ r.dropLast ++ more.1, more.2)
      else
        let p ← paste po acc r.head?
        -- the last token pastes onto the next operand, the others pass through
        let toks := p ++ r.tail
        let more ← pasteChain po m args toks.getLast? rest
        pure (toks.dropLast ++ more.1, more.2)
    else .ok (acc.toList, p :: rhs :: rest)

/-! ## Substitution -/

/-- A token list with the spacing of the place it is put at. -/
def spaced (space : Bool) : List HideTok → List HideTok
  | [] => []
  | t :: ts => { t with space := space } :: ts

/-- `EMIT`: a token made without a line takes the invocation's. -/
def emitted (line : Int) (t : HideTok) : HideTok := if t.line = 0 then { t with line := line } else t

/-- `__VA_ARGS__` -/
def vaArgs : List UInt8 := [95, 95, 86, 65, 95, 65, 82, 71, 83, 95, 95]

/-- The arguments expanded so far, `pre` and `have`. -/
abbrev Pre := Nat → Option (List HideTok)

/-- The expansion of argument `i`, made when first needed. -/
def expandedArg (expand : List HideTok → Except (Stop Error) (List HideTok))
    (args : List (List HideTok)) (pre : Pre) (i : Nat) : Except (Stop Error) (List HideTok) :=
  match pre i with
  | some a => .ok a
  | none => expand (copyBody (args.getD i []) [])

/-- The loop of `subst` over the body. -/
def substLoop (po : Options) (expand : List HideTok → Except (Stop Error) (List HideTok)) (m : Macro)
    (args : List (List HideTok)) (line : Int) : Nat → Pre → List HideTok →
    Except (Stop Error) (List HideTok)
  | 0, _, _ => .error .fuel
  | _ + 1, _, [] => .ok []
  | fuel + 1, pre, t :: rest =>
    if m.func ∧ t.text = [35] ∧ rest ≠ [] then
      -- `# param`
      let param := (rest.head?.map (·.text)).getD []
      let arg := ((paramLast m param).bind fun i => args[i]?).getD []
      ({ stringize arg with line := line } :: ·) <$>
        substLoop po expand m args line fuel pre rest.tail
    else if rest.head?.any isPaste then do
      let first := operand m args t
      let chain ← Stop.lift (pasteChain po m args first.getLast? rest)
      let group := (first.dropLast ++ chain.1).map (emitted line)
      (spaced t.space group ++ ·) <$> substLoop po expand m args line fuel pre chain.2
    else
      match bodyParam m t with
      | some i =>
        if i < args.length then
          if 64 ≤ i then .error (.die (.tooManyParams m.name))
          else do
            let a ← expandedArg expand args pre i
            (spaced t.space a ++ ·) <$>
              substLoop po expand m args line fuel (Function.update pre i (some a)) rest
        else substLoop po expand m args line fuel pre rest
      | none =>
        if m.variadic ∧ t.kind = .ident ∧ t.text = vaArgs then
          substLoop po expand m args line fuel pre rest
        else ({ t with line := line } :: ·) <$> substLoop po expand m args line fuel pre rest

/-- `subst`. -/
def subst (po : Options) (expand : List HideTok → Except (Stop Error) (List HideTok)) (m : Macro)
    (args : List (List HideTok)) (line : Int) : Except (Stop Error) (List HideTok) :=
  substLoop po expand m args line (m.body.length + 1) (fun _ => none) m.body

/-! ## Expansion -/

/-- The replacement where the name stood. -/
def placeAt (tok : HideTok) : List HideTok → List HideTok
  | [] => []
  | t :: ts => { t with space := tok.space, bol := tok.bol, col := tok.col } :: ts

/-- `expand`. -/
def expand (po : Options) (macros : List Macro) : Nat → List HideTok → Except (Stop Error) (List HideTok)
  | 0, _ => .error .fuel
  | _ + 1, [] => .ok []
  | fuel + 1, tok :: rest =>
    if tok.kind = .ident ∧ !hideHas tok.hide tok.text then
      if tok.text ∈ po.poisoned then .error (.die (.usePoisoned tok.text))
      else
        match macroFind macros tok.text with
        | none => (tok :: ·) <$> expand po macros fuel rest
        | some m =>
          if m.func then
            match rest with
            | [] => (tok :: ·) <$> expand po macros fuel rest
            | paren :: after =>
              if paren.text = [40] then do
                let r ← Stop.lift (readArgs m.variadic m.nparams after)
                Stop.lift (checkArgs m r.args)
                let rep ← subst po (expand po macros fuel) m r.args tok.line
                let hs := hideAdd (hideInter tok.hide r.rparen.hide) m.name
                expand po macros fuel (placeAt tok (copyBody rep hs) ++ r.behind)
              else (tok :: ·) <$> expand po macros fuel rest
          else do
            let rep ← subst po (expand po macros fuel) m [] tok.line
            let hs := hideAdd tok.hide m.name
            expand po macros fuel (placeAt tok (copyBody rep hs) ++ rest)
    else (tok :: ·) <$> expand po macros fuel rest

end Embedded.Toolchain.Cpp
