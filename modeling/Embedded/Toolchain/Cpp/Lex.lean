import Mathlib.Tactic.Common

/-! # The lexer of the preprocessor (`toolchain/cpp/cpp.c`)

A text is the list of its bytes; what is read behind its end is the terminating zero. The language in
force decides what the lexer sees. `lex_len` gives the length and the kind of the token at the start of a
text, `tokenize` the tokens of the text, with where they stand. -/

namespace Embedded.Toolchain.Cpp

scoped instance textLawful : LawfulBEq (List UInt8) := inferInstance

inductive Kind
  | ident
  | num
  | str
  | char
  | punct
  | eof
  | line
deriving DecidableEq, Repr

/-- `lx`; trigraphs are gone before the lexer. -/
structure Lang where
  cxxComments : Bool
  digraphs : Bool
  uliterals : Bool
  rliterals : Bool
  u8chars : Bool
  extid : Bool

/-- What `lx` is without a `-std`. -/
def gnu17 : Lang := ⟨true, true, true, true, false, true⟩

/-- `p[i]`. -/
def byteAt (p : List UInt8) (i : Nat) : UInt8 := p.getD i 0

def isDigit (c : UInt8) : Bool := 48 ≤ c && c ≤ 57

def isAlpha (c : UInt8) : Bool := 65 ≤ c && c ≤ 90 || 97 ≤ c && c ≤ 122

def isXdigit (c : UInt8) : Bool := isDigit c || 65 ≤ c && c ≤ 70 || 97 ≤ c && c ≤ 102

/-! ## Identifiers and numbers -/

/-- A single byte that is an identifier character: a letter, a digit, `_`, `$` or, extended, any byte
from 0x80 on. -/
def identByte (lx : Lang) (c : UInt8) : Bool :=
  isAlpha c || isDigit c || c = 95 || c = 36 || lx.extid && 128 ≤ c

/-- The bytes of the universal character name at `p`: a backslash, `u` or `U`, and 4 or 8 digits. -/
def ucnLen (p : List UInt8) : Nat :=
  if byteAt p 0 = 92 ∧ (byteAt p 1 = 117 ∨ byteAt p 1 = 85) then
    let n := if byteAt p 1 = 117 then 4 else 8
    if (List.range n).all fun k => isXdigit (byteAt p (2 + k)) then 2 + n else 0
  else 0

/-- `ident_char`. -/
def identChar (lx : Lang) (p : List UInt8) : Nat :=
  if identByte lx (byteAt p 0) then 1 else if lx.extid then ucnLen p else 0

/-- `ident_start`. -/
def identStart (lx : Lang) (p : List UInt8) : Bool :=
  isAlpha (byteAt p 0) || byteAt p 0 = 95 || byteAt p 0 = 36 ||
    lx.extid && (128 ≤ byteAt p 0 || byteAt p 0 = 92 && (byteAt p 1 = 117 || byteAt p 1 = 85))

/-- A loop that goes on as long as `step`, which sees the byte before and the text, takes something; it
returns what is left. -/
def scanBy (step : UInt8 → List UInt8 → Nat) : Nat → UInt8 → List UInt8 → List UInt8
  | 0, _, p => p
  | fuel + 1, prev, p =>
    let k := step prev p
    if k = 0 then p else scanBy step fuel (byteAt p (k - 1)) (p.drop k)

/-- One round of the loop over a number: a sign behind an exponent letter, a dot, an identifier
character. -/
def numStep (lx : Lang) (prev : UInt8) (p : List UInt8) : Nat :=
  if (byteAt p 0 = 43 ∨ byteAt p 0 = 45) ∧ (prev = 101 ∨ prev = 69 ∨ prev = 112 ∨ prev = 80) then 1
  else if byteAt p 0 = 46 then 1
  else identChar lx p

/-! ## Literals -/

/-- `lit_prefix`: the length of the encoding prefix (`L`, `u`, `U`, `u8`, `R`) of a literal at `p`, and
whether the literal is raw. -/
def litPrefix (lx : Lang) (p : List UInt8) : Nat × Bool :=
  let n :=
    if byteAt p 0 = 76 then 1
    else if lx.uliterals ∧ byteAt p 0 = 117 ∧ byteAt p 1 = 56 then 2
    else if lx.uliterals ∧ (byteAt p 0 = 117 ∨ byteAt p 0 = 85) then 1
    else 0
  if lx.rliterals ∧ byteAt p n = 82 ∧ byteAt p (n + 1) = 34 then (n + 1, true)
  else if byteAt p n = 34 then (n, false)
  else if byteAt p n = 39 ∧ ¬ (n = 2 ∧ !lx.u8chars) ∧
      ¬ (n = 1 ∧ byteAt p 0 ≠ 76 ∧ !lx.uliterals) then (n, false)
  else (0, false)

/-- `pre` and `raw` of `lex_len`. -/
def encPrefix (lx : Lang) (p : List UInt8) : Nat × Bool :=
  if byteAt p 0 = 76 ∨ byteAt p 0 = 117 ∨ byteAt p 0 = 85 ∨ byteAt p 0 = 82 then litPrefix lx p
  else (0, false)

/-- The loop over a string or character literal with the quote `q`: up to the quote or the end of the
line. -/
def strScan (q : UInt8) : List UInt8 → List UInt8
  | [] => []
  | [c] => if c = q ∨ c = 10 then [c] else []
  | c :: d :: rest =>
    if c = q ∨ c = 10 then c :: d :: rest
    else if c = 92 ∧ d ≠ 10 then strScan q rest
    else strScan q (d :: rest)

/-- What is left behind a literal, from behind its opening quote on. -/
def litScan (q : UInt8) (p : List UInt8) : List UInt8 :=
  match strScan q p with
  | c :: rest => if c = q then rest else c :: rest
  | [] => []

/-- The search for the end of a raw string with the delimiter `d`. -/
def rawClose (d : List UInt8) : List UInt8 → List UInt8
  | [] => []
  | c :: rest =>
    if c = 41 ∧ (d ++ [34]).isPrefixOf rest then rest.drop (d.length + 1) else rawClose d rest

/-- The length of the delimiter of a raw string: up to the parenthesis, at most 16. -/
def delimLen (p : List UInt8) : Nat := min 16 (p.takeWhile fun c => c ≠ 40).length

/-- What is left behind a raw string, from behind its opening quote on; nothing when the text ends in the
delimiter, where the source goes on behind the terminating zero. -/
def rawScan (p : List UInt8) : Option (List UInt8) :=
  if p.length ≤ delimLen p then none
  else some (rawClose (p.take (delimLen p)) (p.drop (delimLen p + 1)))

/-! ## Punctuators -/

/-- `PUNCT`: `%:%:`, `<<=`, `>>=`, `...`, `->`, `++`, `--`, `<<`, `>>`, `<=`, `>=`, `==`, `!=`, `&&`,
`||`, `##`, `+=`, `-=`, `*=`, `/=`, `%=`, `&=`, `|=`, `^=`, `<:`, `:>`, `<%`, `%>` and `%:`. -/
def PUNCT : List (List UInt8) :=
  [[37, 58, 37, 58], [60, 60, 61], [62, 62, 61], [46, 46, 46], [45, 62], [43, 43], [45, 45], [60, 60],
    [62, 62], [60, 61], [62, 61], [61, 61], [33, 61], [38, 38], [124, 124], [35, 35], [43, 61], [45, 61],
    [42, 61], [47, 61], [37, 61], [38, 61], [124, 61], [94, 61], [60, 58], [58, 62], [60, 37], [37, 62],
    [37, 58]]

/-- `is_digraph`. -/
def isDigraph (s : List UInt8) : Bool :=
  s ∈ ([[60, 58], [58, 62], [60, 37], [37, 62], [37, 58], [37, 58, 37, 58]] : List (List UInt8))

/-- The length of the punctuator at `p`, one byte if there is none. -/
def punctLen (lx : Lang) (p : List UInt8) : Nat :=
  match PUNCT.find? fun s => s.isPrefixOf p && (lx.digraphs || !isDigraph s) with
  | some s => s.length
  | none => 1

/-- A continuation byte of UTF-8. -/
def isCont (c : UInt8) : Bool := c &&& 0xc0 = 0x80

/-! ## Tokens -/

/-- `lex_len`. -/
def lexLen (lx : Lang) (p : List UInt8) : Nat × Kind :=
  let c := byteAt p 0
  let pre := encPrefix lx p
  if pre.1 ≠ 0 ∧ pre.2 = true then
    match rawScan (p.drop (pre.1 + 1)) with
    | some rest => (p.length - rest.length, .str)
    | none => (p.length + 1, .str)
  else if pre.1 ≠ 0 ∨ c = 34 ∨ c = 39 then
    let q := byteAt p pre.1
    (p.length - (litScan q (p.drop (pre.1 + 1))).length, if q = 34 then .str else .char)
  else if isDigit c ∨ c = 46 ∧ isDigit (byteAt p 1) then
    (p.length - (scanBy (numStep lx) p.length c (p.drop 1)).length, .num)
  else if identStart lx p then
    let n := p.length - (scanBy (fun _ => identChar lx) p.length 0 p).length
    -- a lone backslash
    let n := if n = 0 then 1 else n
    (n, if n = 1 ∧ c = 92 then .punct else .ident)
  else
    let n := punctLen lx p
    (if 128 ≤ c then n + ((p.drop n).takeWhile isCont).length else n, .punct)

/-- `Tok`, without its hide set. -/
structure Tok where
  kind : Kind
  text : List UInt8
  bol : Bool
  cbol : Bool
  space : Bool
  line : Int
  col : Nat

/-- The bytes before the end of a comment, and what follows it. -/
def commentEnd : List UInt8 → Option (List UInt8 × List UInt8)
  | [] => none
  | [_] => none
  | c :: d :: rest =>
    if c = 42 ∧ d = 47 then some ([], rest)
    else (commentEnd (d :: rest)).map fun r => (c :: r.1, r.2)

/-- The loop of `tokenize_lines`: `col` bytes of the line are behind it. -/
def tokenizeLoop (lx : Lang) : Nat → List UInt8 → Bool → Bool → Bool → Nat → Option (List Tok)
  | 0, _, _, _, _, _ => none
  | fuel + 1, p, bol, cbol, space, col =>
    if p = [] then some []
    else if byteAt p 0 = 10 then tokenizeLoop lx fuel (p.drop 1) true false false 0
    else if byteAt p 0 = 32 ∨ byteAt p 0 = 9 ∨ byteAt p 0 = 12 ∨ byteAt p 0 = 11 then
      tokenizeLoop lx fuel (p.drop 1) bol cbol true (col + 1)
    else if lx.cxxComments ∧ byteAt p 0 = 47 ∧ byteAt p 1 = 47 then
      let rest := p.dropWhile fun c => c ≠ 10
      tokenizeLoop lx fuel rest bol cbol true (col + (p.length - rest.length))
    else if byteAt p 0 = 47 ∧ byteAt p 1 = 42 then
      (commentEnd (p.drop 2)).bind fun r =>
        if 10 ∈ r.1 then
          tokenizeLoop lx fuel r.2 true (!bol || cbol) true
            ((r.1.reverse.takeWhile fun c => c ≠ 10).length + 2)
        else tokenizeLoop lx fuel r.2 bol cbol true (col + r.1.length + 4)
    else
      let r := lexLen lx p
      (tokenizeLoop lx fuel (p.drop r.1) false false false (col + r.1)).map fun toks =>
        ⟨r.2, p.take r.1, bol, cbol, space, 0, col + 1⟩ :: toks

/-- `tokenize`, without the `TEOF` at the end; no result for a comment that is not closed. -/
def tokenize (lx : Lang) (p : List UInt8) : Option (List Tok) :=
  tokenizeLoop lx (p.length + 1) p true false false 0

end Embedded.Toolchain.Cpp
