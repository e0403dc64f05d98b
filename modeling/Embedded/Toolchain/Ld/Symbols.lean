import Mathlib.Tactic.Common

/-! # Symbol resolution of the linker (`resolve_symbols` of `ld/ld.c`, `ar_load` of `ld/elf.c`)

The command-line objects enter their symbols into one table; then archive members are pulled for
names that are strongly referenced and still undefined, and enter theirs, until nothing is pending.
An archive is used through its index; the parsing of a member into an object is a parameter. -/

namespace Embedded.Toolchain.Ld

/-! ## Objects and the symbol table -/

inductive Bind
  | loc
  | global
  | weak
  | other
  deriving DecidableEq

/-- What `st_shndx` says of a symbol. -/
inductive Place
  | undef
  | common
  | section
  deriving DecidableEq

/-- An `Elf32_Sym`; `none` is a symbol without a name. -/
structure Sym where
  name : Option String
  bind : Bind
  place : Place
  hidden : Bool := false

structure Obj where
  path : String
  syms : List Sym

/-- An entry of the global table. -/
structure GSym where
  defined : Bool := false
  weak : Bool := false
  strongRef : Bool := false
  obj : Nat := 0
  symidx : Nat := 0
  hidden : Bool := false

/-- An archive as `ar_open` leaves it: the bytes of its index, and what a member parses to. `bare` says
that it has no member besides the table of long names. -/
structure Archive where
  path : String
  size : Nat
  index : Option (List UInt8)
  bare : Bool
  member : Nat → Except String Obj

/-- A member that was pulled: for which name, out of which archive, and what the table said of the
name then. -/
structure Pull where
  name : String
  member : Nat × Nat
  entry : GSym

/-- The statics of the linker that resolution works on. `pulls` records the members pulled; the code
does not keep it. -/
structure Link where
  objs : List Obj
  gsyms : String → GSym
  pending : List String
  loaded : List (Nat × Nat)
  pulls : List Pull

def Link.set (s : Link) (name : String) (g : GSym) : Link :=
  { s with gsyms := Function.update s.gsyms name g }

def pathOf (s : Link) (k : Nat) : String := ((s.objs[k]?).map Obj.path).getD ""

/-- One round of the loop of `add_symbols`: symbol `j` of object `k`. -/
def addSym (s : Link) (k j : Nat) (y : Sym) : Except String Link :=
  match y.name with
  | none => .ok s
  | some name =>
    if y.bind ≠ .global ∧ y.bind ≠ .weak then .ok s
    else
      let g := s.gsyms name
      match y.place with
      | .common =>
        .error (pathOf s k ++ ": COMMON symbol '" ++ name ++ "' (compile with -fno-common)")
      | .undef =>
        if y.bind = .global ∧ g.strongRef = false then
          let s := s.set name { g with strongRef := true }
          .ok (if g.defined then s else { s with pending := s.pending ++ [name] })
        else .ok s
      | .section =>
        let weak : Bool := y.bind = .weak
        if g.defined ∧ weak = false ∧ g.weak = false then
          .error ("duplicate definition of '" ++ name ++ "' (in " ++ pathOf s g.obj ++ " and "
            ++ pathOf s k ++ ")")
        else if g.defined ∧ (weak ∨ g.weak = false) then .ok s
        else
          .ok (s.set name
            { g with defined := true, weak := weak, obj := k, symidx := j, hidden := y.hidden })

/-- The loop of `add_symbols` from symbol `j` on. -/
def addSyms (k : Nat) : Nat → List Sym → Link → Except String Link
  | _, [], s => .ok s
  | j, y :: ys, s =>
    match addSym s k j y with
    | .error e => .error e
    | .ok s => addSyms k (j + 1) ys s

/-- `add_symbols` of object `k`. -/
def addSymbols (s : Link) (k : Nat) (o : Obj) : Except String Link := addSyms k 0 o.syms s

/-! ## Archives -/

/-- `be32`. -/
def be32 (bs : List UInt8) (at_ : Nat) : Nat :=
  let b := fun i => ((bs[at_ + i]?).getD 0).toNat
  b 0 * 16777216 + b 1 * 65536 + b 2 * 256 + b 3

/-- A name as the tables spell it, one character a byte. -/
def bytesToName (bs : List UInt8) : String := String.ofList (bs.map fun b => Char.ofNat b.toNat)

/-- The loop of `ar_load` over the index: `n` entries from entry `i` on, `names` the bytes left. -/
def indexEntries (ar : Archive) (index : List UInt8) :
    Nat → Nat → List UInt8 → Except String (List (String × Nat))
  | 0, _, _ => .ok []
  | n + 1, i, names =>
    if (0 : UInt8) ∈ names then
      let off := be32 index (4 + 4 * i)
      if off < 8 ∨ off + 60 > ar.size then
        .error (ar.path ++ ": archive index points outside the file")
      else
        match indexEntries ar index n (i + 1) ((names.dropWhile (· ≠ 0)).drop 1) with
        | .error e => .error e
        | .ok es => .ok ((bytesToName (names.takeWhile (· ≠ 0)), off) :: es)
    else .error (ar.path ++ ": corrupt archive index names")

/-- What `ar_load` reads from the index of an archive: the names and the members that offer them. -/
def arIndex (ar : Archive) : Except String (List (String × Nat)) :=
  match ar.index with
  | none =>
    if ar.bare then .ok []
    else .error (ar.path ++ ": archive has no index; run ranlib (or ar s) to add one")
  | some index =>
    if index.length < 4 then .error (ar.path ++ ": corrupt archive index")
    else
      let n := be32 index 0
      if 4 + 4 * n > index.length then .error (ar.path ++ ": corrupt archive index")
      else indexEntries ar index n 0 (index.drop (4 + 4 * n))

/-- The entries of archive `a`, each with the member as archive and offset. -/
def entriesOf (a : Nat) (es : List (String × Nat)) : List (String × Nat × Nat) :=
  es.map fun e => (e.1, a, e.2)

/-- `ar_load` of the archives in command-line order; they are numbered from `a` on. -/
def arLoad : Nat → List Archive → Except String (List (String × Nat × Nat))
  | _, [] => .ok []
  | a, ar :: ars =>
    match arIndex ar with
    | .error e => .error e
    | .ok es =>
      match arLoad (a + 1) ars with
      | .error e => .error e
      | .ok rest => .ok (entriesOf a es ++ rest)

/-- `arsyms`: the first entry for a name wins. -/
def arsyms (entries : List (String × Nat × Nat)) (name : String) : Option (Nat × Nat) :=
  (entries.find? fun e => e.1 = name).map Prod.snd

/-- `ar_member`. -/
def arMember (ars : List Archive) (t : Nat × Nat) : Except String Obj :=
  match ars[t.1]? with
  | none => .error ""
  | some ar => ar.member t.2

/-- `ar_pull`: the member to pull for a name, if there is one that is not in yet. -/
def arPull (entries : List (String × Nat × Nat)) (s : Link) (name : String) : Option (Nat × Nat) :=
  match arsyms entries name with
  | none => none
  | some t => if t ∈ s.loaded then none else some t

/-! ## Resolution -/

structure Inputs where
  /-- `-u`. -/
  undefs : List String
  objs : List Obj
  archives : List Archive

/-- The `-u` names are undefined references ahead of every input. -/
def enterUndefs : List String → Link → Link
  | [], s => s
  | name :: names, s =>
    let s := s.set name { s.gsyms name with strongRef := true }
    enterUndefs names { s with pending := s.pending ++ [name] }

/-- The loop over the command-line objects. -/
def addObjs : Nat → List Obj → Link → Except String Link
  | _, [], s => .ok s
  | k, o :: os, s =>
    match addSymbols s k o with
    | .error e => .error e
    | .ok s => addObjs (k + 1) os s

/-- The state with member `t` pulled for `name`. -/
def Link.pull (s : Link) (name : String) (t : Nat × Nat) (o : Obj) : Link :=
  { s with objs := s.objs ++ [o], loaded := t :: s.loaded, pulls := ⟨name, t, s.gsyms name⟩ :: s.pulls }

/-- The loop over the pending names from `i` on; the list grows as members are pulled. -/
def pullLoop (ars : List Archive) (entries : List (String × Nat × Nat)) :
    Nat → Nat → Link → Except String Link
  | 0, _, s => .ok s
  | fuel + 1, i, s =>
    match s.pending[i]? with
    | none => .ok s
    | some name =>
      if (s.gsyms name).defined then pullLoop ars entries fuel (i + 1) s
      else
        match arPull entries s name with
        | none => pullLoop ars entries fuel (i + 1) s
        | some t =>
          match arMember ars t with
          | .error e => .error e
          | .ok o =>
            match addSymbols (s.pull name t o) s.objs.length o with
            | .error e => .error e
            | .ok s => pullLoop ars entries fuel (i + 1) s

/-- The symbols a member would enter. -/
def weight (ars : List Archive) (t : Nat × Nat) : Nat :=
  match arMember ars t with
  | .error _ => 0
  | .ok o => o.syms.length

/-- The symbols the members still out could enter, counted by index entries. -/
def outWeight (ars : List Archive) (loaded : List (Nat × Nat)) : List (String × Nat × Nat) → Nat
  | [] => 0
  | e :: es => (if e.2 ∈ loaded then 0 else weight ars e.2) + outWeight ars loaded es

/-- A bound on the rounds the loop still makes: the names left and those the members still out could
add. -/
def roundsLeft (ars : List Archive) (entries : List (String × Nat × Nat)) (i : Nat) (s : Link) : Nat :=
  (s.pending.length - i) + outWeight ars s.loaded entries

/-- `resolve_symbols`. -/
def resolveSymbols (inp : Inputs) (entries : List (String × Nat × Nat)) : Except String Link :=
  let s := enterUndefs inp.undefs ⟨inp.objs, fun _ => {}, [], [], []⟩
  match addObjs 0 inp.objs s with
  | .error e => .error e
  | .ok s => pullLoop inp.archives entries (roundsLeft inp.archives entries 0 s) 0 s

/-- The archives are loaded while the command line is read, before resolution. -/
def loadAndResolve (inp : Inputs) : Except String (List (String × Nat × Nat) × Link) :=
  match arLoad 0 inp.archives with
  | .error e => .error e
  | .ok entries =>
    match resolveSymbols inp entries with
    | .error e => .error e
    | .ok s => .ok (entries, s)

end Embedded.Toolchain.Ld
