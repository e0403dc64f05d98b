import Embedded.Lib.Marking
import Embedded.Toolchain.Ld.Symbols
import Mathlib.Algebra.Ring.Nat

/-! # Section garbage collection of the linker (`ld/gc.c`)

`gc_run` marks the sections that the roots reach and sweeps the allocated ones that are left. It runs before
any section is placed. A section is named by its object and its index there; index 0 is the null section.
What the script keeps, what is hidden by a version and what is exported are given with the input. -/

namespace Embedded.Toolchain.Ld.Gc

abbrev Name := List UInt8

/-- `sh_type`. -/
inductive SecType
  | rel
  | note
  | group
  | other
deriving DecidableEq

/-- A section header; `syms` are the symbol indices of the entries of an `SHT_REL` section, `members` the
sections of an `SHT_GROUP`, and `kept` is `script_keeps`. -/
structure Section where
  name : Name
  type : SecType
  alloc : Bool
  linkOrder : Bool
  retain : Bool
  link : Nat
  info : Nat
  syms : List Nat
  members : List Nat
  kept : Bool

structure Symbol where
  name : Name
  bind : Bind
  shndx : Nat
  visDefault : Bool

structure Object where
  active : Bool
  linker : Bool
  secs : List Section
  syms : List Symbol

/-- A `GSym`: the object that defines it and the index of the symbol there. -/
structure Global where
  defined : Bool
  obj : Option Nat
  symidx : Nat

/-- The statics of the linker that `gc_run` reads; `exports` is `shared || export_dynamic || nshlib`. -/
structure Input where
  objs : List Object
  gsymFind : Name → Option Global
  entrySym : Option Name
  gcUndef : List Name
  exports : Bool
  versionHidden : Name → Bool
  dynExports : Name → Bool

/-- A section: the object and the index. -/
abbrev Sec := Nat × Nat

inductive Error
  /-- "%s: section group %s (COMDAT) with --gc-sections: unsupported" -/
  | group (s : Sec)
  /-- "%s: .eh_frame with --gc-sections: unsupported (GNU keeps its FDEs per function)" -/
  | ehFrame (s : Sec)
deriving DecidableEq

/-- `"_start"` -/
def nameStart : Name := [95, 115, 116, 97, 114, 116]
/-- `"_init"` -/
def nameInit : Name := [95, 105, 110, 105, 116]
/-- `"_fini"` -/
def nameFini : Name := [95, 102, 105, 110, 105]
/-- `".eh_frame"` -/
def nameEhFrame : Name := [46, 101, 104, 95, 102, 114, 97, 109, 101]
/-- `"__start_"` -/
def startText : Name := [95, 95, 115, 116, 97, 114, 116, 95]
/-- `"__stop_"` -/
def stopText : Name := [95, 95, 115, 116, 111, 112, 95]

section Link

variable (p : Input)

def objOf (i : Nat) : Object := p.objs.getD i ⟨false, false, [], []⟩

/-- `nsh` of an object. -/
def nsh (i : Nat) : Nat := (objOf p i).secs.length

def secOf (s : Sec) : Section :=
  (objOf p s.1).secs.getD s.2 ⟨[], .other, false, false, false, 0, 0, [], [], false⟩

def symOf (i k : Nat) : Symbol := (objOf p i).syms.getD k ⟨[], .loc, 0, false⟩

/-- The sections of object `i`, from index 1 on. -/
def secsOf (i : Nat) : List Sec := ((List.range (nsh p i)).drop 1).map fun j => (i, j)

/-- The sections that a loop over the active objects comes to. -/
def activeSecs : List Sec :=
  (List.range p.objs.length).flatMap fun i => if (objOf p i).active then secsOf p i else []

/-! ## Marking -/

/-- `mark_sec` marks sections with an index in range. -/
def inRange (s : Sec) : Bool := 0 < s.2 && s.2 < nsh p s.1

/-- The section of a symbol, if it has one. -/
def symSec (i : Nat) (s : Symbol) : List Sec :=
  if s.shndx ≠ 0 ∧ s.shndx < 0xff00 then [(i, s.shndx)] else []

/-- The section that defines a global: what `mark_def` marks. -/
def defSec : Option Global → List Sec
  | some ⟨true, some o, k⟩ => symSec o (symOf p o k)
  | _ => []

/-- `startstop_section`. -/
def startstopSection (n : Name) : Option Name :=
  let s := if startText.isPrefixOf n then some (n.drop 8)
    else if stopText.isPrefixOf n then some (n.drop 7) else none
  s.bind fun s =>
    if s = [] ∨ (48 ≤ s.headD 0 ∧ s.headD 0 ≤ 57) then none
    else if s.all fun c => c = 95 || (97 ≤ c && c ≤ 122) || (65 ≤ c && c ≤ 90) || (48 ≤ c && c ≤ 57)
      then some s
    else none

/-- What `mark_named` marks: the allocated sections of that name. -/
def namedSecs (name : Name) : List Sec :=
  (activeSecs p).filter fun s =>
    !(objOf p s.1).linker && (secOf p s).alloc && (secOf p s).name = name

/-- A global that an object of the link defines. -/
def definedGlobal : Option Global → Bool
  | some ⟨true, some _, _⟩ => true
  | _ => false

/-- The sections that a relocation against symbol `si` of object `i` keeps. -/
def relTargets (i si : Nat) : List Sec :=
  if si = 0 ∨ (objOf p i).syms.length ≤ si then []
  else
    let s := symOf p i si
    if s.bind = .loc then symSec i s
    else if definedGlobal (p.gsymFind s.name) then defSec p (p.gsymFind s.name)
    else match startstopSection s.name with
      | some n => namedSecs p n
      | none => []

/-- The symbol indices of the relocations that patch section `s`. -/
def relocs (s : Sec) : List Nat :=
  ((secsOf p s.1).filter fun r => (secOf p r).type = .rel && (secOf p r).info = s.2).flatMap fun r =>
    (secOf p r).syms

/-- What `follow` marks. -/
def follow (s : Sec) : List Sec := (relocs p s).flatMap (relTargets p s.1)

/-! ## The roots -/

/-- The loop over an object's sections: the roots among them. -/
def secRoots (i : Nat) : List Sec → Except Error (List Sec)
  | [] => .ok []
  | s :: rest =>
    if (secOf p s).type = .group then .error (.group s)
    else if (secOf p s).name = nameEhFrame ∧ (secOf p s).alloc then .error (.ehFrame s)
    else
      (secRoots i rest).map fun more =>
        if (objOf p i).linker ∨ (secOf p s).type = .note ∨ (secOf p s).retain ∨ (secOf p s).kept then
          s :: more
        else more

/-- The exported interface of an object. -/
def exportRoots (i : Nat) : List Sec :=
  if !p.exports || (objOf p i).linker then []
  else ((List.range (objOf p i).syms.length).drop 1).flatMap fun k =>
    let s := symOf p i k
    if (s.bind ≠ .global ∧ s.bind ≠ .weak) ∨ s.shndx = 0 ∨ 0xff00 ≤ s.shndx ∨ s.name = [] then []
    else if !s.visDefault || p.versionHidden s.name || !p.dynExports s.name then []
    else match p.gsymFind s.name with
      | some g => if g.obj = some i ∧ g.symidx = k then [(i, s.shndx)] else []
      | none => []

/-- The loop over the objects. -/
def objRoots : List Nat → Except Error (List Sec)
  | [] => .ok []
  | i :: rest =>
    if (objOf p i).active then
      match secRoots p i (secsOf p i) with
      | .error e => .error e
      | .ok secs => (objRoots rest).map fun more => secs ++ exportRoots p i ++ more
    else objRoots rest

/-- The sections that the symbols named on the command line and in the script root. -/
def symRoots : List Sec :=
  defSec p (p.gsymFind (p.entrySym.getD nameStart)) ++ defSec p (p.gsymFind nameInit) ++
    defSec p (p.gsymFind nameFini) ++ p.gcUndef.flatMap fun n => defSec p (p.gsymFind n)

def roots : Except Error (List Sec) :=
  (objRoots p (List.range p.objs.length)).map fun secs => symRoots p ++ secs

/-! ## The run -/

/-- A section whose linked-to section is marked. -/
def linkMarked (mark : Finset Sec) (s : Sec) : Bool :=
  (secOf p s).linkOrder && (secOf p s).link ≠ 0 && (secOf p s).link < nsh p s.1 &&
    (s.1, (secOf p s).link) ∈ mark

/-- The pass over the sections that are linked to others; `more` says whether it marked one. -/
def linkPass : List Sec → Marking Sec → Bool → Marking Sec × Bool
  | [], st, more => (st, more)
  | s :: rest, st, more =>
    if s ∉ st.mark ∧ linkMarked p st.mark s then linkPass rest (st.add (inRange p) s) true
    else linkPass rest st more

/-- The number of sections. -/
def nsecs : Nat := ((List.range p.objs.length).map (nsh p)).sum

/-- The loop of `gc_run`: follow what is marked, then what is linked to it, until nothing is new. -/
def gcLoop : Nat → Marking Sec → Option (Marking Sec)
  | 0, _ => none
  | fuel + 1, st =>
    match st.drain (inRange p) (follow p) (nsecs p + 1) with
    | none => none
    | some st =>
      let r := linkPass p (activeSecs p) st false
      if r.2 then gcLoop fuel r.1 else some r.1

/-- `gc_run`, up to the sweep: the sections marked. `none`: it does not end. -/
def gcRun : Except Error (Option (Finset Sec)) :=
  (roots p).map fun rs =>
    (gcLoop p (nsecs p + 1) (Marking.addAll (inRange p) ⟨∅, []⟩ rs)).map (·.mark)

/-- What the sweep discards. -/
def swept (mark : Finset Sec) (s : Sec) : Bool :=
  (activeSecs p).contains s && !(objOf p s.1).linker && s ∉ mark && (secOf p s).alloc

end Link

end Embedded.Toolchain.Ld.Gc
