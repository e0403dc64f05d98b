import Embedded.Lib.Signed
import Embedded.Toolchain.Ld.Symbols

/-! # Long branches of the linker (`veneers` and `relocate` of `ld/ld.c`)

An ARM `b`/`bl` reaches 32 MB. One whose target is farther goes through a veneer in the stub section
behind its caller's stub group. Veneers move code, so the linker scans for branches out of reach,
lays out again and repeats until none is new; then the stubs are written and the branches patched.

The layout itself is a parameter: it gives every section its address from the sizes of the stub
sections. So are the relocations that are not branches. Names are the bytes of C strings. -/

namespace Embedded.Toolchain.Ld.Branch

abbrev Name := List UInt8

/-! ## The link before the veneers -/

/-- What `st_shndx` says, as `resolve` reads it. -/
inductive Shndx where
  | undef
  | abs
  | sec (j : Nat)
deriving DecidableEq

/-- A symbol of an object; `hidden` is any visibility but `STV_DEFAULT`. -/
structure Symbol where
  name : Option Name
  bind : Bind
  shndx : Shndx
  value : Nat
  hidden : Bool
deriving DecidableEq

/-- A relocation; `word` is the field it patches, as the object has it. -/
structure Rel where
  type : Nat
  sym : Nat
  offset : Nat
  word : Nat
deriving DecidableEq

/-- A `SHT_REL` section: the section it patches (`sh_info`) and its entries. -/
structure RelSec where
  target : Nat
  rels : List Rel

/-- `sec_out`: unplaced, discarded, or an output section. -/
inductive Out where
  | unplaced
  | discard
  | sec (k : Nat)
deriving DecidableEq

def Out.placed : Out → Bool
  | .sec _ => true
  | _ => false

structure Section where
  name : String
  exec : Bool
  nobits : Bool
  out : Out
  size : Nat
  rawsize : Nat

structure Object where
  path : String
  active : Bool
  linker : Bool
  syms : List Symbol
  secs : List Section
  rels : List RelSec

/-- A global after `build_globals`; `obj` is the object that defines it. -/
structure Global where
  defined : Bool
  obj : Option Nat
  hidden : Bool
  absolute : Bool

/-- A symbol of a shared library that the link imports. -/
structure Import where
  canon : Bool
  isData : Bool
  copyOff : Nat

/-- An output section, as `form_groups` reads it. -/
structure OutKind where
  exec : Bool
  nobits : Bool

/-- What the linker knows when it comes to the veneers. `ptr` is what `%p` prints of an object. -/
structure Input where
  objs : List Object
  gsyms : Name → Option Global
  imports : Name → Option Import
  plt : Name → Nat
  outsecs : List OutKind
  shared : Bool
  bsymbolic : Bool
  pie : Bool
  picVeneer : Bool
  versionHidden : Name → Bool
  ptr : Nat → Name
  other : Nat → Nat → Rel → Except String Nat

/-- The addresses of one layout: of the sections, the stub sections, the globals, and the tables
that the linker makes. -/
structure Lay where
  secVaddr : Nat → Nat → Nat
  stubVaddr : Nat → Nat
  gvaddr : Name → Nat
  pltVaddr : Nat
  dynbssVaddr : Nat

/-- A relocation and the section it patches. -/
structure Caller where
  obj : Nat
  sec : Nat
  rel : Rel
deriving DecidableEq

def noSymbol : Symbol := ⟨none, .loc, .undef, 0, false⟩

def noSection : Section := ⟨"", false, false, .unplaced, 0, 0⟩

/-- The bytes as text, for the messages. -/
def text (n : Name) : String := String.ofList (n.map fun b => Char.ofNat b.toNat)

/-- `%#x`. -/
def hex (n : Nat) : String :=
  if n = 0 then "0" else "0x" ++ String.ofList (Nat.toDigits 16 n)

section Link

variable (p : Input)

def pathOf (o : Nat) : String := ((p.objs[o]?).map Object.path).getD ""

/-- `o->sym[sidx]`; `elf_open` has checked the index. -/
def symOf (o sidx : Nat) : Symbol := (((p.objs[o]?).bind fun ob => ob.syms[sidx]?)).getD noSymbol

/-- `o->sh[t]`; `elf_open` has checked the index. -/
def secOf (o t : Nat) : Section := (((p.objs[o]?).bind fun ob => ob.secs[t]?)).getD noSection

/-! ## Where a relocation leads -/

/-- `preemptible(o, symidx)`. -/
def preemptible (o sidx : Nat) : Bool :=
  let s := symOf p o sidx
  match s.name with
  | none => false
  | some nm =>
    if !p.shared || p.bsymbolic || s.bind == .loc then false
    else if s.hidden || p.versionHidden nm then false
    else match p.gsyms nm with
      | some g => g.defined && g.obj.isSome && !g.hidden && !g.absolute
      | none => false

/-- `md_is_call_reloc`. -/
def isCallReloc (type : Nat) : Bool := type == 28 || type == 29

/-- `dyn_target`, for the types that are branches: the PLT entry of an import or of a definition
that may be interposed. -/
def dynTarget (lay : Lay) (o sidx type : Nat) : Option Nat :=
  let s := symOf p o sidx
  match s.name with
  | none => none
  | some nm =>
    let i := if s.shndx = .undef then p.imports nm else none
    if i.isNone && !preemptible p o sidx then none
    else if isCallReloc type || (i.map Import.canon).getD false then
      some (add32 lay.pltVaddr (16 * sub32 (p.plt nm) 1))
    else if (i.map Import.isData).getD false then
      some (add32 lay.dynbssVaddr ((i.map Import.copyOff).getD 0))
    else some 0

/-- `resolve(o, symidx)`. -/
def resolve (lay : Lay) (o sidx : Nat) : Except String Nat :=
  let s := symOf p o sidx
  if s.shndx = .undef ∨ (s.name.isSome ∧ (s.bind = .global ∨ s.bind = .weak)) then
    let nm := s.name.getD []
    match p.gsyms nm with
    | some g =>
      if g.defined then .ok (lay.gvaddr nm)
      else if s.shndx = .undef ∧ s.bind = .weak then .ok 0
      else match g.obj with
        | some k => .error ("'" ++ text nm ++ "' (referenced in " ++ pathOf p o ++
            ") is defined in a discarded section of " ++ pathOf p k)
        | none => .error ("undefined symbol '" ++ text nm ++ "' (referenced in " ++ pathOf p o ++ ")")
    | none =>
      if s.shndx = .undef ∧ s.bind = .weak then .ok 0
      else .error ("undefined symbol '" ++ text nm ++ "' (referenced in " ++ pathOf p o ++ ")")
  else
    match s.shndx with
    | .abs => .ok s.value
    | .undef => .ok s.value
    | .sec j =>
      if (secOf p o j).out.placed then .ok (add32 (lay.secVaddr o j) s.value)
      else .error (pathOf p o ++ ": reference to " ++
        (match s.name with
          | some nm => text nm
          | none => "a symbol") ++ " in discarded section " ++ (secOf p o j).name)

/-- The symbol address `S` of a branch relocation. -/
def target (lay : Lay) (o sidx type : Nat) : Except String Nat :=
  match dynTarget p lay o sidx type with
  | some s => .ok s
  | none => resolve p lay o sidx

/-- `branch_reloc(type)`: CALL, JUMP24, PC24, PLT32. -/
def branchReloc (type : Nat) : Bool := type == 28 || type == 29 || type == 1 || type == 27

/-- `(s32)(w << 8) >> 6`: the branch field, sign-extended, times four. -/
def addendOf (w : Nat) : Int := toS (w * 256 % 4294967296) / 64

/-- `S + (u32)A + 8`. -/
def destOf (s : Nat) (a : Int) : Nat := add32 (add32 s (ofS a)) 8

/-- The place `P` of a relocation. -/
def placeOf (lay : Lay) (c : Caller) : Nat := add32 (lay.secVaddr c.obj c.sec) c.rel.offset

/-- `in_reach(dest, P)`. -/
def inReach (dest place : Nat) : Bool :=
  let d := toS (sub32 dest (add32 place 8))
  decide (-0x2000000 ≤ d) && decide (d ≤ 0x1fffffc)

/-- The `dest` of `branch_target`, for a branch relocation with a symbol. -/
def branchDest (lay : Lay) (c : Caller) : Except String Nat :=
  match target p lay c.obj c.rel.sym c.rel.type with
  | .ok s => .ok (destOf s (addendOf c.rel.word))
  | .error e => .error e

/-! ## Stub groups -/

/-- The sections of an output section that have bytes, in object order. -/
def piecesOf (k : Nat) : List (Nat × Nat) :=
  (List.range p.objs.length).flatMap fun o =>
    ((List.range (((p.objs[o]?).map fun ob => ob.secs.length).getD 0)).filter fun j =>
      decide (0 < j) && decide ((secOf p o j).out = .sec k) && decide ((secOf p o j).size ≠ 0)).map
      fun j => (o, j)

/-- The insertion sort by address, one piece. -/
def insertPiece (addr : Nat × Nat → Nat) (x : Nat × Nat) : List (Nat × Nat) → List (Nat × Nat)
  | [] => [x]
  | y :: ys => if addr x < addr y then x :: y :: ys else y :: insertPiece addr x ys

/-- How many pieces more belong to the group that begins at `start`. -/
def groupLen (addr size : Nat × Nat → Nat) (start : Nat) : List (Nat × Nat) → Nat
  | [] => 0
  | y :: ys =>
    if sub32 (add32 (addr y) (size y)) start ≤ 4170000 then groupLen addr size start ys + 1 else 0

/-- The pieces cut into groups of at most `VENEER_GROUP` bytes. -/
def cutGroups (addr size : Nat × Nat → Nat) : Nat → List (Nat × Nat) → List (List (Nat × Nat))
  | _, [] => []
  | 0, _ :: _ => []
  | fuel + 1, x :: xs =>
    let n := groupLen addr size (addr x) xs
    (x :: xs.take n) :: cutGroups addr size fuel (xs.drop n)

/-- `form_groups`: the groups of all code output sections, in their order. -/
def formGroups (lay : Lay) : List (List (Nat × Nat)) :=
  (List.range p.outsecs.length).flatMap fun k =>
    match p.outsecs[k]? with
    | some os =>
      if os.exec && !os.nobits then
        let addr := fun x : Nat × Nat => lay.secVaddr x.1 x.2
        let pieces := (piecesOf p k).foldl (fun acc x => insertPiece addr x acc) []
        cutGroups addr (fun x => (secOf p x.1 x.2).size) pieces.length pieces
      else []
    | none => []

/-- `vgroup_of(o, t)`. -/
def vgroupOf (groups : List (List (Nat × Nat))) (o t : Nat) : Option Nat :=
  groups.findIdx? fun g => g.contains (o, t)

/-! ## Giving veneers -/

/-- `%d` of a number that is not negative. -/
def decimal (n : Nat) : Name := (Nat.toDigits 10 n).map fun c => c.toNat.toUInt8

/-- `%+d`. -/
def signed (a : Int) : Name :=
  if 0 ≤ a then 43 :: decimal a.toNat else 45 :: decimal (-a).toNat

/-- What `target_key` prints: a global by name, else this object's symbol. -/
def fullKey (g o sidx : Nat) (a : Int) : Name :=
  let s := symOf p o sidx
  match s.name with
  | some nm =>
    if s.bind ≠ .loc then decimal g ++ 58 :: nm ++ signed a
    else decimal g ++ 58 :: p.ptr o ++ 58 :: decimal sidx ++ signed a
  | none => decimal g ++ 58 :: p.ptr o ++ 58 :: decimal sidx ++ signed a

/-- `target_key` into `char key[600]`. -/
def targetKey (g o sidx : Nat) (a : Int) : Name := (fullKey p g o sidx a).take 599

structure Veneer where
  g : Nat
  off : Nat
  obj : Nat
  sym : Nat
  a : Int
  type : Nat

/-- `ven`, `ven_map` and the numbers of veneers in the groups. -/
structure VState where
  ven : List Veneer
  map : List (Name × Nat)
  count : Nat → Nat

/-- `veneer_size()`. -/
def veneerSize : Nat := if p.picVeneer || p.pie || p.shared then 12 else 8

/-- The veneer for a branch that has none yet. -/
def addVeneer (s : VState) (g : Nat) (key : Name) (c : Caller) : VState where
  ven := s.ven ++ [⟨g, s.count g * veneerSize p % 4294967296, c.obj, c.rel.sym,
    addendOf c.rel.word, c.rel.type⟩]
  map := s.map ++ [(key, s.ven.length)]
  count := Function.update s.count g (s.count g + 1)

/-- One relocation of `veneer_scan`: how many veneers it counts for, and the state. -/
def scanOne (lay : Lay) (groups : List (List (Nat × Nat))) (add : Bool) (c : Caller)
    (s : VState) : Except String (Nat × VState) :=
  if !branchReloc c.rel.type || c.rel.sym == 0 then .ok (0, s)
  else match branchDest p lay c with
    | .error e => .error e
    | .ok dest =>
      if inReach dest (placeOf lay c) then .ok (0, s)
      else if dest % 4 ≠ 0 then
        .error (pathOf p c.obj ++ ": a branch in " ++ (secOf p c.obj c.sec).name ++
          " to Thumb code out of reach: an interworking veneer is unsupported")
      else if !add then .ok (1, s)
      else match vgroupOf groups c.obj c.sec with
        | none => .error ("internal: " ++ pathOf p c.obj ++ "(" ++ (secOf p c.obj c.sec).name ++
            ") is in no stub group")
        | some g =>
          let key := targetKey p g c.obj c.rel.sym (addendOf c.rel.word)
          match s.map.lookup key with
          | some _ => .ok (0, s)
          | none => .ok (1, addVeneer p s g key c)

/-- The `SHT_REL` sections that a loop over the objects comes to, with the test on the section that
they patch. -/
def relSecs (keep : Object → Section → Bool) : List (Nat × RelSec) :=
  (List.range p.objs.length).flatMap fun o =>
    match p.objs[o]? with
    | some ob =>
      if !ob.active || ob.linker then []
      else (ob.rels.filter fun rs => keep ob (secOf p o rs.target)).map fun rs => (o, rs)
    | none => []

/-- The relocations of a `SHT_REL` section. -/
def callers (x : Nat × RelSec) : List Caller := x.2.rels.map fun r => ⟨x.1, x.2.target, r⟩

/-- The relocations that `veneer_scan` looks at. -/
def scanned : List Caller :=
  (relSecs p fun ob t => !ob.syms.isEmpty && t.exec && t.out.placed).flatMap callers

/-- The loop of `veneer_scan`. -/
def veneerScan (lay : Lay) (groups : List (List (Nat × Nat))) (add : Bool) :
    List Caller → VState → Except String (Nat × VState)
  | [], s => .ok (0, s)
  | c :: rest, s =>
    match scanOne p lay groups add c s with
    | .error e => .error e
    | .ok (n, s) =>
      match veneerScan lay groups add rest s with
      | .error e => .error e
      | .ok (m, s) => .ok (n + m, s)

/-- The sizes of the stub sections. -/
def stubSizes (groups : List (List (Nat × Nat))) (s : VState) : List Nat :=
  (List.range groups.length).map fun g => s.count g * veneerSize p % 4294967296

/-- The loop of `veneers`; `left` counts the passes down. -/
def settle (layout : List Nat → Lay) (groups : List (List (Nat × Nat))) :
    Nat → Lay → VState → Except String (Lay × VState)
  | left, lay, s =>
    match veneerScan p lay groups true (scanned p) s with
    | .error e => .error e
    | .ok (n, s) =>
      if n = 0 then .ok (lay, s)
      else match left with
        | 0 => .error "internal: veneers do not settle"
        | left + 1 => settle layout groups left (layout (stubSizes p groups s)) s

def noVeneers : VState := ⟨[], [], fun _ => 0⟩

/-- `veneers`, up to the stubs' bytes: the stub groups, the layout and the veneers. -/
def veneers (layout : List Nat → Lay) :
    Except String (List (List (Nat × Nat)) × Lay × VState) :=
  match veneerScan p (layout []) [] false (scanned p) noVeneers with
  | .error e => .error e
  | .ok (n, _) =>
    if n = 0 then .ok ([], layout [], noVeneers)
    else
      let groups := formGroups p (layout [])
      match settle p layout groups 16 (layout []) noVeneers with
      | .error e => .error e
      | .ok (lay, s) => .ok (groups, lay, s)

/-! ## The stubs and the branches -/

/-- The address of a veneer. -/
def venAddr (lay : Lay) (v : Veneer) : Nat := add32 (lay.stubVaddr v.g) v.off

/-- The words of a veneer. -/
def stubCode (lay : Lay) (v : Veneer) : Except String (List Nat) :=
  match target p lay v.obj v.sym v.type with
  | .error e => .error e
  | .ok s =>
    let dest := destOf s v.a
    if veneerSize p = 12 then
      -- ldr ip, [pc]; add pc, pc, ip
      .ok [0xe59fc000, 0xe08ff00c, sub32 (sub32 dest (venAddr lay v)) 12]
    else
      -- ldr pc, [pc, #-4]
      .ok [0xe51ff004, dest]

/-- The stubs of a list of veneers, each with its address. -/
def stubsOf (lay : Lay) : List Veneer → Except String (List (Nat × List Nat))
  | [] => .ok []
  | v :: rest =>
    match stubCode p lay v with
    | .error e => .error e
    | .ok code =>
      match stubsOf lay rest with
      | .error e => .error e
      | .ok stubs => .ok ((venAddr lay v, code) :: stubs)

/-- The veneers in the order in which the stubs are written, group by group. -/
def inGroups (groups : List (List (Nat × Nat))) (s : VState) : List Veneer :=
  (List.range groups.length).flatMap fun g => s.ven.filter fun v => v.g == g

/-- `veneer_for`: a branch's veneer address (0: none). -/
def veneerFor (lay : Lay) (groups : List (List (Nat × Nat))) (s : VState) (c : Caller) : Nat :=
  match vgroupOf groups c.obj c.sec with
  | none => 0
  | some g =>
    match (s.map.lookup (targetKey p g c.obj c.rel.sym (addendOf c.rel.word))).bind
        fun i => s.ven[i]? with
    | some v => add32 (lay.stubVaddr g) v.off
    | none => 0

/-- `md_apply_reloc` of a branch. -/
def applyBranch (path : String) (type w s place : Nat) : Except String Nat :=
  if isCallReloc type then
    let x := toS (sub32 (add32 s (ofS (addendOf w))) place)
    if x < -0x2000000 ∨ 0x1fffffc < x then
      .error (path ++ ": branch to " ++ hex (destOf s (addendOf w)) ++
        " out of reach (+-32MB) at " ++ hex place ++ " (and no veneer)")
    else if x % 4 ≠ 0 then
      .error (path ++ ": branch at " ++ hex place ++ " to Thumb code (" ++
        hex (destOf s (addendOf w)) ++ "): BLX conversion is unsupported")
    else .ok (w / 16777216 * 16777216 + (x / 4 % 16777216).toNat)
  else .error (path ++ ": unsupported relocation type " ++ toString type)

/-- `md_is_marker`. -/
def isMarker (type : Nat) : Bool := type == 0 || type == 40

/-- One relocation of `relocate`: the patched word. -/
def applyRel (lay : Lay) (groups : List (List (Nat × Nat))) (s : VState) (c : Caller) :
    Except String Nat :=
  let tsize := (secOf p c.obj c.sec).rawsize
  if !isMarker c.rel.type && (decide (tsize < c.rel.offset) || decide (tsize - c.rel.offset < 4)) then
    .error (pathOf p c.obj ++ ": relocation offset " ++ hex c.rel.offset ++ " outside " ++
      (secOf p c.obj c.sec).name)
  else if !branchReloc c.rel.type then p.other c.obj c.sec c.rel
  else match target p lay c.obj c.rel.sym c.rel.type with
    | .error e => .error e
    | .ok sym =>
      let a := addendOf c.rel.word
      let sym :=
        if s.ven.isEmpty || c.rel.sym == 0 || inReach (destOf sym a) (placeOf lay c) then sym
        -- the branch lands on the veneer
        else if veneerFor p lay groups s c ≠ 0 then
          sub32 (sub32 (veneerFor p lay groups s c) (ofS a)) 8
        else sym
      applyBranch (pathOf p c.obj) c.rel.type c.rel.word sym (placeOf lay c)

/-- The loop of `relocate` over the entries of a `SHT_REL` section. -/
def applyAll (lay : Lay) (groups : List (List (Nat × Nat))) (s : VState) :
    List Caller → Except String (List (Caller × Nat))
  | [] => .ok []
  | c :: rest =>
    match applyRel p lay groups s c with
    | .error e => .error e
    | .ok w =>
      match applyAll lay groups s rest with
      | .error e => .error e
      | .ok ws => .ok ((c, w) :: ws)

/-- The loop of `relocate` over the `SHT_REL` sections. -/
def applySecs (lay : Lay) (groups : List (List (Nat × Nat))) (s : VState) :
    List (Nat × RelSec) → Except String (List (Caller × Nat))
  | [] => .ok []
  | x :: rest =>
    if (secOf p x.1 x.2.target).nobits then
      .error (pathOf p x.1 ++ ": relocations against NOBITS section " ++
        (secOf p x.1 x.2.target).name)
    else match applyAll p lay groups s (callers x) with
      | .error e => .error e
      | .ok ws =>
        match applySecs lay groups s rest with
        | .error e => .error e
        | .ok ws' => .ok (ws ++ ws')

/-- The `SHT_REL` sections that `relocate` applies: any placed target, allocated or not. -/
def appliedSecs : List (Nat × RelSec) := relSecs p fun _ t => t.out.placed

/-- The link's result: the last layout, the stubs and the patched words. -/
structure Linked where
  lay : Lay
  stubs : List (Nat × List Nat)
  words : List (Caller × Nat)

/-- `veneers` and `relocate`. -/
def link (layout : List Nat → Lay) : Except String Linked :=
  match veneers p layout with
  | .error e => .error e
  | .ok (groups, lay, s) =>
    match stubsOf p lay (inGroups groups s) with
    | .error e => .error e
    | .ok stubs =>
      match applySecs p lay groups s (appliedSecs p) with
      | .error e => .error e
      | .ok words => .ok ⟨lay, stubs, words⟩

end Link

/-! ## Where a branch ends up -/

/-- Where a `b`/`bl` at `place` with the encoding `w` goes. -/
def branchTo (place w : Nat) : Nat := add32 (add32 place 8) (ofS (addendOf w))

/-- The word that `ldr rt, [pc, #imm]` at `pc` with the encoding `w` loads. -/
def ldrLiteral (mem : Nat → Nat) (pc w : Nat) : Nat :=
  if w / 8388608 % 2 = 1 then mem (add32 (add32 pc 8) (w % 4096))
  else mem (sub32 (add32 pc 8) (w % 4096))

/-- One instruction of a stub: `ldr pc, [pc, #imm]`, `ldr ip, [pc, #imm]` or `add pc, pc, ip`, on
`pc` and `ip`. -/
def stubStep (mem : Nat → Nat) (st : Nat × Nat) : Option (Nat × Nat) :=
  let w := mem st.1
  if w &&& 0xff7ff000 = 0xe51ff000 then some (ldrLiteral mem st.1 w, st.2)
  else if w &&& 0xff7ff000 = 0xe51fc000 then some (add32 st.1 4, ldrLiteral mem st.1 w)
  else if w = 0xe08ff00c then some (add32 (add32 st.1 8) st.2, st.2)
  else none

def stubRun (mem : Nat → Nat) : Nat → Nat × Nat → Option (Nat × Nat)
  | 0, st => some st
  | n + 1, st => (stubStep mem st).bind (stubRun mem n)

/-- The words `code` are in memory from `addr` on. -/
def HoldsCode (mem : Nat → Nat) : Nat → List Nat → Prop
  | _, [] => True
  | addr, w :: ws => mem addr = w ∧ HoldsCode mem (add32 addr 4) ws

/-- The memory holds all stubs of the link. -/
def Linked.Image (l : Linked) (mem : Nat → Nat) : Prop := ∀ st ∈ l.stubs, HoldsCode mem st.1 st.2

/-- The branch at `place` with the encoding `w` goes to a stub of the link, whose instructions (all
its words but the last) lead to `dest`. -/
def ThroughVeneer (l : Linked) (mem : Nat → Nat) (place w dest : Nat) : Prop :=
  ∃ st ∈ l.stubs, branchTo place w = st.1 ∧
    ∀ ip, ∃ ip', stubRun mem (st.2.length - 1) (st.1, ip) = some (dest, ip')

/-- All relocations that are applied. -/
def applied (p : Input) : List Caller := (appliedSecs p).flatMap callers

/-- Every branch relocation that is applied ends up at its symbol plus its addend: directly if that
is in reach, else through a veneer. -/
def BranchesLand (p : Input) (l : Linked) (mem : Nat → Nat) : Prop :=
  ∀ c ∈ applied p, branchReloc c.rel.type = true →
    ∃ w dest, (c, w) ∈ l.words ∧ branchDest p l.lay c = .ok dest ∧
      if inReach dest (placeOf l.lay c) then branchTo (placeOf l.lay c) w = dest
      else ThroughVeneer l mem (placeOf l.lay c) w dest

end Embedded.Toolchain.Ld.Branch
