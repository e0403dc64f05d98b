import Embedded.Lib.CString
import Embedded.Lib.Leb128

/-! # The line-number program of the assembler (`toolchain/as/dwline.c`)

`.file` and `.loc` collect a table of names and a list of locations; `dwline_emit` turns them into the
`.debug_line` unit of the object: a header with the directories and file names, and one sequence of
opcodes for every section that has a location. Names are byte strings without a zero. Lines and
columns are `int`s, kept as words. -/

namespace Embedded.Toolchain.As

/-! ## Directives -/

/-- `struct Loc`. -/
structure Loc where
  sec : Nat
  off : UInt32
  file : Nat
  line : UInt32
  col : UInt32
deriving DecidableEq

/-- `files` and `locs`: entry `n - 1` is what `.file n` gave. -/
structure LineDirectives where
  files : List (Option CStr)
  locs : List Loc

inductive Directive
  | file (n : Nat) (name : CStr)
  | loc (l : Loc)

/-- `dwline_file`; numbers below 1 are an error. -/
def dwlineFile (st : LineDirectives) (n : Nat) (name : CStr) : Option LineDirectives :=
  if n < 1 then none
  else
    let files := st.files ++ List.replicate (n - st.files.length) none
    some { st with files := files.set (n - 1) (some name) }

/-- `dwline_loc`; the file must have been given. -/
def dwlineLoc (st : LineDirectives) (l : Loc) : Option LineDirectives :=
  if l.file < 1 ∨ (st.files.getD (l.file - 1) none).isNone then none
  else some { st with locs := st.locs ++ [l] }

/-- The directives of a source file, in order. -/
def directives : List Directive → LineDirectives → Option LineDirectives
  | [], st => some st
  | .file n name :: ds, st => (dwlineFile st n name).bind (directives ds)
  | .loc l :: ds, st => (dwlineLoc st l).bind (directives ds)

/-! ## The header -/

/-- The place of the last slash: `strrchr(name, '/')`. -/
def lastSlash (name : List UInt8) : Option Nat :=
  let i := name.reverse.idxOf 47
  if i < name.length then some (name.length - 1 - i) else none

/-- The directory of a name; the root for a name directly under it. -/
def dirPart (name : List UInt8) : Option (List UInt8) :=
  (lastSlash name).map fun i => name.take (if i = 0 then 1 else i)

/-- What is left of the name. -/
def basePart (name : List UInt8) : List UInt8 :=
  match lastSlash name with
  | some i => name.drop (i + 1)
  | none => name

/-- The names that were given, in the order of their numbers. -/
def LineDirectives.given (st : LineDirectives) : List (List UInt8) :=
  st.files.filterMap fun f => f.map CStr.bytes

/-- The directory of one more file: found in the table, or added to it. -/
def addDir (dirs : List (List UInt8)) (name : List UInt8) : List (List UInt8) × Nat :=
  match dirPart name with
  | none => (dirs, 0)
  | some d =>
    let i := dirs.idxOf d
    if i < dirs.length then (dirs, i + 1) else (dirs ++ [d], dirs.length + 1)

/-- `dirs` and `filedir`. -/
def dirTable : List (List UInt8) → List (List UInt8) → List (List UInt8) × List Nat
  | [], dirs => (dirs, [])
  | name :: names, dirs =>
    let r := addDir dirs name
    let r' := dirTable names r.1
    (r'.1, r.2 :: r'.2)

def LineDirectives.dirs (st : LineDirectives) : List (List UInt8) := (dirTable st.given []).1

def emit32 (w : Nat) : List UInt8 :=
  [UInt8.ofNat w, UInt8.ofNat (w / 256), UInt8.ofNat (w / 65536), UInt8.ofNat (w / 16777216)]

def stdLens : List UInt8 := [0, 1, 1, 1, 1, 0, 0, 0, 1, 0, 0, 1]

/-- An entry of `file_names`: base name, directory, no time and no length. -/
def fileEntry (name : List UInt8) (dir : Nat) : List UInt8 := basePart name ++ 0 :: (uleb dir ++ [0, 0])

/-- The tables of directories and file names. -/
def LineDirectives.tables (st : LineDirectives) : List UInt8 :=
  let r := dirTable st.given []
  r.1.flatMap (fun d => d ++ [0]) ++ 0 ::
    ((List.zipWith fileEntry st.given r.2).flatten ++ [0])

/-- What follows `header_length`, up to the program. -/
def LineDirectives.header (st : LineDirectives) : List UInt8 :=
  [2, 1, 251, 14, 13] ++ stdLens ++ st.tables

/-! ## The program -/

/-- An `int` as `unsigned long`. -/
def unsignedLong (x : UInt32) : Nat :=
  if x.toNat < 2147483648 then x.toNat else x.toNat + (18446744073709551616 - 4294967296)

/-- `row`: its bytes, and what `*caddr` and `*cline` are then. -/
def row (addr line caddr cline : Nat) : Option (List UInt8 × Nat × Nat) :=
  let dl := toS (sub32 line cline)
  let da := sub32 addr caddr
  if da % 2 ≠ 0 then none
  else
    let far := dl < -5 ∨ 9 ≤ dl
    let pre := if far then 3 :: sleb dl else []
    let cline := if far then line else cline
    let dl := if far then 0 else dl
    if da = 0 ∧ dl = 0 then some (pre ++ [1], caddr, cline)
    else
      let units := da / 2
      let op := 13 + units * 14 + (dl + 5).toNat
      if 255 < op then
        some (pre ++ 2 :: (uleb units ++ [UInt8.ofNat (13 + (dl + 5).toNat)]), addr, line)
      else some (pre ++ [UInt8.ofNat op], addr, line)

/-- The registers of the sequence. -/
structure SeqState where
  caddr : Nat
  cline : Nat
  cfile : Nat
  ccol : UInt32

/-- One location of the sequence. -/
def emitLoc (s : SeqState) (l : Loc) : Option (List UInt8 × SeqState) :=
  let file := if l.file ≠ s.cfile then 4 :: uleb l.file else []
  let col := if l.col ≠ s.ccol then 5 :: uleb (unsignedLong l.col) else []
  (row l.off.toNat l.line.toNat s.caddr s.cline).map fun r =>
    (file ++ (col ++ r.1), ⟨r.2.1, r.2.2, l.file, l.col⟩)

def emitLocs : List Loc → SeqState → Option (List UInt8 × SeqState)
  | [], s => some ([], s)
  | l :: ls, s =>
    (emitLoc s l).bind fun r => (emitLocs ls r.2).map fun r' => (r.1 ++ r'.1, r'.2)

/-- The column of the first location, which is streamed before the address. -/
def firstCol (ls : List Loc) : UInt32 := (ls.head?.map Loc.col).getD 0

/-- The sequence of a section with the locations `ls`: `addr` is the section's address, which the
relocation puts into `DW_LNE_set_address`, and `len` its length. -/
def emitSequence (addr len : UInt32) (ls : List Loc) : Option (List UInt8) :=
  let col := firstCol ls
  let start := (if col ≠ 0 then 5 :: uleb (unsignedLong col) else []) ++ 0 :: (uleb 5 ++ 2 :: emit32 addr.toNat)
  (emitLocs ls ⟨0, 1, 1, col⟩).map fun r =>
    let stop := if r.2.caddr < len.toNat then 2 :: uleb ((len.toNat - r.2.caddr) / 2) else []
    start ++ (r.1 ++ (stop ++ 0 :: (uleb 1 ++ [1])))

/-- The loop over the sections, in the order in which they have locations. -/
def sequences (addr len : Nat → UInt32) (locs : List Loc) : Nat → List Nat → Option (List UInt8)
  | 0, _ => some []
  | fuel + 1, seen =>
    match locs.find? fun l => decide (l.sec ∉ seen) with
    | none => some []
    | some l =>
      (emitSequence (addr l.sec) (len l.sec) (locs.filter fun l' => l'.sec = l.sec)).bind fun bytes =>
        (sequences addr len locs fuel (l.sec :: seen)).map fun rest => bytes ++ rest

/-- `dwline_emit`: the contents of `.debug_line`, once the addresses of the sections are known. -/
def dwlineEmit (addr len : Nat → UInt32) (st : LineDirectives) : Option (List UInt8) :=
  if st.locs = [] then some []
  else
    (sequences addr len st.locs st.locs.length []).map fun program =>
      let unit := 3 :: 0 :: (emit32 st.header.length ++ (st.header ++ program))
      emit32 unit.length ++ unit

end Embedded.Toolchain.As
