import Embedded.Lib.Leb128

/-! # The line tables of the debugger (`dbg/src/elf_sym.c`)

`parse_debug_line` runs the line-number programs of a `.debug_line` section and collects rows of
address, line and file index, and a list of file names. A pointer into the section is the list of the
bytes from there on; a read past the end of the section has no result. -/

namespace Embedded.Dbg

/-- `struct line_entry`; line and file index are `uint16_t`. -/
structure LineEntry where
  addr : Nat
  line : Nat
  fileIdx : Nat
deriving DecidableEq

/-- `lines` and `line_files`. -/
structure LineTables where
  lines : List LineEntry
  files : List (List UInt8)

/-! ## Reading -/

def read8 : List UInt8 → Option (Nat × List UInt8)
  | b :: rest => some (b.toNat, rest)
  | [] => none

def read16 : List UInt8 → Option (Nat × List UInt8)
  | a :: b :: rest => some (a.toNat + 256 * b.toNat, rest)
  | _ => none

def read32 : List UInt8 → Option (Nat × List UInt8)
  | a :: b :: c :: d :: rest =>
    some (a.toNat + 256 * b.toNat + 65536 * c.toNat + 16777216 * d.toNat, rest)
  | _ => none

/-- The string at the pointer, and what follows its end. -/
def readStr : List UInt8 → Option (List UInt8 × List UInt8)
  | [] => none
  | b :: rest => if b = 0 then some ([], rest) else (readStr rest).map fun r => (b :: r.1, r.2)

/-- The include directories; only 64 are kept. -/
def readDirs : Nat → List UInt8 → List (List UInt8) → Option (List (List UInt8) × List UInt8)
  | 0, _, _ => none
  | fuel + 1, data, dirs =>
    match data with
    | [] => none
    | b :: rest =>
      if b = 0 then some (dirs, rest)
      else (readStr data).bind fun r =>
        readDirs fuel r.2 (if dirs.length < 64 then dirs ++ [r.1] else dirs)

/-- `snprintf` into `fullpath`. -/
def fullpath (dirs : List (List UInt8)) (dirIdx : Nat) (name : List UInt8) : List UInt8 :=
  if 0 < dirIdx ∧ dirIdx ≤ dirs.length then (dirs.getD (dirIdx - 1) [] ++ 47 :: name).take 511
  else name.take 511

/-- The file names. -/
def readFiles (dirs : List (List UInt8)) :
    Nat → List UInt8 → List (List UInt8) → Option (List (List UInt8) × List UInt8)
  | 0, _, _ => none
  | fuel + 1, data, files =>
    match data with
    | [] => none
    | b :: rest =>
      if b = 0 then some (files, rest)
      else (readStr data).bind fun name => (readUleb name.2).bind fun dirIdx =>
        (readUleb dirIdx.2).bind fun time => (readUleb time.2).bind fun size =>
          readFiles dirs fuel size.2 (files ++ [fullpath dirs dirIdx.1 name.1])

/-! ## The state machine -/

/-- The fields of the header that the program uses. -/
structure LineHeader where
  minInsnLen : Nat
  lineBase : Int
  lineRange : Nat
  opcodeBase : Nat
  fileStart : Nat

/-- The registers, and the table so far. -/
structure LineState where
  addr : Nat
  file : Nat
  line : Nat
  lines : List LineEntry

/-- `add_line(addr, file - 1 + file_start, line)`. -/
def LineState.addLine (h : LineHeader) (s : LineState) : LineState :=
  { s with lines := s.lines ++
    [⟨s.addr, s.line % 65536, sub32 (add32 s.file h.fileStart) 1 % 65536⟩] }

/-- An extended opcode. -/
def stepExtended (data : List UInt8) (s : LineState) : Option (List UInt8 × LineState) :=
  (readUleb data).bind fun extLen => (read8 extLen.2).bind fun extOp =>
    let extEnd := extLen.2.drop extLen.1
    if extOp.1 = 1 then some (extEnd, { s with addr := 0, file := 1, line := 1 })
    else if extOp.1 = 2 then
      (read32 extOp.2).map fun addr => (extEnd, { s with addr := addr.1 })
    else some (extEnd, s)

/-- A standard opcode. -/
def stepStandard (h : LineHeader) (op : Nat) (data : List UInt8) (s : LineState) :
    Option (List UInt8 × LineState) :=
  match op with
  | 1 => some (data, s.addLine h)
  | 2 => (readUleb data).map fun r => (r.2, { s with addr := add32 s.addr (r.1 * h.minInsnLen) })
  | 3 => (readSleb data).map fun r => (r.2, { s with line := add32 s.line r.1 })
  | 4 => (readUleb data).map fun r => (r.2, { s with file := r.1 })
  | 5 => (readUleb data).map fun r => (r.2, s)
  | 8 => some (data, { s with
      addr := add32 s.addr ((255 - h.opcodeBase) / h.lineRange * h.minInsnLen) })
  | 9 => (read16 data).map fun r => (r.2, { s with addr := add32 s.addr r.1 })
  | _ => some (data, s)

/-- A special opcode. -/
def stepSpecial (h : LineHeader) (op : Nat) (s : LineState) : LineState :=
  let adjusted := op - h.opcodeBase
  { s with
    addr := add32 s.addr (adjusted / h.lineRange * h.minInsnLen)
    line := add32 s.line (ofS (h.lineBase + (adjusted % h.lineRange : Nat))) }.addLine h

/-- One opcode. -/
def stepOpcode (h : LineHeader) (data : List UInt8) (s : LineState) :
    Option (List UInt8 × LineState) :=
  (read8 data).bind fun op =>
    if op.1 = 0 then stepExtended op.2 s
    else if op.1 < h.opcodeBase then stepStandard h op.1 op.2 s
    else some (op.2, stepSpecial h op.1 s)

/-- The program, up to the end of the unit. -/
def runProgram (h : LineHeader) (unitEnd : List UInt8) : Nat → List UInt8 → LineState → Option LineState
  | 0, data, s => if unitEnd.length < data.length then none else some s
  | fuel + 1, data, s =>
    if unitEnd.length < data.length then
      (stepOpcode h data s).bind fun r => runProgram h unitEnd fuel r.1 r.2
    else some s

/-! ## Units -/

/-- An `int8_t`. -/
def int8 (b : Nat) : Int := if b < 128 then b else b - 256

/-- The rest of a unit whose version is supported, from behind the version on. -/
def parseUnit (version : Nat) (data unitEnd : List UInt8) (t : LineTables) : Option LineTables :=
  (read32 data).bind fun headerLen =>
  (read8 headerLen.2).bind fun minInsnLen =>
  let maxOps := if 4 ≤ version then minInsnLen.2.drop 1 else minInsnLen.2
  (read8 maxOps).bind fun isStmt =>
  (read8 isStmt.2).bind fun lineBase =>
  (read8 lineBase.2).bind fun lineRange =>
  (read8 lineRange.2).bind fun opcodeBase =>
  (readDirs data.length (opcodeBase.2.drop (opcodeBase.1 - 1)) []).bind fun dirs =>
  (readFiles dirs.1 data.length dirs.2 t.files).bind fun files =>
  let h : LineHeader :=
    ⟨minInsnLen.1, int8 lineBase.1, lineRange.1, opcodeBase.1, t.files.length⟩
  (runProgram h unitEnd data.length (headerLen.2.drop headerLen.1) ⟨0, 1, 1, t.lines⟩).map fun s =>
    ⟨s.lines, files.1⟩

/-- The loop over the units. -/
def parseUnits : Nat → List UInt8 → LineTables → Option LineTables
  | 0, data, t => if data = [] then some t else none
  | fuel + 1, data, t =>
    if data = [] then some t
    else (read32 data).bind fun unitLen => (read16 unitLen.2).bind fun version =>
      let unitEnd := unitLen.2.drop unitLen.1
      if version.1 < 2 ∨ 4 < version.1 then parseUnits fuel unitEnd t
      else (parseUnit version.1 version.2 unitEnd t).bind (parseUnits fuel unitEnd)

/-- `line_cmp(a, b) <= 0`; the difference wraps. -/
def lineLe (a b : Nat) : Bool := decide (toS (sub32 a b) ≤ 0)

/-- `parse_debug_line` on empty tables. `qsort` is taken to be stable. -/
def parseDebugLine (data : List UInt8) : Option LineTables :=
  (parseUnits data.length data ⟨[], []⟩).map fun t =>
    { t with lines := t.lines.mergeSort fun a b => lineLe a.addr b.addr }

/-- A row as `line_lookup` shows it. -/
structure Row where
  addr : Nat
  file : Option (List UInt8)
  line : Nat
deriving DecidableEq

def LineTables.rows (t : LineTables) : List Row :=
  t.lines.map fun e => ⟨e.addr, t.files[e.fileIdx]?, e.line⟩

end Embedded.Dbg
