import Embedded.Kernel.Elf
import Embedded.Kernel.State

/-! # Building a program image (`kernel/proc.c`, the part before the process table)

What `execve` and `proc_spawn_elf` share: loading a program and its interpreter, mapping the user
stack, writing the argument vector into it, reading a `#!` line. -/

namespace Embedded.Kernel

/-- `PIE_BASE`. -/
def pieBase : Nat := 0x00200000

/-- `INTERP_BASE`. -/
def interpBase : Nat := 0x20000000

/-- `struct load_result`. -/
structure LoadResult where
  pc : Nat := 0
  brkEnd : Nat := 0
  dynamic : Bool := false
  phdrVa : Nat := 0
  phent : Nat := 0
  phnum : Nat := 0
  appEntry : Nat := 0
  interpBase : Nat := 0
  /-- `ii.brk_end` of the source, which it does not keep. -/
  interpEnd : Nat := 0

/-- What `load_program` fills in from the program's own image. -/
def LoadResult.ofApp (ai : ElfInfo) : LoadResult :=
  { pc := ai.entry, brkEnd := ai.brkEnd, phdrVa := ai.phdrVa, phent := ai.phent, phnum := ai.phnum,
    appEntry := ai.entry }

/-- `load_program`. -/
def loadProgram (fs : Fs) (l1 app : Nat) : (Int × LoadResult) × Fs :=
  let hdr := ramfsRead fs app 0 20
  if hdr.1 ≠ 20 then ((-8, {}), fs)
  else
    let bias := if rd16 hdr.2 16 = 3 then pieBase else 0
    let r := vfsLoadElf fs app l1 bias
    if r.1.1 ≠ 0 then ((r.1.1, {}), r.2)
    else
      let ai := r.1.2
      let lr := LoadResult.ofApp ai
      if !ai.hasInterp then ((if ai.isDyn then -8 else 0, lr), r.2)
      else
        let interp := ramfsLookup r.2 r.2.root ai.interp true
        if interp = 0 ∨ (r.2.inodes interp).type ≠ .reg then ((-2, lr), r.2)
        else
          let s := vfsLoadElf r.2 interp l1 interpBase
          let ii := s.1.2
          if s.1.1 ≠ 0 then ((s.1.1, lr), s.2)
          else if !ii.isDyn then ((-8, lr), s.2)
          else
            ((0, { lr with
              dynamic := true, pc := ii.entry, interpBase := interpBase, interpEnd := ii.brkEnd }),
              s.2)

/-- The pages of `map_user_stack`, highest first: `USTACK_PAGES` below `USER_VA_MAX`. -/
def stackPages : List Nat := (List.range 32).map fun i => userVaMax - (i + 1) * 4096

/-- `map_user_stack`. -/
def mapUserStack (m : Mm) (l1 : Nat) : Int × Mm :=
  let r := mapPages l1 false m [] stackPages
  (if r.1 then 0 else -1, r.2)

/-- The loops of `setup_user_stack` that copy strings to the top of the page, downward: the new
    stack pointer and the strings' addresses, or `none` when one does not fit. `pa` is where the page
    `[pageLo, pageLo + 4096)` lies in memory. -/
def pushStrings (pa pageLo : Nat) : List Bytes → Nat → Mem → Option (Nat × List Nat) × Mem
  | [], sp, mem => (some (sp, []), mem)
  | s :: ss, sp, mem =>
    let sp := sub32 sp (s.length + 1)
    if sp < pageLo then (none, mem)
    else
      let r := pushStrings pa pageLo ss sp (mem.write (pa + (sp - pageLo)) (s ++ [0]))
      (r.1.map fun t => (t.1, sp :: t.2), r.2)

/-- Store words one after the other. -/
def writeWords : Nat → List Nat → Mem → Mem
  | _, [], mem => mem
  | a, w :: ws, mem => writeWords (a + 4) ws (mem.w32 a w)

/-- The auxiliary vector. -/
def auxv (lr : LoadResult) (atRandom : Nat) : List Nat :=
  (if lr.dynamic then
    [3, lr.phdrVa, 4, lr.phent, 5, lr.phnum, 9, lr.appEntry, 7, lr.interpBase,
      11, 0, 12, 0, 13, 0, 14, 0, 23, 0]
  else []) ++ [6, 4096, 25, atRandom, 0, 0]

/-- The second half of `setup_user_stack`: the random bytes, then `argc`, the two pointer arrays and
    the auxiliary vector below them. -/
def pushVector (m : Mm) (pa pageLo sp : Nat) (argvVa envpVa : List Nat) (lr : LoadResult) :
    Nat × Mm :=
  let sp := sub32 sp 16
  if sp < pageLo then (0, m)
  else
    let mem := m.mem.write (pa + (sp - pageLo))
      ((List.range 16).map fun i => UInt8.ofNat (0xA5 + i))
    let words := argvVa.length :: argvVa ++ 0 :: envpVa ++ 0 :: auxv lr sp
    if sp < pageLo + words.length * 4 then (0, { m with mem := mem })
    else
      let vec := (sp - words.length * 4) / 16 * 16
      if vec < pageLo then (0, { m with mem := mem })
      else (vec, { m with mem := writeWords (pa + (vec - pageLo)) words mem })

/-- `setup_user_stack`: the entry stack pointer, `0` when the strings do not fit the top page. -/
def setupUserStack (m : Mm) (l1 stackTop : Nat) (argv envp : List Bytes) (lr : LoadResult) :
    Nat × Mm :=
  let pageLo := pageDown (sub32 stackTop 1)
  let pa := vmWalk m l1 pageLo
  if pa = 0 then (0, m)
  else if argv.length ≥ 64 ∨ envp.length ≥ 64 then (0, m)
  else
    let r := pushStrings pa pageLo argv.reverse stackTop m.mem
    match r.1 with
    | none => (0, { m with mem := r.2 })
    | some (sp, argvVa) =>
      let s := pushStrings pa pageLo envp.reverse sp r.2
      match s.1 with
      | none => (0, { m with mem := s.2 })
      | some (sp, envpVa) =>
        pushVector { m with mem := s.2 } pa pageLo sp argvVa.reverse envpVa.reverse lr

/-- A blank of a `#!` line. -/
def isBlank (c : UInt8) : Bool := c == 32 || c == 9

/-- `parse_shebang` on the first bytes of a file: the return value, the interpreter, and the
    optional argument. -/
def parseShebang (hdr : Bytes) : Int × Bytes × Option Bytes :=
  if hdr.take 2 ≠ [35, 33] then (0, [], none)
  else
    let line := ((hdr.take 256).drop 2).dropWhile isBlank
    let interp := line.takeWhile fun c => !isBlank c && c != 10 && c != 0
    if interp = [] ∨ interp.length ≥ 128 then (-1, [], none)
    else
      let rest := (line.drop interp.length).dropWhile isBlank
      let arg := rest.takeWhile fun c => c != 10 && c != 0
      (1, interp, if 0 < arg.length ∧ arg.length < 128 then some arg else none)

/-! ## Argument vectors -/

/-- `struct bprm`: the vectors as the stack builder reads them, with `none` for a null pointer, and
    the bytes of the buffer in use. -/
structure Bprm where
  argv : List (Option Bytes) := []
  envp : List (Option Bytes) := []
  used : Nat := 0

/-- `bprm_dup`: the copy, or `none` when the buffer of `EXEC_ARGBUF` bytes is full. -/
def bprmDup (used : Nat) (s : Bytes) : Option Bytes × Nat :=
  if used + s.length + 1 ≤ 4096 then (some s, used + s.length + 1) else (none, max used 4096)

/-- `bprm_copy_vec`: the copies, or `none` past `EXEC_MAXARG` strings or a full buffer. -/
def bprmCopyVec : List Bytes → Nat → Nat → Option (List (Option Bytes)) × Nat
  | [], _, used => (some [], used)
  | s :: ss, n, used =>
    if n ≥ 64 then (none, used)
    else
      let r := bprmDup used s
      match r.1 with
      | none => (none, r.2)
      | some c =>
        let t := bprmCopyVec ss (n + 1) r.2
        (t.1.map fun cs => some c :: cs, t.2)

/-- What a reader of a null-terminated vector sees of it. -/
def cVector : List (Option Bytes) → List Bytes
  | some s :: rest => s :: cVector rest
  | _ => []

/-- The splice of a script: `[interp, (arg), path, argv[1..]]`, cut at `EXEC_MAXARG`. -/
def spliceArgs (b : Bprm) (interp : Bytes) (arg : Option Bytes) (path : Bytes) : Bprm :=
  let r := bprmDup b.used interp
  let s := match arg with
    | none => ([r.1], r.2)
    | some a => let t := bprmDup r.2 a; ([r.1, t.1], t.2)
  let t := bprmDup s.2 path
  let head := s.1 ++ [t.1]
  { b with argv := head ++ (b.argv.drop 1).take (64 - head.length), used := t.2 }

end Embedded.Kernel
