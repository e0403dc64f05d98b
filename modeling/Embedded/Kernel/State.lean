import Embedded.Kernel.Ramfs
import Mathlib.Algebra.Ring.Nat

/-! # The state of the kernel

The process table, the open files and the filesystem, as `proc.h` and `file.h` lay them out. A
process control block is named by its slot in the table, an open file by the address of its heap
block. The floating-point registers, the thread pointer and the signal dispositions of a process are
left out: nothing modelled reads them. -/

namespace Embedded.Kernel

/-- Slots of the process table; there are `NPROC` of them. -/
abbrev Slot := Fin 8

/-- Descriptors of a process; there are `NOFILE` of them. -/
abbrev Fd := Fin 16

scoped instance slotNeZero : NeZero 8 := ⟨by decide⟩

scoped instance fdNeZero : NeZero 16 := ⟨by decide⟩

/-- `enum pstate`. -/
inductive PState
  | unused | embryo | runnable | running | blocked | zombie
deriving DecidableEq, Repr

/-- What a process sleeps on: an address, of a process control block or of an inode. -/
inductive Chan
  | proc (i : Slot)
  | inode (p : Nat)
deriving DecidableEq, Repr

/-- `struct trapframe`. -/
structure Trapframe where
  spUsr : Nat := 0
  lrUsr : Nat := 0
  r : Nat → Nat := fun _ => 0
  pc : Nat := 0
  cpsr : Nat := 0

/-- The memory map of a process. -/
structure MemMap where
  l1Pa : Nat := 0
  brkStart : Nat := 0
  brk : Nat := 0
  brkCeiling : Nat := 0
  mmapTop : Nat := 0
  /-- Not in the source, which computes it and drops it: the page-rounded end of the interpreter
      image that `load_program` put at `INTERP_BASE`, `0` in a static process. -/
  interpEnd : Nat := 0

/-- What the scheduler and `wait` read of a process. -/
structure Task where
  pid : Nat := 0
  state : PState := .unused
  parent : Option Slot := none
  exitCode : Int := 0
  killedSig : Nat := 0
  waitChan : Option Chan := none
  /-- Not in the source: the pid of the process that forked this one, `0` for the first. -/
  creator : Nat := 0

/-- `struct proc`. -/
structure Proc extends MemMap, Task where
  tf : Trapframe := {}
  fds : Fd → Option Nat := fun _ => none
  cwd : Nat := 0

/-- `struct file`. -/
structure File where
  inode : Nat
  off : Nat
  flags : Nat
  refcnt : Int
  dirPos : Nat
  /-- Not in the source: the flags the file was opened with. -/
  created : Nat

/-- The whole kernel. `cur` is the process the processor runs or ran last. -/
structure KState extends Fs where
  files : Nat → Option File
  procs : Slot → Proc
  cur : Slot
  nextPid : Nat
  /-- The kernel sits in `for (;;) wfi`. -/
  halted : Bool

namespace KState

/-- `*cur`. -/
def proc (k : KState) : Proc := k.procs k.cur

def setProc (k : KState) (i : Slot) (p : Proc) : KState :=
  { k with procs := Function.update k.procs i p }

def setFile (k : KState) (p : Nat) (f : Option File) : KState :=
  { k with files := Function.update k.files p f }

/-- Run a function of the filesystem. -/
def withFs {α : Type} (k : KState) (r : α × Fs) : α × KState := (r.1, { k with toFs := r.2 })

end KState

/-- A `long` or `int` stored in a register. -/
def toReg (v : Int) : Nat := (v % 4294967296).toNat

/-- `set_ret`: the return value of the current process's system call. -/
def setRet (k : KState) (v : Int) : KState :=
  let p := k.proc
  k.setProc k.cur { p with tf := { p.tf with r := Function.update p.tf.r 0 (toReg v) } }

/-- `cur->tf = *tf`, on entry into the kernel. -/
def saveTf (k : KState) (tf : Trapframe) : KState := k.setProc k.cur { k.proc with tf := tf }

/-- `proc_wakeup`. -/
def procWakeup (k : KState) (chan : Chan) : KState :=
  { k with
    procs := fun i =>
      let p := k.procs i
      if p.state = .blocked ∧ p.waitChan = some chan then
        { p with waitChan := none, state := .runnable }
      else p }

/-! ## Open files (`fs/file.c`) -/

/-- The counters of a pipe with `delta` more files of the access mode in `flags`. -/
def RfInode.account (n : RfInode) (flags : Nat) (delta : Int) : RfInode :=
  if flags % 4 = 0 then { n with rdOpen := n.rdOpen + delta }
  else if flags % 4 = 1 then { n with wrOpen := n.wrOpen + delta }
  else { n with rdOpen := n.rdOpen + delta, wrOpen := n.wrOpen + delta }

/-- `pipe_open_account`. -/
def pipeOpenAccount (k : KState) (f : File) (delta : Int) : KState :=
  let n := k.inodes f.inode
  if f.inode = 0 ∨ n.type ≠ .pipe then k
  else
    let n := n.account f.flags delta
    let k := { k with toFs := k.toFs.setInode f.inode n }
    if delta < 0 ∧ (n.wrOpen = 0 ∨ n.rdOpen = 0) then procWakeup k (.inode f.inode) else k

/-- The file `file_open_inode` fills in. -/
def newFile (ino flags : Nat) : File :=
  { inode := ino, off := 0, flags := flags, refcnt := 1, dirPos := 0, created := flags }

/-- `file_open_inode`. An answer of the heap that names a live file counts as NULL. -/
def fileOpenInode (k : KState) (ino flags : Nat) : Nat × KState :=
  let r := k.withFs (kmalloc k.toFs)
  if r.1 = 0 ∨ (r.2.files r.1).isSome then (0, r.2)
  else
    let f := newFile ino flags
    (r.1, pipeOpenAccount (r.2.setFile r.1 (some f)) f 1)

/-- `file_dup`. -/
def fileDup (k : KState) (p : Nat) : KState :=
  match k.files p with
  | none => k
  | some f => k.setFile p (some { f with refcnt := f.refcnt + 1 })

/-- `file_close`. -/
def fileClose (k : KState) (p : Nat) : KState :=
  match k.files p with
  | none => k
  | some f =>
    let f := { f with refcnt := f.refcnt - 1 }
    if f.refcnt ≤ 0 then (pipeOpenAccount k f (-1)).setFile p none else k.setFile p (some f)

/-- `t->fd[fd] = f`, in the table of process `i`. -/
def setFd (k : KState) (i : Slot) (fd : Fd) (f : Option Nat) : KState :=
  let p := k.procs i
  k.setProc i { p with fds := Function.update p.fds fd f }

/-- The bounds check `fd < 0 || fd >= NOFILE`. -/
def fdIndex (fd : Int) : Option Fd :=
  if h : 0 ≤ fd ∧ fd < 16 then some ⟨fd.toNat, by omega⟩ else none

/-- `fd_get` on the table of the current process. -/
def fdGet (k : KState) (fd : Int) : Option Nat :=
  match fdIndex fd with
  | none => none
  | some i => k.proc.fds i

/-- `fd_alloc_from`: install `f` at the lowest free descriptor that is at least `min`. -/
def fdAllocFrom (k : KState) (f : Nat) (min : Int) : Int × KState :=
  match (List.finRange 16).find? fun i => decide (min ≤ (i.val : Int)) && (k.proc.fds i).isNone with
  | none => (-1, k)
  | some i => ((i.val : Int), setFd k k.cur i (some f))

/-- `fd_alloc`. -/
def fdAlloc (k : KState) (f : Nat) : Int × KState := fdAllocFrom k f 0

/-- `if (t->fd[i]) { file_close(t->fd[i]); t->fd[i] = 0; }`. -/
def closeSlot (k : KState) (i : Slot) (fd : Fd) : KState :=
  match (k.procs i).fds fd with
  | none => k
  | some p => setFd (fileClose k p) i fd none

/-- `fd_install_at`. -/
def fdInstallAt (k : KState) (fd : Int) (f : Nat) : Int × KState :=
  match fdIndex fd with
  | none => (-1, k)
  | some i =>
    let k := match k.proc.fds i with
      | none => k
      | some p => fileClose k p
    (fd, setFd k k.cur i (some f))

/-- `fd_close`. -/
def fdClose (k : KState) (fd : Int) : Int × KState :=
  match fdIndex fd with
  | none => (-9, k)
  | some i => if (k.proc.fds i).isNone then (-9, k) else (0, closeSlot k k.cur i)

/-- One round of `fdtable_copy`. -/
def copySlot (dst src : Slot) (k : KState) (fd : Fd) : KState :=
  match (k.procs src).fds fd with
  | none => setFd k dst fd none
  | some p => fileDup (setFd k dst fd (some p)) p

/-- `fdtable_copy`. -/
def fdtableCopy (k : KState) (dst src : Slot) : KState :=
  (List.finRange 16).foldl (copySlot dst src) k

/-- `fdtable_closeall`. -/
def fdtableCloseall (k : KState) (i : Slot) : KState :=
  (List.finRange 16).foldl (fun k fd => closeSlot k i fd) k

end Embedded.Kernel
