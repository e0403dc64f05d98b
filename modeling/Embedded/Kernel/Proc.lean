import Embedded.Kernel.Exec

/-! # Processes (`kernel/proc.c`)

The process table and the transitions on it: fork, exec, sleep and wakeup, exit, fault, wait, and
the timer's preemption. One process runs at a time; a function that switches returns the state in
which the chosen process is `cur`. -/

namespace Embedded.Kernel

/-- `alloc_proc`: claim the first unused slot. -/
def allocProc (k : KState) : Option Slot × KState :=
  match (List.finRange 8).find? fun i => (k.procs i).state = .unused with
  | none => (none, k)
  | some i =>
    (some i,
      { k.setProc i
          { k.procs i with
            state := .embryo, pid := k.nextPid, parent := none, exitCode := 0, killedSig := 0,
            waitChan := none, brk := 0, brkCeiling := mmapTop, creator := 0 } with
        nextPid := k.nextPid + 1 })

/-- `pick_next`: round robin from the slot after `cur`, `cur` itself last. -/
def pickNext (k : KState) : Option Slot :=
  match ((List.finRange 8).map fun j => k.cur + j + 1).find? fun i =>
      (k.procs i).state = .runnable with
  | some i => some i
  | none => if k.proc.state = .runnable ∨ k.proc.state = .running then some k.cur else none

/-- `switch_to`. -/
def switchTo (k : KState) (i : Slot) : KState :=
  { k.setProc i { k.procs i with state := .running } with cur := i }

/-- `p->state = s`. -/
def setState (k : KState) (i : Slot) (s : PState) : KState :=
  k.setProc i { k.procs i with state := s }

/-! ## Starting the first process -/

/-- The registers of a fresh program. -/
def entryFrame (usp pc : Nat) : Trapframe := { spUsr := usp, pc := pc, cpsr := 0x10 }

/-- The memory map of a fresh program. -/
def LoadResult.memMap (lr : LoadResult) (l1 : Nat) : MemMap :=
  { l1Pa := l1
    brkStart := lr.brkEnd
    brk := lr.brkEnd
    brkCeiling := if lr.dynamic then Kernel.interpBase else Kernel.mmapTop
    mmapTop := Kernel.mmapTop
    interpEnd := lr.interpEnd }

/-- One of the three opens of `init_stdio`. -/
def openStdio (con : Nat) (i : Slot) (fd : Fd) (flags : Nat) (k : KState) : KState :=
  let r := fileOpenInode k con flags
  if r.1 = 0 then r.2 else setFd r.2 i fd (some r.1)

/-- `"/dev/console"`. -/
def consolePath : Bytes := [47, 100, 101, 118, 47, 99, 111, 110, 115, 111, 108, 101]

/-- `init_stdio`. The source opens the three files first and installs them afterwards; nothing
    happens in between. -/
def initStdio (k : KState) (i : Slot) : KState :=
  let k := k.setProc i { k.procs i with fds := fun _ => none, cwd := k.root }
  let con := ramfsLookup k.toFs k.root consolePath true
  if con = 0 then k
  else openStdio con i 2 1 (openStdio con i 1 1 (openStdio con i 0 0 k))

/-- `vm_destroy(p->l1_pa); p->state = P_UNUSED;`. -/
def abandon (k : KState) (i : Slot) (l1 : Nat) : KState :=
  setState { k with mm := vmDestroy k.mm l1 } i .unused

/-- The second half of `proc_spawn_elf`, in the claimed slot `i`. -/
def spawnIn (k : KState) (i : Slot) (ino : Nat) (argv : List Bytes) : Bool × KState :=
  let r := vmCreate k.mm
  let k := { k with mm := r.2 }.setProc i { k.procs i with l1Pa := r.1 }
  if r.1 = 0 then (false, setState k i .unused)
  else
    let s := loadProgram k.toFs r.1 ino
    let k := { k with toFs := s.2 }
    if s.1.1 ≠ 0 then (false, abandon k i r.1)
    else
      let t := mapUserStack k.mm r.1
      let k := { k with mm := t.2 }
      if t.1 ≠ 0 then (false, abandon k i r.1)
      else
        let u := setupUserStack k.mm r.1 userVaMax argv [] s.1.2
        let k := { k with mm := u.2 }
        if u.1 = 0 then (false, abandon k i r.1)
        else
          let k := initStdio (k.setProc i { k.procs i with toMemMap := s.1.2.memMap r.1 }) i
          (true,
            k.setProc i
              { k.procs i with tf := entryFrame u.1 s.1.2.pc, state := .runnable })

/-- `proc_spawn_elf`. -/
def procSpawnElf (k : KState) (path : Bytes) : Bool × KState :=
  let ino := ramfsLookup k.toFs k.root path true
  if ino = 0 ∨ (k.inodes ino).type ≠ .reg then (false, k)
  else
    let got := ramfsRead k.toFs ino 0 128
    let sh := parseShebang got.2
    let script := decide (got.1 ≥ 2) && decide (sh.1 = 1)
    let argv := if script then sh.2.1 :: sh.2.2.toList ++ [path] else [path]
    let ino := if script then ramfsLookup k.toFs k.root sh.2.1 true else ino
    if ino = 0 ∨ (k.inodes ino).type ≠ .reg then (false, k)
    else
      match allocProc k with
      | (none, k) => (false, k)
      | (some i, k) => spawnIn k i ino argv

/-- `proc_run_first`: enter the first runnable process, if there is one. -/
def procRunFirst (k : KState) : Option KState :=
  ((List.finRange 8).find? fun i => (k.procs i).state = .runnable).map (switchTo k)

/-! ## Fork -/

/-- The child's control block at the end of `do_fork`. -/
def childProc (k : KState) (child : Slot) (childSp : Nat) : Proc :=
  let p := k.proc
  { k.procs child with
    parent := some k.cur
    creator := p.pid
    tf := { p.tf with
      r := Function.update p.tf.r 0 0
      spUsr := if childSp = 0 then p.tf.spUsr else childSp }
    cwd := p.cwd
    brkStart := p.brkStart
    brk := p.brk
    brkCeiling := p.brkCeiling
    mmapTop := p.mmapTop
    interpEnd := p.interpEnd
    state := .runnable }

/-- `do_fork`. -/
def doFork (k : KState) (childSp : Nat) : KState :=
  match allocProc k with
  | (none, k) => setRet k (-11)
  | (some i, k) =>
    let r := vmCreate k.mm
    let k := { k with mm := r.2 }.setProc i { k.procs i with l1Pa := r.1 }
    if r.1 = 0 then setRet (setState k i .unused) (-12)
    else
      let s := vmCopy k.mm r.1 k.proc.l1Pa
      let k := { k with mm := s.2 }
      if s.1 ≠ 0 then setRet (abandon k i r.1) (-12)
      else
        let k := fdtableCopy k i k.cur
        setRet (k.setProc i (childProc k i childSp)) (k.procs i).pid

/-- `proc_fork`. -/
def procFork (k : KState) : KState := doFork k 0

/-- `proc_clone`: fork with a stack, and no threads (`CLONE_VM`). -/
def procClone (k : KState) (flags childStack : Nat) : KState :=
  if flags &&& 0x100 ≠ 0 then setRet k (-38) else doFork k childStack

/-! ## Exec -/

/-- `exec_commit`. -/
def execCommit (k : KState) (newL1 : Nat) (lr : LoadResult) (argv envp : List Bytes) : KState :=
  let t := mapUserStack k.mm newL1
  let k := { k with mm := t.2 }
  if t.1 ≠ 0 then setRet { k with mm := vmDestroy k.mm newL1 } (-12)
  else
    let u := setupUserStack k.mm newL1 userVaMax argv envp lr
    let k := { k with mm := u.2 }
    if u.1 = 0 then setRet { k with mm := vmDestroy k.mm newL1 } (-7)
    else
      let k := { k with mm := vmDestroy k.mm k.proc.l1Pa }
      k.setProc k.cur { k.proc with toMemMap := lr.memMap newL1, tf := entryFrame u.1 lr.pc }

/-- The end of `proc_execve`: load a real binary into a fresh address space. -/
def execImage (k : KState) (ino : Nat) (b : Bprm) : KState :=
  let r := vmCreate k.mm
  let k := { k with mm := r.2 }
  if r.1 = 0 then setRet k (-12)
  else
    let s := loadProgram k.toFs r.1 ino
    let k := { k with toFs := s.2 }
    if s.1.1 ≠ 0 then setRet { k with mm := vmDestroy k.mm r.1 } (-8)
    else execCommit k r.1 s.1.2 (cVector b.argv) (cVector b.envp)

/-- The loop of `proc_execve` that follows `#!` lines. -/
def execLoop (k : KState) : Nat → Bytes → Bprm → KState
  | 0, _, _ => setRet k (-40)
  | depth + 1, path, b =>
    let ino := ramfsLookup k.toFs k.proc.cwd path true
    if ino = 0 ∨ (k.inodes ino).type ≠ .reg then setRet k (-2)
    else
      let got := ramfsRead k.toFs ino 0 128
      if got.1 < 0 then setRet k (-8)
      else if got.1 ≥ 2 ∧ got.2.take 2 = [35, 33] then
        let r := parseShebang got.2
        if r.1 ≤ 0 then setRet k (-8)
        else execLoop k depth (strlcpy r.2.1 128) (spliceArgs b r.2.1 r.2.2 path)
      else execImage k ino b

/-- `proc_execve`. -/
def procExecve (k : KState) (path : Bytes) (argv envp : List Bytes) : KState :=
  let a := bprmCopyVec argv 0 0
  match a.1 with
  | none => setRet k (-7)
  | some av =>
    let e := bprmCopyVec envp 0 a.2
    match e.1 with
    | none => setRet k (-7)
    | some ev => execLoop k 4 (strlcpy path 128) { argv := av, envp := ev, used := e.2 }

/-! ## Sleep, exit, wait, preemption -/

/-- `proc_sleep`: did it block? -/
def procSleep (k : KState) (chan : Chan) : Bool × KState :=
  match pickNext k with
  | none => (false, k)
  | some nx =>
    if nx = k.cur then (false, k)
    else
      let p := k.proc
      (true,
        switchTo
          (k.setProc k.cur
            { p with
              waitChan := some chan, state := .blocked
              tf := { p.tf with pc := sub32 p.tf.pc 4 } })
          nx)

/-- One round of the loop that hands the children of the dying process to init. -/
def reparentOne (initp : Slot) (k : KState) (i : Slot) : KState :=
  let c := k.procs i
  if i ≠ k.cur ∧ c.state ≠ .unused ∧ c.parent = some k.cur then
    let k := k.setProc i { c with parent := some initp }
    if c.state = .zombie then procWakeup k (.proc initp) else k
  else k

/-- The reparenting loop of `reap_current_and_switch`. -/
def reparent (k : KState) : KState :=
  match (List.finRange 8).find? fun i =>
      decide ((k.procs i).pid = 1) && decide ((k.procs i).state ≠ .unused) with
  | none => k
  | some initp => if initp = k.cur then k else (List.finRange 8).foldl (reparentOne initp) k

/-- `if (cur->parent) proc_wakeup(cur->parent);`. -/
def wakeParent (k : KState) : KState :=
  match k.proc.parent with
  | none => k
  | some p => procWakeup k (.proc p)

/-- `reap_current_and_switch` up to the choice of the next process: the caller is a zombie without
    files and address space, its children are handed over, its parent is awake. -/
def reapCurrent (k : KState) (code : Int) (sig : Nat) : KState :=
  let k := k.setProc k.cur { k.proc with exitCode := code, killedSig := sig, state := .zombie }
  let k := fdtableCloseall k k.cur
  let k := k.setProc k.cur { k.proc with l1Pa := 0 }
  wakeParent (reparent k)

/-- `reap_current_and_switch`. -/
def reapCurrentAndSwitch (k : KState) (code : Int) (sig : Nat) : KState :=
  let deadL1 := k.proc.l1Pa
  let k := reapCurrent k code sig
  match pickNext k with
  | none => { k with halted := true }
  | some nx => { switchTo k nx with mm := vmDestroy k.mm deadL1 }

/-- `proc_exit`. -/
def procExit (k : KState) (code : Int) : KState := reapCurrentAndSwitch k code 0

/-- `fault_trap`: a fault in user mode kills the process, one in the kernel stops the machine. -/
def faultTrap (k : KState) (kind : Nat) (tf : Trapframe) : KState :=
  let k := saveTf k tf
  if tf.cpsr % 32 ≠ 0x10 then { k with halted := true }
  else reapCurrentAndSwitch k 0 (if kind = 0 then 4 else 11)

/-- The status `proc_wait` reports for a zombie. -/
def waitStatus (c : Proc) : Int :=
  if c.killedSig ≠ 0 then ((c.killedSig % 128 : Nat) : Int) else c.exitCode % 256 * 256

/-- `proc_wait`: the return value and the status that goes to the caller's `status_uptr`. -/
def procWait (k : KState) : Option Int × KState :=
  match (List.finRange 8).find? fun i =>
      decide ((k.procs i).state = .zombie) && decide ((k.procs i).parent = some k.cur) with
  | some i =>
    (some (waitStatus (k.procs i)), setRet (setState k i .unused) (k.procs i).pid)
  | none =>
    let haveChild := (List.finRange 8).any fun i =>
      decide ((k.procs i).parent = some k.cur) && decide ((k.procs i).state ≠ .unused)
    if haveChild then
      let r := procSleep k (.proc k.cur)
      (none, if r.1 then r.2 else setRet k (-10))
    else (none, setRet k (-10))

/-- `proc_preempt`: at a tick in user mode, hand the processor to the next runnable process. -/
def procPreempt (k : KState) (tf : Trapframe) : KState :=
  if tf.cpsr % 32 ≠ 0x10 then k
  else
    match pickNext k with
    | none => k
    | some nx =>
      if nx = k.cur then k
      else switchTo (k.setProc k.cur { k.proc with tf := tf, state := .runnable }) nx

end Embedded.Kernel
