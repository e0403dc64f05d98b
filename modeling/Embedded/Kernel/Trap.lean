import Embedded.Lib.Run
import Embedded.Kernel.Cpio
import Embedded.Kernel.FsSyscall
import Embedded.Kernel.Mmap

/-! # The kernel as a machine (`arch/arm/syscall.c`, `kernel/main.c`)

`boot` is `kmain` up to the first instruction of `/init`. From there the kernel is entered by system
calls, timer ticks and faults, one at a time, and every entry runs to its end. An event carries what
the entry finds outside the kernel: the trap frame, the arguments, and the bytes behind the
arguments that are user pointers. -/

namespace Embedded.Kernel

/-- The system calls that touch the modelled state, with their arguments. -/
inductive Call
  | fork
  | clone (flags childStack : UInt32)
  | execve (path : Bytes) (argv envp : List Bytes)
  | wait4
  | exit (code : Int)
  | openat (dirfd : Int) (path : Bytes) (flags mode : UInt32)
  | close (fd : Int)
  | read (fd : Int) (n : UInt32) (input : Bytes)
  | write (fd : Int) (buf : Bytes)
  | readv (fd : Int) (lens : List UInt32) (input : Bytes)
  | writev (fd : Int) (bufs : List Bytes)
  | lseek (fd off whence : Int)
  | llseek (fd : Int) (offHi offLo : UInt32) (whence : Int)
  | dup (fd : Int)
  | dup2 (oldfd newfd : Int)
  | pipe2 (fdsUptr : UInt32)
  | fcntl64 (fd cmd : Int) (arg : UInt32)
  | chdir (path : Bytes)
  | brk (addr : UInt32)
  | mmap2 (addr len flags : UInt32) (fd : Int) (pgoff : UInt32)
  | munmap (addr len : UInt32)
  /-- Any other call: it leaves what is modelled as it is (`getdents64` moves a cursor that only itself
      reads), and returns something. -/
  | other (ret : Int)

/-- An entry into the kernel, or a store of the running program to its own memory. -/
inductive Event
  | syscall (tf : Trapframe) (c : Call)
  | tick (tf : Trapframe)
  | fault (kind : Nat) (tf : Trapframe)
  | store (va : UInt32) (b : UInt8)

/-- What a system call hands back: the return value and the bytes it stores. -/
structure Output where
  ret : Int := 0
  data : Bytes := []

/-- `p->tf.r[0] = (uint32_t)r`, at the end of a call that does not switch. -/
def ret (r : Int × KState) : Output × KState := ({ ret := r.1 }, setRet r.2 r.1)

/-- The same, for a call that stores bytes. -/
def retData (r : (Int × Bytes) × KState) : Output × KState :=
  ({ ret := r.1.1, data := r.1.2 }, setRet r.2 r.1.1)

/-- The case `SYS_read`: sleep while the pipe is empty and has a writer, unless nobody else can
    run. -/
def trapRead (k : KState) (fd : Int) (n : Nat) (input : Bytes) : Output × KState :=
  match readBlockChan k fd n with
  | none => retData (sysRead k fd n input)
  | some chan =>
    let s := procSleep k chan
    if s.1 then ({}, s.2) else retData (sysRead k fd n input)

/-- The switch of `syscall_trap`. -/
def dispatch (k : KState) : Call → Output × KState
  | .fork => ({}, procFork k)
  | .clone flags childStack => ({}, procClone k flags.toNat childStack.toNat)
  | .execve path argv envp => ({}, procExecve k path argv envp)
  | .wait4 => ({}, (procWait k).2)
  | .exit code => ({}, procExit k code)
  | .openat dirfd path flags mode => ret (sysOpenat k dirfd path flags.toNat mode.toNat)
  | .close fd => ret (sysClose k fd)
  | .read fd n input => trapRead k fd n.toNat input
  | .write fd buf => ret (sysWrite k fd buf)
  | .readv fd lens input => retData (sysReadv k fd (lens.map UInt32.toNat) input)
  | .writev fd bufs => ret (sysWritev k fd bufs)
  | .lseek fd off whence => ret (sysLseek k fd off whence)
  | .llseek fd offHi offLo whence => ret (sysLlseek k fd offHi.toNat offLo.toNat whence)
  | .dup fd => ret (sysDup k fd)
  | .dup2 oldfd newfd => ret (sysDup2 k oldfd newfd)
  | .pipe2 fdsUptr => let r := sysPipe2 k fdsUptr.toNat; ret (r.1.1, r.2)
  | .fcntl64 fd cmd arg => ret (sysFcntl64 k fd cmd arg.toNat)
  | .chdir path => ret (sysChdir k path)
  | .brk addr => ret (sysBrk k addr.toNat)
  | .mmap2 addr len flags fd pgoff =>
    ret (sysMmap2 k addr.toNat len.toNat flags.toNat fd pgoff.toNat)
  | .munmap addr len => ret (sysMunmap k addr.toNat len.toNat)
  | .other r => ret (r, k)

/-- `syscall_trap`. -/
def syscallTrap (k : KState) (tf : Trapframe) (c : Call) : Output × KState :=
  dispatch (saveTf k tf) c

/-- A store in user mode, to the frame behind a mapped page. A store to another address is left out:
    it faults, or goes to one of the kernel's sections, which `mmu_init` lets user mode write. -/
def userStore (k : KState) (va : Nat) (b : UInt8) : KState :=
  let pa := vmWalk k.mm k.proc.l1Pa va
  if pa = 0 then k else { k with mm := { k.mm with mem := k.mm.mem.w8 pa b } }

/-- One event. A halted kernel stays as it is. -/
def step (k : KState) (e : Event) : Output × KState :=
  if k.halted then ({}, k)
  else
    match e with
    | .syscall tf c => syscallTrap k tf c
    | .tick tf => ({}, procPreempt k tf)
    | .fault kind tf => ({}, faultTrap k kind tf)
    | .store va b => ({}, userStore k va.toNat b)

/-- The state after an event. -/
def next (k : KState) (e : Event) : KState := (step k e).2

/-! ## Boot -/

/-- What `kmain` finds. The kernel is linked above `0x40000000`; `ramTop` is the top of memory, at
    most where `mmu_init` stops mapping normal memory. -/
structure Boot where
  mem : Mem
  /-- `&_kernel_end`. -/
  freeStart : Nat
  ramTop : Nat
  /-- The address range of the device tree blob, if there is one. -/
  dtb : Option (Nat × Nat)
  initrdBase : Nat
  initrdSize : Nat
  /-- The pages of the buffer the initramfs is unpacked to, `0` when it is not compressed. -/
  scratch : Nat
  /-- The memory from the cpio archive's first byte on, and the size of the archive. -/
  archive : Bytes
  archiveSize : Nat
  heap : List Answer
  /-- A bound on the rounds of `cpio_load`. -/
  fuel : Nat
  freeStart_pos : 0 < freeStart
  freeStart_le : freeStart ≤ 0x48000000
  ramTop_le : ramTop ≤ 0x48000000
  /-- The archive lies in the 128 MB of memory from `0x40000000` on. -/
  archive_le : archive.length ≤ 0x08000000

/-- The physical memory when `mmu_selftest` is done. -/
def bootMm (b : Boot) : Mm :=
  let pmm := pmmInit b.freeStart b.ramTop
  let pmm := match b.dtb with
    | none => pmm
    | some r => pmmReserve pmm r.1 r.2
  let pmm := pmmReserve pmm b.initrdBase (add32 b.initrdBase b.initrdSize)
  mmuSelftest (mmuInit { mem := b.mem, pmm := pmm, kerL1 := 0 })

/-- The filesystem after `ramfs_init`: an empty root directory. -/
def bootFs (b : Boot) : Fs :=
  ramfsInit { mm := bootMm b, heap := b.heap, inodes := fun _ => {}, root := 0, nextIno := 1 }

/-- `load_archive`: unpack the initramfs, into a buffer first when it is compressed. -/
def loadArchive (b : Boot) (fs : Fs) : Option (Int × Fs) :=
  if b.scratch = 0 then cpioLoad b.fuel fs b.archive b.archiveSize
  else
    let r := pmmAllocAligned fs.mm b.scratch 4096
    if r.1 = 0 then some (-101, { fs with mm := r.2 })
    else cpioLoad b.fuel { fs with mm := r.2 } b.archive b.archiveSize

/-- `"/init"`. -/
def initPath : Bytes := [47, 105, 110, 105, 116]

/-- The kernel before its first process. -/
def KState.empty (fs : Fs) : KState :=
  { toFs := fs, files := fun _ => none, procs := fun _ => {}, cur := 0, nextPid := 1, halted := false }

/-- `kmain`, up to the first process; `none` when it ends in the idle loop instead. Without an L1
    table of its own the kernel creates no process: `vm_create` makes the request again that
    `mmu_init` failed with. -/
def boot (b : Boot) : Option KState :=
  if (bootMm b).kerL1 = 0 then none
  else if b.initrdBase = 0 ∨ b.initrdSize = 0 then none
  else
    let fs := bootFs b
    if fs.root = 0 then none
    else
      match loadArchive b fs with
      | none => none
      | some (r, fs) =>
        if r < 0 then none
        else
          let s := procSpawnElf (.empty fs) initPath
          if s.1 then procRunFirst s.2 else none

/-- The states in which a boot hands over to `/init`. -/
def Booted (k : KState) : Prop := ∃ b, boot b = some k

/-- Every state of every run of the kernel. -/
def Reached : KState → Prop := Reachable next (fun _ _ => True) Booted

/-- Every state of the runs whose steps all meet `ok`. -/
def ReachedIf (ok : KState → Event → Prop) : KState → Prop := Reachable next ok Booted

end Embedded.Kernel
