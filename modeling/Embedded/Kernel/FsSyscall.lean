import Mathlib.Data.List.DropRight
import Embedded.Kernel.State

/-! # File system calls (`fs/fs_syscall.c`)

Descriptors are looked up in the table of the current process. What a call reads from user memory
(paths, buffers, vectors) is an argument here and what it stores there is part of the result. The
console's input is an argument of the reads. -/

namespace Embedded.Kernel

/-- `O_CREAT`. -/
def oCreat : Nat := 0o100

/-- `O_TRUNC`. -/
def oTrunc : Nat := 0o1000

/-- `O_APPEND`. -/
def oAppend : Nat := 0o2000

/-- `O_NONBLOCK`. -/
def oNonblock : Nat := 0o4000

/-- `O_DIRECTORY`. -/
def oDirectory : Nat := 0o40000

/-- `O_NOFOLLOW`. -/
def oNofollow : Nat := 0o100000

/-- `AT_FDCWD`. -/
def atFdcwd : Int := -100

/-- `is_console`. -/
def isConsole (k : KState) (ino : Nat) : Bool :=
  let n := k.inodes ino
  ino ≠ 0 && n.type = .chr && n.rdevMajor = 5 && n.rdevMinor = 1

/-- `fd_get`, with the file behind the pointer. -/
def fdFile (k : KState) (fd : Int) : Option (Nat × File) :=
  match fdGet k fd with
  | none => none
  | some p => (k.files p).map fun f => (p, f)

/-! ## Opening -/

/-- `resolve_at`. -/
def resolveAt (k : KState) (dirfd : Int) (path : Bytes) (follow : Bool) : Nat :=
  if path.head? = some slash then ramfsLookup k.toFs 0 path follow
  else if dirfd = atFdcwd then ramfsLookup k.toFs k.proc.cwd path follow
  else
    match fdFile k dirfd with
    | none => 0
    | some (_, f) =>
      if f.inode ≠ 0 ∧ (k.inodes f.inode).type = .dir then
        ramfsLookup k.toFs f.inode path follow
      else 0

/-- What follows the last slash of a path, the whole path when there is none. -/
def leafOf (path : Bytes) : Bytes := path.rtakeWhile (· ≠ slash)

/-- `parent_of`: the directory, and the leaf's name in a buffer of 64 bytes. -/
def parentOf (k : KState) (cwd : Nat) (path : Bytes) : Nat × Bytes :=
  let leaf := leafOf path
  if leaf.length = path.length then
    (if cwd = 0 then k.root else cwd, strlcpy path 64)
  else
    let lastslash := path.length - leaf.length - 1
    let n := if lastslash = 0 then 1 else lastslash
    -- `char dirpath[128]`
    let n := if n > 127 then 127 else n
    (ramfsLookup k.toFs cwd (path.take n) true, strlcpy leaf 64)

/-- The end of `sys_openat`: an open file for `ino` at a free descriptor. -/
def openInode (k : KState) (ino flags : Nat) : Int × KState :=
  let r := fileOpenInode k ino flags
  if r.1 = 0 then (-12, r.2)
  else
    let k := r.2
    let n := k.inodes ino
    let k :=
      if flags &&& oAppend ≠ 0 ∧ n.type = .reg then
        k.setFile r.1 ((k.files r.1).map fun f => { f with off := n.size })
      else k
    let s := fdAlloc k r.1
    if s.1 < 0 then (-24, fileClose s.2 r.1) else s

/-- The branch of `sys_openat` for a path that does not resolve. -/
def createFile (k : KState) (path : Bytes) (flags mode : Nat) : Int × KState :=
  if flags &&& oCreat = 0 then (-2, k)
  else
    let d := parentOf k k.proc.cwd path
    if d.1 = 0 ∨ (k.inodes d.1).type ≠ .dir then (-2, k)
    else
      let r := k.withFs
        (ramfsMkreg k.toFs d.1 d.2 (if mode ≠ 0 then mode &&& 0o7777 else 0o644))
      if r.1 = 0 then (-12, r.2) else openInode r.2 r.1 flags

/-- `sys_openat`. -/
def sysOpenat (k : KState) (dirfd : Int) (path : Bytes) (flags mode : Nat) : Int × KState :=
  if path = [] then (-2, k)
  else
    let ino := resolveAt k dirfd path (flags &&& oNofollow = 0)
    if ino = 0 then createFile k path flags mode
    else if flags &&& oDirectory ≠ 0 ∧ (k.inodes ino).type ≠ .dir then (-20, k)
    else if flags &&& oTrunc ≠ 0 ∧ (k.inodes ino).type = .reg then
      openInode { k with toFs := (ramfsTruncate k.toFs ino 0).2 } ino flags
    else openInode k ino flags

/-- `sys_close`. -/
def sysClose (k : KState) (fd : Int) : Int × KState := fdClose k fd

/-! ## Reading and writing -/

/-- `read_block_chan`: what a read of `n` bytes must wait for. -/
def readBlockChan (k : KState) (fd : Int) (n : Nat) : Option Chan :=
  if n = 0 then none
  else
    match fdFile k fd with
    | none => none
    | some (_, f) =>
      let ino := k.inodes f.inode
      if ino.type ≠ .pipe then none
      else if f.flags &&& oNonblock ≠ 0 then none
      else if ino.size = 0 ∧ ino.wrOpen > 0 then some (.inode f.inode)
      else none

/-- The console branch of `sys_read`: up to a line, with CR as LF. -/
def consoleRead : Nat → Bytes → Bytes
  | 0, _ => []
  | _, [] => []
  | n + 1, c :: input => if c = 13 ∨ c = 10 then [10] else c :: consoleRead n input

/-- `f->off += r`, when `r > 0`. -/
def advance (k : KState) (p : Nat) (f : File) (r : Int) : KState :=
  if r > 0 then k.setFile p (some { f with off := add32 f.off r.toNat }) else k

/-- `sys_read`: the return value and the bytes stored. -/
def sysRead (k : KState) (fd : Int) (n : Nat) (input : Bytes) : (Int × Bytes) × KState :=
  match fdFile k fd with
  | none => ((-9, []), k)
  | some (p, f) =>
    let ino := k.inodes f.inode
    if isConsole k f.inode then
      let d := consoleRead n input
      ((d.length, d), k)
    else if ino.type = .pipe then k.withFs (ramfsPipeRead k.toFs f.inode n)
    else if ino.type = .dir then ((-21, []), k)
    else
      let r := ramfsRead k.toFs f.inode f.off n
      (r, advance k p f r.1)

/-- `sys_write`: how many of the bytes were taken. -/
def sysWrite (k : KState) (fd : Int) (buf : Bytes) : Int × KState :=
  match fdFile k fd with
  | none => (-9, k)
  | some (p, f) =>
    let ino := k.inodes f.inode
    if isConsole k f.inode then (buf.length, k)
    else if ino.type = .pipe then
      let r := k.withFs (ramfsPipeWrite k.toFs f.inode buf)
      (r.1, if r.1 > 0 then procWakeup r.2 (.inode f.inode) else r.2)
    else if ino.type ≠ .reg then (-9, k)
    else
      let f := if f.flags &&& oAppend ≠ 0 then { f with off := ino.size } else f
      let r := (k.setFile p (some f)).withFs (ramfsWrite k.toFs f.inode f.off buf)
      (r.1, advance r.2 p f r.1)

/-- The loop of `sys_writev`; `total` is what has been written so far. -/
def writevLoop (fd : Int) : List Bytes → Int → KState → Int × KState
  | [], total, k => (total, k)
  | buf :: bufs, total, k =>
    if buf = [] then writevLoop fd bufs total k
    else
      let r := sysWrite k fd buf
      if r.1 < 0 then (if total ≠ 0 then total else r.1, r.2)
      else if r.1 < buf.length then (total + r.1, r.2)
      else writevLoop fd bufs (total + r.1) r.2

/-- `sys_writev`. -/
def sysWritev (k : KState) (fd : Int) (bufs : List Bytes) : Int × KState := writevLoop fd bufs 0 k

/-- The loop of `sys_readv`; `data` is what has been read so far. -/
def readvLoop (fd : Int) : List Nat → Bytes → Bytes → KState → (Int × Bytes) × KState
  | [], _, data, k => ((data.length, data), k)
  | n :: ns, input, data, k =>
    if n = 0 then readvLoop fd ns input data k
    else
      let r := sysRead k fd n input
      if r.1.1 < 0 then ((if data ≠ [] then (data.length : Int) else r.1.1, data), r.2)
      else if r.1.1 < n then (((data ++ r.1.2).length, data ++ r.1.2), r.2)
      else readvLoop fd ns (input.drop r.1.2.length) (data ++ r.1.2) r.2

/-- `sys_readv`. -/
def sysReadv (k : KState) (fd : Int) (lens : List Nat) (input : Bytes) : (Int × Bytes) × KState :=
  readvLoop fd lens input [] k

/-- The `whence` of a seek: the base, or an error. -/
def seekBase (k : KState) (f : File) (whence : Int) : Option Int :=
  if whence = 0 then some 0
  else if whence = 1 then some f.off
  else if whence = 2 then some (if f.inode = 0 then 0 else (k.inodes f.inode).size)
  else none

/-- The end of both seeks: move the cursor by `delta` from the base. -/
def seekTo (k : KState) (p : Nat) (f : File) (whence delta : Int) : Int × KState :=
  match seekBase k f whence with
  | none => (-22, k)
  | some base =>
    if base + delta < 0 then (-22, k)
    else (base + delta, k.setFile p (some { f with off := toReg (base + delta) }))

/-- `sys_lseek`. -/
def sysLseek (k : KState) (fd off whence : Int) : Int × KState :=
  match fdFile k fd with
  | none => (-9, k)
  | some (p, f) => seekTo k p f whence off

/-- A 32-bit word as a signed number. -/
def toInt32 (v : Nat) : Int := if v < 2147483648 then v else (v : Int) - 4294967296

/-- `sys_llseek`: the return value; the new position goes to `*result_uptr`. -/
def sysLlseek (k : KState) (fd : Int) (offHi offLo : Nat) (whence : Int) : Int × KState :=
  match fdFile k fd with
  | none => (-9, k)
  | some (p, f) =>
    if offHi ≠ 0 ∧ offHi ≠ 0xFFFFFFFF then (-22, k)
    else
      let r := seekTo k p f whence (toInt32 offLo)
      (if r.1 < 0 then r.1 else 0, r.2)

/-! ## Descriptors -/

/-- The common end of `sys_dup` and `F_DUPFD`: `fd_alloc_from(.., file_dup(f), min)`, undone when the
    table is full. -/
def dupFrom (k : KState) (p : Nat) (min : Int) : Int × KState :=
  let r := fdAllocFrom (fileDup k p) p min
  if r.1 < 0 then (-24, fileClose r.2 p) else r

/-- `sys_dup`. -/
def sysDup (k : KState) (fd : Int) : Int × KState :=
  match fdGet k fd with
  | none => (-9, k)
  | some p => dupFrom k p 0

/-- `if (fd >= 0) fd_close(fds, fd); else file_close(f);`. -/
def undoEnd (k : KState) (fd : Int) (f : Nat) : KState :=
  if fd ≥ 0 then (fdClose k fd).2 else fileClose k f

/-- `sys_pipe2`: the return value and the two descriptors. -/
def sysPipe2 (k : KState) (fdsUptr : Nat) : (Int × Int × Int) × KState :=
  if fdsUptr = 0 then ((-22, 0, 0), k)
  else
    let p := k.withFs (ramfsPipe k.toFs)
    if p.1 = 0 then ((-12, 0, 0), p.2)
    else
      let rf := fileOpenInode p.2 p.1 0
      let wf := fileOpenInode rf.2 p.1 1
      let k := wf.2
      if rf.1 = 0 ∨ wf.1 = 0 then
        let k := if rf.1 ≠ 0 then fileClose k rf.1 else k
        let k := if wf.1 ≠ 0 then fileClose k wf.1 else k
        ((-12, 0, 0), k)
      else
        let rfd := fdAlloc k rf.1
        let wfd := fdAlloc rfd.2 wf.1
        if rfd.1 < 0 ∨ wfd.1 < 0 then
          ((-24, 0, 0), undoEnd (undoEnd wfd.2 rfd.1 rf.1) wfd.1 wf.1)
        else ((0, rfd.1, wfd.1), wfd.2)

/-- `sys_dup2`. -/
def sysDup2 (k : KState) (oldfd newfd : Int) : Int × KState :=
  match fdGet k oldfd with
  | none => (-9, k)
  | some p =>
    if oldfd = newfd then (newfd, k)
    else if newfd < 0 ∨ newfd ≥ 16 then (-9, k)
    else fdInstallAt (fileDup k p) newfd p

/-- `sys_fcntl64`. -/
def sysFcntl64 (k : KState) (fd cmd : Int) (arg : Nat) : Int × KState :=
  match fdFile k fd with
  | none => (-9, k)
  | some (p, f) =>
    -- F_DUPFD, F_DUPFD_CLOEXEC
    if cmd = 0 ∨ cmd = 1030 then dupFrom k p (toInt32 arg)
    -- F_GETFD, F_SETFD
    else if cmd = 1 ∨ cmd = 2 then (0, k)
    -- F_GETFL
    else if cmd = 3 then (f.flags, k)
    -- F_SETFL
    else if cmd = 4 then (0, k.setFile p (some { f with flags := arg }))
    else (-22, k)

/-- `sys_chdir`. -/
def sysChdir (k : KState) (path : Bytes) : Int × KState :=
  let ino := ramfsLookup k.toFs k.proc.cwd path true
  if ino = 0 then (-2, k)
  else if (k.inodes ino).type ≠ .dir then (-20, k)
  else (0, k.setProc k.cur { k.proc with cwd := ino })

end Embedded.Kernel
