import Embedded.Kernel.Pmm

/-! # The in-memory filesystem (`fs/ramfs.c`)

Inodes are objects of the kernel heap, named by their addresses; `0` is the null pointer. A
directory is a list of named entries, newest first; a regular file is an array of frames of the
physical page allocator together with a size; a pipe is a ring of 4096 bytes. Strings are byte
lists without the terminating NUL.

The kernel heap (`mm/kmalloc.c`) is seen from its clients: a call returns a pointer that is not in
use, or NULL, and it may have grown the arena by some frames. What it returns is not computed but
read off a list of answers that is part of the state, so that a statement about every state covers
every placement and every failure. The contents of the arena are the records kept here. -/

namespace Embedded.Kernel

/-- Strings and file contents. -/
abbrev Bytes := List UInt8

/-- `'/'`. -/
def slash : UInt8 := 47

/-- The name `.`. -/
def dot : Bytes := [46]

/-- The name `..`. -/
def dotDot : Bytes := [46, 46]

/-- `enum rf_type`. -/
inductive RfType
  | free | reg | dir | lnk | chr | pipe
deriving DecidableEq, Repr

/-- `struct rf_dirent`. -/
structure RfDirent where
  name : Bytes
  inode : Nat
deriving DecidableEq, Repr

/-- `struct rf_inode`. A block that holds no inode reads as the zeroed record. -/
structure RfInode where
  type : RfType := .free
  ino : Nat := 0
  mode : Nat := 0
  size : Nat := 0
  nlink : Nat := 0
  children : List RfDirent := []
  parent : Nat := 0
  pages : Nat → Nat := fun _ => 0
  npages : Nat := 0
  cap : Nat := 0
  target : Bytes := []
  rdevMajor : Nat := 0
  rdevMinor : Nat := 0
  pbuf : Nat → UInt8 := fun _ => 0
  phead : Nat := 0
  ptail : Nat := 0
  wrOpen : Int := 0
  rdOpen : Int := 0

/-- What one call of `kmalloc` comes back with: the pointer (`0` for NULL), and the number of pages
    `grow` took from the page allocator for it. -/
structure Answer where
  ptr : Nat
  npages : Nat
deriving DecidableEq, Repr

/-- The filesystem, with the memory and the heap it lives in. -/
structure Fs where
  mm : Mm
  /-- What the calls of `kmalloc` still to come return. -/
  heap : List Answer
  inodes : Nat → RfInode
  root : Nat
  nextIno : Nat

def Fs.setInode (fs : Fs) (p : Nat) (n : RfInode) : Fs :=
  { fs with inodes := Function.update fs.inodes p n }

/-- `kmalloc`, and `kzalloc`, which is the same. -/
def kmalloc (fs : Fs) : Nat × Fs :=
  match fs.heap with
  | [] => (0, fs)
  | a :: rest =>
    if a.npages = 0 then (a.ptr, { fs with heap := rest })
    else
      let r := pmmAllocAligned fs.mm a.npages 4096
      (if r.1 = 0 then 0 else a.ptr, { fs with heap := rest, mm := r.2 })

/-! ## Inodes and directories -/

/-- `inode_new`. An answer that names a block in use is no answer: it counts as NULL. -/
def inodeNew (fs : Fs) (t : RfType) (mode : Nat) : Nat × Fs :=
  let r := kmalloc fs
  if r.1 = 0 ∨ (r.2.inodes r.1).type ≠ .free then (0, r.2)
  else
    (r.1,
      { r.2.setInode r.1 { type := t, ino := r.2.nextIno, mode := mode, nlink := 1 } with
        nextIno := add32 r.2.nextIno 1 })

/-- `kfree` of an inode. -/
def kfreeInode (fs : Fs) (p : Nat) : Fs := fs.setInode p {}

/-- `ramfs_init`: the root directory, its own parent. -/
def ramfsInit (fs : Fs) : Fs :=
  let r := inodeNew fs .dir 0o40755
  { r.2.setInode r.1 { r.2.inodes r.1 with parent := r.1 } with root := r.1, nextIno := 2 }

/-- `strlcpy_` into a buffer of `cap` bytes. -/
def strlcpy (s : Bytes) (cap : Nat) : Bytes := s.take (cap - 1)

/-- `dir_link`: a new entry at the head of the directory's list. -/
def dirLink (fs : Fs) (dir : Nat) (name : Bytes) (child : Nat) : Int × Fs :=
  let r := kmalloc fs
  if r.1 = 0 then (-1, r.2)
  else
    let d := r.2.inodes dir
    (0, r.2.setInode dir { d with children := ⟨strlcpy name 64, child⟩ :: d.children })

/-- `ramfs_child`. -/
def ramfsChild (fs : Fs) (dir : Nat) (name : Bytes) : Nat :=
  let d := fs.inodes dir
  if dir = 0 ∨ d.type ≠ .dir then 0
  else if name = dot then dir
  else if name = dotDot then d.parent
  else
    match d.children.find? fun e => e.name = name with
    | some e => e.inode
    | none => 0

/-- The end of every `ramfs_mk…`: `if (dir_link(dir, name, n) != 0) { kfree(n); return 0; }`. -/
def linkOrFree (fs : Fs) (dir : Nat) (name : Bytes) (n : Nat) : Nat × Fs :=
  let r := dirLink fs dir name n
  if r.1 = 0 then (n, r.2) else (0, kfreeInode r.2 n)

/-- `ramfs_mkreg`. -/
def ramfsMkreg (fs : Fs) (dir : Nat) (name : Bytes) (mode : Nat) : Nat × Fs :=
  let r := inodeNew fs .reg ((mode &&& 0o7777) ||| 0o100000)
  if r.1 = 0 then (0, r.2) else linkOrFree r.2 dir name r.1

/-- `ramfs_mkdir`. -/
def ramfsMkdir (fs : Fs) (dir : Nat) (name : Bytes) (mode : Nat) : Nat × Fs :=
  let r := inodeNew fs .dir ((mode &&& 0o7777) ||| 0o40000)
  if r.1 = 0 then (0, r.2)
  else linkOrFree (r.2.setInode r.1 { r.2.inodes r.1 with parent := dir }) dir name r.1

/-- `ramfs_mklnk`. -/
def ramfsMklnk (fs : Fs) (dir : Nat) (name target : Bytes) : Nat × Fs :=
  let r := inodeNew fs .lnk 0o120777
  if r.1 = 0 then (0, r.2)
  else
    let s := kmalloc r.2
    if s.1 = 0 then (0, kfreeInode s.2 r.1)
    else
      linkOrFree
        (s.2.setInode r.1 { s.2.inodes r.1 with target := target, size := target.length })
        dir name r.1

/-- `ramfs_mknod`. -/
def ramfsMknod (fs : Fs) (dir : Nat) (name : Bytes) (mode maj min : Nat) : Nat × Fs :=
  let r := inodeNew fs .chr mode
  if r.1 = 0 then (0, r.2)
  else
    linkOrFree (r.2.setInode r.1 { r.2.inodes r.1 with rdevMajor := maj, rdevMinor := min })
      dir name r.1

/-! ## Path resolution -/

/-- The components of a path: what is left between its slashes. -/
def components (path : Bytes) : List Bytes := (path.splitOn slash).filter (· ≠ [])

/-- The loop of `lookup_b` over the components still to come. `sub` is the recursive call for the
    target of a symbolic link; results carry the budget of links left, shared by all calls. -/
def walk (fs : Fs) (follow : Bool) (sub : Nat → Bytes → Nat → Nat × Nat) :
    List Bytes → Nat → Nat → Nat × Nat
  | [], cur, budget => (cur, budget)
  | comp :: rest, cur, budget =>
    -- `comp` does not fit `char comp[64]`
    if comp.length > 63 then (0, budget)
    else if cur = 0 ∨ (fs.inodes cur).type ≠ .dir then (0, budget)
    else
      let child := ramfsChild fs cur comp
      if child = 0 then (0, budget)
      else if (fs.inodes child).type = .lnk ∧ (rest ≠ [] ∨ follow = true) then
        if budget = 0 then (0, 0)
        else
          let target := (fs.inodes child).target
          let base := if target.head? = some slash then fs.root else cur
          let r := sub base target (budget - 1)
          if r.1 = 0 then (0, r.2) else walk fs follow sub rest r.1 r.2
      else walk fs follow sub rest child budget

/-- `lookup_b`. Calls nest at most as deep as the budget of links allows, which `depth` exceeds. -/
def lookupB (fs : Fs) : Nat → Nat → Bytes → Bool → Nat → Nat × Nat
  | 0, _, _, _, budget => (0, budget)
  | depth + 1, start, path, follow, budget =>
    let cur := if path.head? = some slash ∨ start = 0 then fs.root else start
    walk fs follow (fun base target budget => lookupB fs depth base target true budget)
      (components path) cur budget

/-- `SYMLINK_MAX`. -/
def symlinkMax : Nat := 8

/-- `ramfs_lookup`. -/
def ramfsLookup (fs : Fs) (start : Nat) (path : Bytes) (follow : Bool) : Nat :=
  (lookupB fs (symlinkMax + 1) start path follow symlinkMax).1

/-! ## Regular files -/

/-- The loop of `ensure_pages`: fresh frames for the slots `i, i + 1, …` (`n` of them). -/
def fillPages : Nat → Nat → Mm → (Nat → Nat) → Bool × Mm × (Nat → Nat)
  | 0, _, m, pages => (true, m, pages)
  | n + 1, i, m, pages =>
    let r := pmmAllocPage m
    if r.1 = 0 then (false, r.2, pages)
    else fillPages n (i + 1) r.2 (Function.update pages i r.1)

/-- The first half of `ensure_pages`: room for `pages` slots in the array. -/
def growSlots (fs : Fs) (p pages : Nat) : Bool × Fs :=
  let n := fs.inodes p
  if pages > n.cap then
    let newcap := if n.cap = 0 then 4 else n.cap * 2
    let newcap := if newcap < pages then pages else newcap
    let r := kmalloc fs
    if r.1 = 0 then (false, r.2)
    else
      (true,
        r.2.setInode p
          { n with pages := fun i => if n.cap ≤ i ∧ i < newcap then 0 else n.pages i, cap := newcap })
  else (true, fs)

/-- `ensure_pages`. A failure half way leaves the frames taken so far in the array, beyond
    `npages`. -/
def ensurePages (fs : Fs) (p pages : Nat) : Int × Fs :=
  let g := growSlots fs p pages
  if g.1 then
    let n := g.2.inodes p
    let r := fillPages (pages - n.npages) n.npages g.2.mm n.pages
    let fs := { g.2 with mm := r.2.1 }
    if r.1 then
      (0, fs.setInode p { n with pages := r.2.2, npages := max pages n.npages })
    else (-1, fs.setInode p { n with pages := r.2.2 })
  else (-1, g.2)

/-- The loop of `ramfs_read`, a page at a time; every round takes a byte at least, so `n` rounds are
    enough. -/
def readLoop (mem : Mem) (pages : Nat → Nat) (off n : Nat) : Nat → Nat → Bytes
  | 0, _ => []
  | fuel + 1, done =>
    if done < n then
      let pos := off + done
      let chunk := min (4096 - pos % 4096) (n - done)
      mem.read (pages (pos / 4096) + pos % 4096) chunk
        ++ readLoop mem pages off n fuel (done + chunk)
    else []

/-- `ramfs_read`: the count, and the bytes. -/
def ramfsRead (fs : Fs) (p off n : Nat) : Int × Bytes :=
  let ino := fs.inodes p
  if ino.type ≠ .reg then (-21, [])
  else if off ≥ ino.size then (0, [])
  else
    let n := if n > ino.size - off then ino.size - off else n
    (n, readLoop fs.mm.mem ino.pages off n n 0)

/-- The loop of `ramfs_write`. -/
def writeLoop (pages : Nat → Nat) (off : Nat) (src : Bytes) : Nat → Nat → Mem → Mem
  | 0, _, mem => mem
  | fuel + 1, done, mem =>
    if done < src.length then
      let pos := off + done
      let chunk := min (4096 - pos % 4096) (src.length - done)
      writeLoop pages off src fuel (done + chunk)
        (mem.write (pages (pos / 4096) + pos % 4096) ((src.drop done).take chunk))
    else mem

/-- `ramfs_write`. -/
def ramfsWrite (fs : Fs) (p off : Nat) (src : Bytes) : Int × Fs :=
  if (fs.inodes p).type ≠ .reg then (-21, fs)
  else if src.length > 0xFFFFFFFF - off then (-22, fs)
  else
    let stop := off + src.length
    let r := ensurePages fs p (add32 stop 4095 / 4096)
    if r.1 ≠ 0 then (-12, r.2)
    else
      let ino := r.2.inodes p
      let mem := writeLoop ino.pages off src src.length 0 r.2.mm.mem
      let fs := { r.2 with mm := { r.2.mm with mem := mem } }
      (src.length, if stop > ino.size then fs.setInode p { ino with size := stop } else fs)

/-- The loop of `ramfs_truncate`: give the frames of the slots `i, i + 1, …` back. -/
def freePages : Nat → Nat → Mm → (Nat → Nat) → Mm × (Nat → Nat)
  | 0, _, m, pages => (m, pages)
  | n + 1, i, m, pages =>
    if pages i = 0 then freePages n (i + 1) m pages
    else freePages n (i + 1) (pmmFreePage m (pages i)) (Function.update pages i 0)

/-- `ramfs_truncate`. -/
def ramfsTruncate (fs : Fs) (p newsize : Nat) : Int × Fs :=
  let ino := fs.inodes p
  if ino.type ≠ .reg then (-21, fs)
  else
    let need := add32 newsize 4095 / 4096
    if newsize > ino.size then
      let r := ensurePages fs p need
      if r.1 ≠ 0 then (-12, r.2)
      else (0, r.2.setInode p { r.2.inodes p with size := newsize })
    else
      let r := freePages (ino.npages - need) need fs.mm ino.pages
      (0,
        { fs with mm := r.1 }.setInode p
          { ino with pages := r.2, npages := min need ino.npages, size := newsize })

/-! ## Pipes -/

/-- `PIPE_CAP`. -/
def pipeCap : Nat := 4096

/-- `ramfs_pipe`. -/
def ramfsPipe (fs : Fs) : Nat × Fs :=
  let r := inodeNew fs .pipe 0o10600
  if r.1 = 0 then (0, r.2)
  else
    let s := kmalloc r.2
    if s.1 = 0 then (0, kfreeInode s.2 r.1) else (r.1, s.2)

/-- The loop of `ramfs_pipe_read`: up to `n` bytes off the tail of the ring. -/
def pipeGet : Nat → RfInode → Bytes × RfInode
  | 0, p => ([], p)
  | n + 1, p =>
    if p.size > 0 then
      let r := pipeGet n { p with ptail := (p.ptail + 1) % pipeCap, size := p.size - 1 }
      (p.pbuf p.ptail :: r.1, r.2)
    else ([], p)

/-- `ramfs_pipe_read`: the count, and the bytes. -/
def ramfsPipeRead (fs : Fs) (p n : Nat) : (Int × Bytes) × Fs :=
  let ino := fs.inodes p
  if ino.type ≠ .pipe then ((-22, []), fs)
  else
    let r := pipeGet n ino
    ((r.1.length, r.1), fs.setInode p r.2)

/-- The loop of `ramfs_pipe_write`: bytes onto the head of the ring while there is room. -/
def pipePut : Bytes → RfInode → Nat × RfInode
  | [], p => (0, p)
  | b :: bs, p =>
    if p.size < pipeCap then
      let r := pipePut bs
        { p with
          pbuf := Function.update p.pbuf p.phead b
          phead := (p.phead + 1) % pipeCap
          size := p.size + 1 }
      (r.1 + 1, r.2)
    else (0, p)

/-- `ramfs_pipe_write`: how many of the bytes were taken. -/
def ramfsPipeWrite (fs : Fs) (p : Nat) (src : Bytes) : Int × Fs :=
  let ino := fs.inodes p
  if ino.type ≠ .pipe then (-22, fs)
  else if ino.rdOpen = 0 then (-32, fs)
  else
    let r := pipePut src ino
    (r.1, fs.setInode p r.2)

end Embedded.Kernel
