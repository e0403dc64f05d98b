import Embedded.Kernel.Isolation

/-! # Listing a directory (`sys_getdents64`)

The position in a listing is an index into the list of children, and `dir_link` puts new children at
its head. -/

namespace Embedded.Kernel

/-- `struct linux_dirent64`. -/
structure Dirent64 where
  ino : Nat
  off : Nat
  reclen : Nat
  type : Nat
  name : Bytes

/-- The name and the inode at a position: `.`, `..`, and the children. -/
def direntAt (fs : Fs) (dir pos : Nat) : Option (Bytes × Nat) :=
  if pos = 0 then some (dot, dir)
  else if pos = 1 then some (dotDot, (fs.inodes dir).parent)
  else (fs.inodes dir).children[pos - 2]?.map fun d => (d.name, d.inode)

/-- `DIRENT64_RECLEN`. -/
def direntReclen (namelen : Nat) : Nat := (19 + namelen + 1 + 7) / 8 * 8

/-- `d_type`. -/
def direntType (fs : Fs) (tgt : Nat) : Nat :=
  if tgt = 0 then 0
  else
    match (fs.inodes tgt).type with
    | .dir => 4
    | .lnk => 10
    | .chr => 2
    | _ => 8

/-- The loop of `sys_getdents64`: the return value, the records, and the new position. -/
def getdentsLoop (fs : Fs) (dir cap : Nat) : Nat → Nat → Nat → Int × List Dirent64 × Nat
  | 0, used, pos => (used, [], pos)
  | fuel + 1, used, pos =>
    match direntAt fs dir pos with
    | none => (used, [], pos)
    | some (name, tgt) =>
      let reclen := direntReclen name.length
      if add32 used reclen > cap then (if used = 0 then -22 else used, [], pos)
      else
        let r := getdentsLoop fs dir cap fuel (add32 used reclen) (pos + 1)
        let ino := if tgt = 0 then 0 else (fs.inodes tgt).ino
        (r.1, ⟨ino, add32 used reclen, reclen, direntType fs tgt, name⟩ :: r.2.1, r.2.2)

/-- `sys_getdents64` on a directory, from the position in the file; a round for each entry and one
    more are enough. -/
def getdents64 (fs : Fs) (dir pos cap : Nat) : Int × List Dirent64 × Nat :=
  getdentsLoop fs dir cap ((fs.inodes dir).children.length + 3) 0 pos

/-- A listing: the directory's file system, the position in it, and the records so far. -/
structure Listing where
  fs : Fs
  pos : Nat
  out : List Dirent64

inductive DirOp
  | call (cap : Nat)
  | create (name : Bytes) (mode : Nat)

def Listing.step (dir : Nat) (s : Listing) : DirOp → Listing
  | .call cap =>
    let r := getdents64 s.fs dir s.pos cap
    { s with pos := r.2.2, out := s.out ++ r.2.1 }
  | .create name mode => { s with fs := (ramfsMkreg s.fs dir name mode).2 }

/-- The names of the entries. -/
def dirNames (fs : Fs) (dir : Nat) : List Bytes :=
  dot :: dotDot :: (fs.inodes dir).children.map fun d => d.name

/-- Nothing is created once a child has been listed. -/
def Listing.Early (s : Listing) : DirOp → Prop
  | .call _ => True
  | .create _ _ => s.pos ≤ 2

variable {fs : Fs} {dir pos : Nat} {s : Listing}

theorem direntAt_name (fs : Fs) (dir pos : Nat) :
    (direntAt fs dir pos).map Prod.fst = (dirNames fs dir)[pos]? := by
  rcases pos with _ | _ | pos
  · rfl
  · rfl
  simp [direntAt, dirNames, Function.comp_def]

/-- A call lists the entries from its position to the next. -/
theorem getdentsLoop_names (cap fuel : Nat) : ∀ used pos,
    (dirNames fs dir).take (getdentsLoop fs dir cap fuel used pos).2.2 =
      (dirNames fs dir).take pos ++ (getdentsLoop fs dir cap fuel used pos).2.1.map Dirent64.name := by
  induction fuel with
  | zero => intro used pos; simp [getdentsLoop]
  | succ fuel ih => ?_
  intro used pos
  have hname := direntAt_name fs dir pos
  rw [getdentsLoop]
  split
  · simp
  rename_i name tgt hat
  rw [hat] at hname
  simp only
  split
  · simp
  rw [ih, List.map_cons, List.take_add_one, ← hname]
  simp

theorem getdents64_end {cap : Nat} (h : (getdents64 fs dir pos cap).1 = 0)
    (hno : (getdents64 fs dir pos cap).2.1 = []) : (dirNames fs dir).length ≤ pos := by
  rw [getdents64, getdentsLoop] at h hno
  rw [← List.getElem?_eq_none_iff, ← direntAt_name]
  split at h
  · next hat => rw [hat]; rfl
  next hat =>
  simp only [hat] at h hno
  split at h
  · cases h
  · next hle => rw [if_neg hle] at hno; cases hno

/-- **A listing is complete and has no entry twice**, whatever the buffers: with no creation after the
    first child has been listed, the calls up to one that finds nothing give every name once. -/
theorem listing_complete (cap : Nat)
    (h : Reachable (Listing.step dir) Listing.Early (fun s => s.pos = 0 ∧ s.out = []) s)
    (hend : (getdents64 s.fs dir s.pos cap).1 = 0 ∧ (getdents64 s.fs dir s.pos cap).2.1 = []) :
    s.out.map Dirent64.name = dirNames s.fs dir := by
  have hall : s.out.map Dirent64.name = (dirNames s.fs dir).take s.pos := by
    refine Reachable.invariant (I := fun s => s.out.map Dirent64.name = (dirNames s.fs dir).take s.pos)
      (fun s hs => by simp [hs]) (fun s e hok hs => ?_) h
    cases e with
    | call cap =>
      simp only [Listing.step, List.map_append, hs]
      exact (getdentsLoop_names cap _ 0 s.pos).symm
    | create name mode =>
      -- `.` and `..` are where they were
      obtain ⟨fs, pos, out⟩ := s
      rcases pos with _ | _ | _ | pos
      · exact hs
      · exact hs
      · exact hs
      · simp [Listing.Early] at hok
  rw [hall, List.take_of_length_le (getdents64_end hend.1 hend.2)]

/-- Calls on the root directory of the sample system. -/
def listed (ops : List DirOp) : Listing := runFrom (Listing.step tiny.root) ⟨tiny.toFs, 0, []⟩ ops

theorem listing_complete_root :
    (listed [.create [98] 0o644, .call 48, .call 24, .call 24]).out.map Dirent64.name =
      dirNames (listed [.create [98] 0o644, .call 48, .call 24, .call 24]).fs tiny.root :=
  listing_complete 24 (Reachable.runFrom (.init ⟨rfl, rfl⟩) _
    ⟨Nat.zero_le 2, trivial, trivial, trivial, trivial⟩) (by decide +kernel)

/-- A file created after `init` has been listed makes the next call list `init` again. -/
theorem listing_repeats : (listed [.call 72, .create [98] 0o644, .call 24]).out.map Dirent64.name =
      [dot, dotDot, [105, 110, 105, 116], [105, 110, 105, 116]] ∧
    dirNames (listed [.call 72, .create [98] 0o644, .call 24]).fs tiny.root =
      [dot, dotDot, [98], [105, 110, 105, 116]] := by decide +kernel

end Embedded.Kernel
