import Embedded.Kernel.Isolation
import Embedded.Kernel.Paths

/-! # The path of the current directory (`sys_getcwd`)

The path is put together from its end, along the parents, in a buffer of 128 bytes. -/

namespace Embedded.Kernel

/-- The name of a directory in its parent. -/
def nameIn (fs : Fs) (ino : Nat) : Bytes :=
  match (fs.inodes (fs.inodes ino).parent).children.find? fun d => d.inode = ino with
  | some d => d.name
  | none => [63]

/-- The loop of `sys_getcwd`, with the rounds left; `tmp` is what stands in the buffer before the NUL. -/
def getcwdLoop (fs : Fs) (guard ino : Nat) (tmp : Bytes) : Except Int Bytes :=
  if ino = 0 ∨ ino = fs.root then .ok tmp
  else
    match guard with
    | 0 => .error (-22)
    | guard + 1 =>
      if 127 - tmp.length < (nameIn fs ino).length + 1 then .error (-34)
      else getcwdLoop fs guard (fs.inodes ino).parent (slash :: (nameIn fs ino ++ tmp))

/-- `sys_getcwd`: the string, whose length with the NUL is what it returns. -/
def sysGetcwd (k : KState) (size : Nat) : Except Int Bytes :=
  match getcwdLoop k.toFs 64 k.proc.cwd (if k.proc.cwd = k.root then [slash] else []) with
  | .error e => .error e
  | .ok tmp => if tmp.length + 1 > size then .error (-34) else .ok tmp

/-- The directories are a tree, with names that differ and are components of paths. -/
structure DirTree (fs : Fs) : Prop where
  linked : ∀ d, (fs.inodes d).type = .dir → d ≠ fs.root → (fs.inodes d).parent ≠ 0 ∧
    (fs.inodes (fs.inodes d).parent).type = .dir ∧
    ∃ e ∈ (fs.inodes (fs.inodes d).parent).children, e.inode = d
  names : ∀ p, ∀ e ∈ (fs.inodes p).children, (fs.inodes e.inode).type = .dir →
    e.name ≠ [] ∧ e.name ≠ dot ∧ e.name ≠ dotDot ∧ slash ∉ e.name ∧ e.name.length ≤ 63 ∧
      ∀ e' ∈ (fs.inodes p).children, e'.name = e.name → e'.inode = e.inode

variable {fs : Fs} {d : Nat} {tmp path : Bytes}

theorem components_cons {name : Bytes} (hne : name ≠ []) (hs : slash ∉ name)
    (htmp : tmp = [] ∨ tmp.head? = some slash) :
    components (slash :: (name ++ tmp)) = name :: components tmp := by
  have hhead : ∀ q, components (slash :: q) = components q := fun q => by
    rw [components, ← List.nil_append (slash :: q), List.splitOn_append_cons_self]
    rfl
  rw [hhead]
  rcases htmp with rfl | htmp
  · simp [components, List.splitOn_eq_singleton hs, hne]
  obtain ⟨q, rfl⟩ := List.head?_eq_some_iff.1 htmp
  rw [hhead, components, List.splitOn_append_cons_self, List.splitOn_eq_singleton hs]
  simp [components, hne]

section Tree

variable (tree : DirTree fs) (hd : (fs.inodes d).type = .dir) (hroot : d ≠ fs.root)
include tree hd hroot

theorem DirTree.nameIn : ∃ e ∈ (fs.inodes (fs.inodes d).parent).children,
    e.inode = d ∧ e.name = nameIn fs d := by
  obtain ⟨-, -, e, he, hed⟩ := tree.linked d hd hroot
  unfold Kernel.nameIn
  split
  · next e' h => exact ⟨e', List.mem_of_find?_eq_some h, by simpa using List.find?_some h, rfl⟩
  · next h => exact absurd hed (by simpa using List.find?_eq_none.1 h e he)

theorem DirTree.walk_name (h0 : d ≠ 0) (follow : Bool) (sub : Nat → Bytes → Nat → Nat × Nat)
    (rest : List Bytes) (b : Nat) : walk fs follow sub (Kernel.nameIn fs d :: rest)
      (fs.inodes d).parent b = walk fs follow sub rest d b := by
  obtain ⟨hp, hdir, -⟩ := tree.linked d hd hroot
  obtain ⟨e, he, hed, hn⟩ := tree.nameIn hd hroot
  obtain ⟨-, h1, h2, -, hlen, huniq⟩ := tree.names _ e he (hed ▸ hd)
  have hchild : ramfsChild fs (fs.inodes d).parent e.name = d := by
    unfold ramfsChild
    simp only [hp, hdir, h1, h2, if_false, ne_eq, not_true_eq_false, or_self]
    split
    · next x hx =>
      rw [huniq x (List.mem_of_find?_eq_some hx) (by simpa using List.find?_some hx), hed]
    next hx => exact absurd (List.find?_eq_none.1 hx e he) (by simp)
  rw [← hn, walk]
  simp [hchild, hp, hdir, h0, hd]
  omega

end Tree

/-- What has been put together leads from the directory reached to `cwd`. -/
theorem getcwdLoop_walk (tree : DirTree fs) (cwd : Nat) (follow : Bool)
    (sub : Nat → Bytes → Nat → Nat × Nat) (b guard : Nat) : ∀ d tmp, d ≠ 0 →
      (fs.inodes d).type = .dir → tmp.head? = some slash ∨ tmp = [] ∧ d ≠ fs.root →
      walk fs follow sub (components tmp) d b = (cwd, b) → getcwdLoop fs guard d tmp = .ok path →
      walk fs follow sub (components path) fs.root b = (cwd, b) ∧ path.head? = some slash := by
  induction guard with
  | zero | succ guard ih => ?_
  all_goals
    intro d tmp h0 hd htmp hw h
    unfold getcwdLoop at h
    split at h
    next hroot =>
    obtain rfl := hroot.resolve_left h0
    cases h
    exact ⟨hw, htmp.resolve_right fun h => h.2 rfl⟩
  · cases h
  next hroot =>
  simp only at h
  split at h
  · cases h
  have hroot : d ≠ fs.root := fun h => hroot (.inr h)
  obtain ⟨hp, hdir, -⟩ := tree.linked d hd hroot
  obtain ⟨e, he, hed, hn⟩ := tree.nameIn hd hroot
  obtain ⟨hne, -, -, hs, -⟩ := tree.names _ e he (hed ▸ hd)
  refine ih _ _ hp hdir (.inl rfl) ?_ h
  rw [components_cons (hn ▸ hne) (hn ▸ hs) (htmp.symm.imp_left And.left), tree.walk_name hd hroot h0]
  exact hw

/-- **The path that `getcwd` returns names the current directory.** -/
theorem getcwd_resolves {k : KState} (tree : DirTree k.toFs) (h0 : k.proc.cwd ≠ 0)
    (hdir : (k.inodes k.proc.cwd).type = .dir) {size : Nat} (h : sysGetcwd k size = .ok path)
    (start : Nat) (follow : Bool) : ramfsLookup k.toFs start path follow = k.proc.cwd := by
  unfold sysGetcwd at h
  split at h
  · cases h
  next hr =>
  split at h
  · cases h
  cases h
  have hroot : components [slash] = [] := by decide
  have hnil : components [] = [] := by decide
  obtain ⟨hw, hs⟩ := getcwdLoop_walk tree k.proc.cwd follow
    (fun base target budget => lookupB k.toFs symlinkMax base target true budget) symlinkMax 64 _ _ h0 hdir
    (by split <;> simp [*]) (by split <;> simp [hroot, hnil, walk]) hr
  rw [ramfsLookup, lookupB, if_pos (.inl hs), hw]

/-- A directory `/d` that is the current one. -/
def inSubdir : KState :=
  { tiny.setProc tiny.cur { tiny.proc with cwd := 3 } with
    inodes := fun d =>
      if d = 1 then { type := .dir, parent := 1, children := [⟨[100], 3⟩] }
      else if d = 3 then { type := .dir, parent := 1 }
      else {}
    root := 1 }

theorem inSubdir_tree : DirTree inSubdir.toFs := by
  refine ⟨fun d hd hroot => ?_, fun p e he _ => ?_⟩
  · obtain rfl : d = 3 := by
      by_contra h
      simp [inSubdir, h, show d ≠ 1 from hroot] at hd
    exact ⟨by decide, rfl, ⟨[100], 3⟩, by decide, rfl⟩
  by_cases hp : p = 1
  · subst hp
    have hall : ∀ e ∈ (inSubdir.inodes 1).children, e = ⟨[100], 3⟩ := by simp [inSubdir]
    rw [hall e he]
    exact ⟨by decide, by decide, by decide, by decide, by decide, fun e' h _ => by rw [hall e' h]⟩
  by_cases hp' : p = 3 <;> simp [inSubdir, hp, hp'] at he

theorem getcwd_resolves_subdir : ramfsLookup inSubdir.toFs 0 [slash, 100] false = inSubdir.proc.cwd :=
  getcwd_resolves inSubdir_tree (by decide +kernel) (by decide +kernel)
    (show sysGetcwd inSubdir 3 = .ok [slash, 100] by decide +kernel) 0 false

end Embedded.Kernel
