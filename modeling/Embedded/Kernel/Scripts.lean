import Embedded.Kernel.Isolation
import Embedded.Kernel.UserStack

/-! # Scripts (`proc_execve`)

What `execve` makes of a file that starts with `#!`, against what its first line says. A start goes
through a list of files, from the one named in the call to the interpreter that is loaded:
`execveVisits` as the code has it, `scriptVisits` as the lines have it, whatever their length. The two
agree unless one of three buffers is too small. -/

namespace Embedded.Kernel

open List

/-- A file that a start comes to: its path, the optional argument of the line that named it, and the
    argument vector at that point. -/
structure Visit where
  path : Bytes
  arg : Option Bytes
  argv : List Bytes
  deriving DecidableEq

/-- As far as the vector fits `EXEC_MAXARG`. -/
def Visit.cut (v : Visit) : Visit := { v with argv := v.argv.take 64 }

/-- The file at a path. -/
def inodeAt (k : KState) (path : Bytes) : Nat := ramfsLookup k.toFs k.proc.cwd path true

/-- The path leads to a regular file. -/
def isFile (k : KState) (path : Bytes) : Bool :=
  inodeAt k path != 0 && (k.inodes (inodeAt k path)).type == .reg

/-- The contents of that file. -/
def fileBytes (k : KState) (path : Bytes) : Bytes :=
  let ino := k.inodes (inodeAt k path)
  (List.range ino.size).map fun i => k.mm.mem (ino.pages (i / 4096) + i % 4096)

/-- What the first line of a script names: the interpreter, and the optional argument. -/
def scriptLine (file : Bytes) : Option (Bytes × Option Bytes) :=
  let line := (file.drop 2).dropWhile isBlank
  let interp := line.takeWhile fun c => !isBlank c && c != 10 && c != 0
  let arg := ((line.drop interp.length).dropWhile isBlank).takeWhile fun c => c != 10 && c != 0
  if file.take 2 ≠ [35, 33] ∨ interp = [] then none
  else some (interp, if arg = [] then none else some arg)

/-- The strings that replace `argv[0]` when the interpreter of the script `path` is started. -/
def scriptHead (interp : Bytes) (arg : Option Bytes) (path : Bytes) : List Bytes :=
  interp :: arg.toList ++ [path]

/-- The files of a start as the lines have them, `depth` of them at most. -/
def scriptVisits (k : KState) : Nat → Bytes → Option Bytes → List Bytes → List Visit
  | 0, _, _, _ => []
  | depth + 1, path, arg, argv =>
    if isFile k path then
      ⟨path, arg, argv⟩ ::
        match scriptLine (fileBytes k path) with
        | none => []
        | some (i, a) => scriptVisits k depth i a (scriptHead i a path ++ argv.drop 1)
    else []

/-- The line that `proc_execve` reads from the header of a file, if it is a script's. -/
def headerLine (k : KState) (path : Bytes) : Option (Bytes × Option Bytes) :=
  let got := ramfsRead k.toFs (inodeAt k path) 0 128
  if got.1 ≥ 2 ∧ got.2.take 2 = [35, 33] ∧ 0 < (parseShebang got.2).1 then
    some (parseShebang got.2).2
  else none

/-- The files the loop of `proc_execve` comes to. -/
def execVisits (k : KState) : Nat → Bytes → Option Bytes → Bprm → List Visit
  | 0, _, _, _ => []
  | depth + 1, path, arg, b =>
    if isFile k path then
      ⟨path, arg, cVector b.argv⟩ ::
        match headerLine k path with
        | none => []
        | some (i, a) => execVisits k depth (strlcpy i 128) a (spliceArgs b i a path)
    else []

/-- The copies of the two vectors with which the loop begins. -/
def bprmOf (argv envp : List Bytes) : Option Bprm :=
  let a := bprmCopyVec argv 0 0
  let e := bprmCopyVec envp 0 a.2
  match a.1, e.1 with
  | some av, some ev => some { argv := av, envp := ev, used := e.2 }
  | _, _ => none

/-- The files `execve` comes to. -/
def execveVisits (k : KState) (path : Bytes) (argv envp : List Bytes) : List Visit :=
  match bprmOf argv envp with
  | none => []
  | some b => execVisits k 4 (strlcpy path 128) none b

/-- `execve` fails with an error or loads the last file it comes to, with the vector of that point;
    the files, their lines' arguments and the vectors are those the scripts name. A vector that
    would be cut at `EXEC_MAXARG` is never started: it has 64 strings. -/
structure ScriptsFaithful (k : KState) (path : Bytes) (argv envp : List Bytes) : Prop where
  outcome : (∃ fs v, v < 0 ∧ procExecve k path argv envp = setRet { k with toFs := fs } v) ∨
    ∃ v b, (execveVisits k path argv envp).getLast? = some v ∧ v.argv.length < 64 ∧
      cVector b.argv = v.argv ∧ cVector b.envp = envp ∧
      procExecve k path argv envp = execImage k (inodeAt k v.path) b
  exact : execveVisits k path argv envp <+: (scriptVisits k 4 path none argv).map Visit.cut

/-- From a file on, with `used` bytes of the buffer taken: the line of each script is the same in its
    first 128 bytes, and its strings fit the buffer; or the loop ends before it goes on. -/
def ScriptsFit (k : KState) : Nat → Bytes → List Bytes → Nat → Prop
  | 0, _, _, _ => True
  | depth + 1, path, argv, used =>
    isFile k path = true →
      match scriptLine ((fileBytes k path).take 128) with
      | none => True
      | some (i, a) =>
        if scriptLine (fileBytes k path) = some (i, a) ∧
            used + stringBytes (scriptHead i a path) ≤ 4096 then
          ScriptsFit k depth i (scriptHead i a path ++ argv.drop 1)
            (used + stringBytes (scriptHead i a path))
        else depth = 0 ∨ isFile k i = false

/-- The vectors are refused, or the path fits its buffer and the scripts fit, or the path that is
    left leads nowhere. -/
def ExecveFits (k : KState) (path : Bytes) (argv envp : List Bytes) : Prop :=
  argv.length ≤ 64 → envp.length ≤ 64 → stringBytes argv + stringBytes envp ≤ 4096 →
    if path.length < 128 then ScriptsFit k 4 path argv (stringBytes argv + stringBytes envp)
    else isFile k (path.take 127) = false

variable {k : KState} {b : Bprm} {path i : Bytes} {a : Option Bytes} {argv : List Bytes}

/-! ## Reading the line -/

theorem ramfsRead_start (h : isFile k path = true) (n : Nat) : ramfsRead k.toFs (inodeAt k path) 0 n =
      ((((fileBytes k path).take n).length : Int), (fileBytes k path).take n) := by
  have hlen : (fileBytes k path).length = (k.inodes (inodeAt k path)).size := by simp [fileBytes]
  simp only [isFile, Bool.and_eq_true, beq_iff_eq] at h
  unfold ramfsRead
  simp only [h.2, ne_eq, not_true_eq_false, if_false, Nat.sub_zero]
  split
  · rw [length_eq_zero_iff.1 (by omega : (fileBytes k path).length = 0)]
    simp
  rw [readLoop_eq _ (by omega), length_take, hlen, fileBytes, ← map_take, take_range]
  simp only [Nat.sub_zero, zero_add, Nat.min_def]
  split <;> split <;> simp_all
  omega

/-- On the first 128 bytes no limit of `parse_shebang` is reached. -/
theorem parseShebang_eq {hdr : Bytes} (h : hdr.length ≤ 128) (hb : hdr.take 2 = [35, 33]) :
    parseShebang hdr = match scriptLine hdr with
      | none => (-1, [], none)
      | some (i, a) => (1, i, a) := by
  unfold parseShebang scriptLine
  simp only [hb, ne_eq, not_true_eq_false, if_false, false_or,
    take_of_length_le (by omega : hdr.length ≤ 256)]
  have hline := (dropWhile_sublist (l := hdr.drop 2) isBlank).length_le
  rw [length_drop] at hline
  generalize (hdr.drop 2).dropWhile isBlank = line at hline ⊢
  have hi := (takeWhile_sublist (l := line) fun c => !isBlank c && c != 10 && c != 0).length_le
  generalize (line.takeWhile fun c => !isBlank c && c != 10 && c != 0) = interp at hi ⊢
  have ha := (takeWhile_sublist (l := (line.drop interp.length).dropWhile isBlank)
    fun c => c != 10 && c != 0).length_le
  have hd := (dropWhile_sublist (l := line.drop interp.length) isBlank).length_le
  rw [length_drop] at hd
  generalize ((line.drop interp.length).dropWhile isBlank).takeWhile _ = arg at ha ⊢
  by_cases he : interp = []
  · simp [he]
  rw [if_neg (fun hc => hc.elim he (by omega)), if_neg he]
  by_cases hne : arg = []
  · simp [hne]
  have := length_pos_iff.2 hne
  simp only [if_neg hne, if_pos (⟨this, by omega⟩ : 0 < arg.length ∧ arg.length < 128)]

theorem scriptLine_length {file : Bytes} (h : scriptLine file = some (i, a)) :
    i.length ≤ file.length - 2 := by
  unfold scriptLine at h
  simp only at h
  split at h
  · cases h
  cases h
  refine (takeWhile_sublist _).length_le.trans ?_
  refine (dropWhile_sublist _).length_le.trans ?_
  rw [length_drop]

theorem headerLine_eq (h : isFile k path = true) :
    headerLine k path = scriptLine ((fileBytes k path).take 128) := by
  unfold headerLine
  rw [ramfsRead_start h]
  have hlen := length_take_le 128 (fileBytes k path)
  generalize (fileBytes k path).take 128 = hdr at hlen ⊢
  simp only
  by_cases hb : hdr.take 2 = [35, 33]
  · have h2 : 2 ≤ hdr.length := by
      have := congrArg length hb
      simp only [length_take, length_cons, length_nil] at this
      omega
    rw [parseShebang_eq hlen hb]
    cases scriptLine hdr with
    | none => simp
    | some ia => simp [hb]; omega
  rw [if_neg (fun hc => hb hc.2.1)]
  simp [scriptLine, hb]

/-! ## The splice -/

@[simp] theorem cVector_map_some (ss : List Bytes) : cVector (ss.map some) = ss := by
  induction ss with
  | nil => rfl
  | cons s ss ih => simp [cVector, ih]

/-- `bprm_dup` of several strings. -/
def dupAll : Nat → List Bytes → List (Option Bytes) × Nat
  | used, [] => ([], used)
  | used, s :: ss =>
    let r := bprmDup used s
    let t := dupAll r.2 ss
    (r.1 :: t.1, t.2)

theorem spliceArgs_eq (b : Bprm) (i : Bytes) (a : Option Bytes) (path : Bytes) :
    spliceArgs b i a path = let r := dupAll b.used (scriptHead i a path)
      { b with argv := r.1 ++ (b.argv.drop 1).take (64 - r.1.length), used := r.2 } := by
  cases a <;> rfl

theorem dupAll_fits (ss : List Bytes) : ∀ used, used + stringBytes ss ≤ 4096 →
    dupAll used ss = (ss.map some, used + stringBytes ss) := by
  induction ss with
  | nil => intro used _; rfl
  | cons s ss ih => ?_
  intro used h
  rw [stringBytes_cons] at h ⊢
  rw [dupAll, bprmDup, if_pos (by omega)]
  simp only
  rw [ih _ (by omega), map_cons]
  simp only [add_assoc]

/-- When the buffer is full the vector ends at the string that did not fit. -/
theorem dupAll_full (ss : List Bytes) (rest : List (Option Bytes)) :
    ∀ used, ¬ used + stringBytes ss ≤ 4096 → used ≤ 4096 →
      (cVector ((dupAll used ss).1 ++ rest)).length < ss.length := by
  induction ss with
  | nil => intro used h hu; exact absurd hu h
  | cons s ss ih => ?_
  intro used h hu
  rw [stringBytes_cons] at h
  rw [dupAll, bprmDup]
  split
  · have := ih (used + s.length + 1) (by omega) (by omega)
    simpa [cVector] using this
  simp [cVector]

theorem scriptHead_length (i : Bytes) (a : Option Bytes) (path : Bytes) :
    1 ≤ (scriptHead i a path).length ∧ (scriptHead i a path).length ≤ 64 := by
  cases a <;> simp [scriptHead]

theorem spliceArgs_fits (hb : b.argv = (argv.take 64).map some)
    (hfit : b.used + stringBytes (scriptHead i a path) ≤ 4096) :
    (spliceArgs b i a path).argv = ((scriptHead i a path ++ argv.drop 1).take 64).map some ∧
      (spliceArgs b i a path).used = b.used + stringBytes (scriptHead i a path) := by
  have h3 := scriptHead_length i a path
  rw [spliceArgs_eq, dupAll_fits _ _ hfit, hb]
  refine ⟨?_, rfl⟩
  simp only [length_map, ← map_drop, ← map_take, ← map_append]
  rw [take_append, take_of_length_le h3.2, drop_take, take_take, Nat.min_eq_left (by omega)]

/-! ## The two lists of files -/

theorem execVisits_head {depth : Nat} {i' : Bytes} {a' : Option Bytes} (hf : isFile k i = true)
    (h : execVisits k (depth + 1) i a b <+: (scriptVisits k (depth + 1) i' a' argv).map Visit.cut) :
    i = i' ∧ a = a' ∧ cVector b.argv = argv.take 64 := by
  rw [execVisits, scriptVisits, if_pos hf] at h
  by_cases hf' : isFile k i' = true
  · rw [if_pos hf', map_cons, cons_prefix_cons] at h
    exact Visit.mk.inj h.1
  simp [hf'] at h

/-- The loop comes to the files the scripts name exactly when nothing is cut. -/
theorem execVisits_isPrefix_iff (depth : Nat) : ∀ (path : Bytes) (arg : Option Bytes)
    (argv : List Bytes) (b : Bprm), b.argv = (argv.take 64).map some → b.used ≤ 4096 →
      (execVisits k depth path arg b <+: (scriptVisits k depth path arg argv).map Visit.cut ↔
        ScriptsFit k depth path argv b.used) := by
  induction depth with
  | zero => intro path arg argv b _ _; simp [execVisits, ScriptsFit]
  | succ depth ih => ?_
  intro path arg argv b hb hu
  rw [execVisits, scriptVisits, ScriptsFit]
  by_cases hf : isFile k path = true
  swap
  · simp [hf]
  have hhead : (⟨path, arg, cVector b.argv⟩ : Visit) = Visit.cut ⟨path, arg, argv⟩ := by
    rw [hb, cVector_map_some]
    rfl
  simp only [hf, if_true, forall_const, map_cons, cons_prefix_cons, hhead, true_and, headerLine_eq hf]
  cases hl : scriptLine ((fileBytes k path).take 128) with
  | none => simp
  | some ia => ?_
  obtain ⟨i, a⟩ := ia
  have hi : strlcpy i 128 = i := by
    have h1 := scriptLine_length hl
    have h2 := length_take_le 128 (fileBytes k path)
    exact take_of_length_le (by omega)
  simp only [hi]
  by_cases hx : scriptLine (fileBytes k path) = some (i, a) ∧
      b.used + stringBytes (scriptHead i a path) ≤ 4096
  · rw [if_pos hx]
    obtain ⟨hargv, hused⟩ := spliceArgs_fits hb hx.2
    rw [hx.1]
    simp only
    rw [ih _ _ _ _ hargv (hused ▸ hx.2), hused]
  rw [if_neg hx]
  -- the next file, if the loop comes to it, is not the one the line names
  cases depth with
  | zero => simp [execVisits]
  | succ depth => ?_
  by_cases hfi : isFile k i = true
  swap
  · simp [hfi, execVisits]
  refine iff_of_false (fun hp => hx ?_) (by simp [hfi])
  cases hs : scriptLine (fileBytes k path) with
  | none => simp [hs, hfi, execVisits] at hp
  | some ia' => ?_
  simp only [hs] at hp
  obtain ⟨rfl, rfl, hv⟩ := execVisits_head hfi hp
  refine ⟨rfl, not_not.1 fun hfull => ?_⟩
  have hlt := dupAll_full (scriptHead ia'.1 ia'.2 path) ((b.argv.drop 1).take
    (64 - (dupAll b.used (scriptHead ia'.1 ia'.2 path)).1.length)) _ hfull hu
  have h3 := scriptHead_length ia'.1 ia'.2 path
  rw [spliceArgs_eq] at hv
  rw [hv, length_take, length_append] at hlt
  omega

/-! ## The start -/

theorem bprmCopyVec_eq (ss : List Bytes) : ∀ n used, n ≤ 64 → used ≤ 4096 →
    if n + ss.length ≤ 64 ∧ used + stringBytes ss ≤ 4096 then
      bprmCopyVec ss n used = (some (ss.map some), used + stringBytes ss)
    else (bprmCopyVec ss n used).1 = none := by
  induction ss with
  | nil => intro n used hn hu; simp [hn, hu, bprmCopyVec, stringBytes]
  | cons s ss ih => ?_
  intro n used hn hu
  simp only [bprmCopyVec, stringBytes_cons, length_cons]
  by_cases hn' : n ≥ 64
  · rw [if_neg (by omega), if_pos hn']
  rw [if_neg hn', bprmDup]
  by_cases hd : used + s.length + 1 ≤ 4096
  · have := ih (n + 1) (used + s.length + 1) (by omega) hd
    rw [if_pos hd]
    simp only
    by_cases hc : n + (ss.length + 1) ≤ 64 ∧ used + (s.length + 1 + stringBytes ss) ≤ 4096
    · rw [if_pos (by omega)] at this
      rw [if_pos hc, this]
      simp only [Option.map_some, map_cons, add_assoc]
    rw [if_neg (by omega)] at this
    rw [if_neg hc, this]
    rfl
  rw [if_neg (by omega), if_neg hd]

theorem bprmOf_eq (argv envp : List Bytes) : bprmOf argv envp =
    if argv.length ≤ 64 ∧ envp.length ≤ 64 ∧ stringBytes argv + stringBytes envp ≤ 4096 then
      some ⟨argv.map some, envp.map some, stringBytes argv + stringBytes envp⟩
    else none := by
  have ha := bprmCopyVec_eq argv 0 0 (by omega) (by omega)
  unfold bprmOf
  simp only [zero_add] at ha ⊢
  split at ha
  · next h =>
    have he := bprmCopyVec_eq envp 0 (stringBytes argv) (by omega) h.2
    rw [ha]
    simp only [zero_add] at he ⊢
    split at he
    · next h' => rw [he, if_pos ⟨h.1, h'⟩]
    next h' => rw [he, if_neg fun hc => h' hc.2]
  next h => rw [ha, if_neg fun hc => h ⟨hc.1, by omega⟩]

theorem procExecve_eq (k : KState) (path : Bytes) (argv envp : List Bytes) :
    procExecve k path argv envp = match bprmOf argv envp with
      | none => setRet k (-7)
      | some b => execLoop k 4 (strlcpy path 128) b := by
  unfold procExecve bprmOf
  simp only
  cases (bprmCopyVec argv 0 0).1 with
  | none => rfl
  | some av => cases (bprmCopyVec envp 0 (bprmCopyVec argv 0 0).2).1 <;> rfl

/-- `setup_user_stack` refuses 64 strings. -/
theorem execImage_refuses (ino : Nat) (h : 64 ≤ (cVector b.argv).length) :
    ∃ fs v, v < 0 ∧ execImage k ino b = setRet { k with toFs := fs } v := by
  have hno : ∀ (m : Mm) (l1 top : Nat) (envp : List Bytes) (lr : LoadResult),
      (setupUserStack m l1 top (cVector b.argv) envp lr).1 = 0 := fun m l1 top envp lr => by
    unfold setupUserStack
    simp only [if_pos (.inl h : (cVector b.argv).length ≥ 64 ∨ envp.length ≥ 64), ite_self]
  unfold execImage execCommit
  simp only [hno, if_true]
  split
  · exact ⟨_, -12, by decide, rfl⟩
  split
  · exact ⟨_, -8, by decide, rfl⟩
  split
  · exact ⟨_, -12, by decide, rfl⟩
  · exact ⟨_, -7, by decide, rfl⟩

/-- The loop fails, or loads the last file it comes to. -/
theorem execLoop_visits (depth : Nat) : ∀ (path : Bytes) (arg : Option Bytes) (b : Bprm),
    (∃ v, v < 0 ∧ execLoop k depth path b = setRet k v) ∨
      ∃ v b', (execVisits k depth path arg b).getLast? = some v ∧ cVector b'.argv = v.argv ∧
        b'.envp = b.envp ∧ execLoop k depth path b = execImage k (inodeAt k v.path) b' := by
  induction depth with
  | zero => intro path arg b; exact .inl ⟨-40, by decide, rfl⟩
  | succ depth ih => ?_
  intro path arg b
  rw [execLoop, execVisits, headerLine]
  simp only [show ramfsLookup k.toFs k.proc.cwd path true = inodeAt k path from rfl]
  generalize ramfsRead k.toFs (inodeAt k path) 0 128 = got
  split
  · exact .inl ⟨-2, by decide, rfl⟩
  rename_i hf
  have hfile : isFile k path = true := by
    simp only [not_or, ne_eq, not_not] at hf
    simp [isFile, hf]
  rw [if_pos hfile]
  split
  · exact .inl ⟨-8, by decide, rfl⟩
  split
  · next hb =>
    split
    · exact .inl ⟨-8, by decide, rfl⟩
    rename_i hr
    rw [if_pos ⟨hb.1, hb.2, by omega⟩]
    rcases ih _ (parseShebang got.2).2.2 _ with h | ⟨v, b', hlast, hv, he, heq⟩
    · exact .inl h
    exact .inr ⟨v, b', by simp [getLast?_cons, hlast], hv, he, heq⟩
  next hb =>
  rw [if_neg fun hc => hb ⟨hc.1, hc.2.1⟩]
  exact .inr ⟨_, b, rfl, rfl, rfl, rfl⟩

/-- **`execve` passes what the scripts say** exactly when the path fits `cur_path`, each `#!` line the
    128 bytes of the header, and the strings of the splice what is left of the buffer, at each file
    the loop comes to. -/
theorem execve_scripts_faithful_iff (k : KState) (path : Bytes) (argv envp : List Bytes) :
    ScriptsFaithful k path argv envp ↔ ExecveFits k path argv envp := by
  have hexact : execveVisits k path argv envp <+: (scriptVisits k 4 path none argv).map Visit.cut ↔
      ExecveFits k path argv envp := by
    rw [execveVisits, ExecveFits, bprmOf_eq]
    split
    · next hb =>
      refine iff_of_true ( nil_prefix ..) fun h1 h2 h3 => ?_
      rw [if_pos ⟨h1, h2, h3⟩] at hb
      cases hb
    rename_i b hb
    split at hb
    swap
    · cases hb
    next hfit =>
    cases hb
    simp only [hfit, forall_const]
    by_cases hp : path.length < 128
    · rw [if_pos hp, strlcpy, take_of_length_le (by omega)]
      exact execVisits_isPrefix_iff 4 path none argv _ (by simp only [take_of_length_le hfit.1]) hfit.2.2
    rw [if_neg hp, strlcpy]
    by_cases hf : isFile k (path.take 127) = true
    swap
    · simp [hf, execVisits]
    refine iff_of_false (fun h => ?_) (by simp [hf])
    have := congrArg length (execVisits_head hf h).1
    rw [length_take] at this
    omega
  refine ⟨fun h => hexact.1 h.exact, fun h => ⟨?_, hexact.2 h⟩⟩
  rw [procExecve_eq, execveVisits, bprmOf_eq]
  split
  · exact .inl ⟨k.toFs, -7, by decide, rfl⟩
  rename_i b hb
  split at hb
  · cases hb
    rcases execLoop_visits 4 (strlcpy path 128) none _ with ⟨v, hv, h⟩ | ⟨v, b', hl, hv, he, h⟩
    · exact .inl ⟨k.toFs, v, hv, h⟩
    rw [h]
    by_cases hlen : v.argv.length < 64
    · exact .inr ⟨v, b', hl, hlen, hv, by rw [he, cVector_map_some], rfl⟩
    · exact .inl (execImage_refuses _ (by rw [hv]; omega))
  · cases hb

/-- The first program, with a script `/s` that names it as its interpreter. -/
def withScript : KState :=
  runFrom next tiny [.syscall {} (.openat (-100) [47, 115] 65 493),
    .syscall {} (.write 0 [35, 33, 47, 105, 110, 105, 116, 10])]

example : execveVisits withScript [47, 115] [[115], [97]] [] =
    (scriptVisits withScript 4 [47, 115] none [[115], [97]]).map Visit.cut := by decide +kernel

/-- With 4090 bytes of arguments the interpreter is started, with an empty vector. -/
theorem execve_drops_arguments :
    (procExecve withScript [47, 115] [[115], List.replicate 4090 97] []).proc.tf.pc = 0x10000 ∧
    (execveVisits withScript [47, 115] [[115], List.replicate 4090 97] []).getLast? =
        some ⟨[47, 105, 110, 105, 116], none, []⟩ ∧
      ¬ ScriptsFaithful withScript [47, 115] [[115], List.replicate 4090 97] [] := by
  have hlast : (execveVisits withScript [47, 115] [[115], replicate 4090 97] []).getLast? =
      some ⟨[47, 105, 110, 105, 116], none, []⟩ := by decide +kernel
  have hnamed : ∀ v ∈ (scriptVisits withScript 4 [47, 115] none
      [[115], replicate 4090 97]).map Visit.cut, v.argv ≠ [] := by decide +kernel
  exact ⟨by decide +kernel, hlast, fun h => hnamed _ (h.exact.subset (mem_of_getLast? hlast)) rfl⟩

end Embedded.Kernel
