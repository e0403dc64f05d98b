import Embedded.Dbg.LineProgram
import Mathlib.Data.List.Forall2

/-! # Line tables from the assembler to the debugger

The header, the whole unit, and the round trip: which locations the debugger shows as they were
given. A file is found again by its number if the files before it were given too, because the unit
lists only the names that were given. -/

namespace Embedded.Dbg

open Toolchain.As
open List LineDirectives
open Option (bind_some map_eq_some_iff)

variable {n : Nat} {st' st : LineDirectives} {l : Loc}

variable {name : List UInt8} {dirs : List (List UInt8)}

/-! ## Names -/

theorem lastSlash_spec {i : Nat} (h : lastSlash name = some i) :
    i < name.length ∧ name = name.take i ++ 47 :: name.drop (i + 1) := by
  unfold lastSlash at h
  simp only at h
  split at h
  next hlt =>
    simp only [Option.some.injEq] at h
    have hi : i < name.length := by omega
    refine ⟨hi, ?_⟩
    have hget : name[i] = 47 := by
      have hlt' : name.reverse.idxOf 47 < name.reverse.length := by
        rw [length_reverse]
        exact hlt
      have hrev : name.reverse[name.reverse.idxOf 47] = 47 := getElem_idxOf _
      rw [getElem_reverse] at hrev
      simp only [h] at hrev
      exact hrev
    rw [← hget, getElem_cons_drop, take_append_drop]
  · simp at h

/-- The path that the debugger puts together again. -/
def shownName (name : List UInt8) : List UInt8 :=
  match dirPart name with
  | some d => d ++ 47 :: basePart name
  | none => name

/-- A name comes back as it was, except directly under the root, where the slash is doubled. -/
theorem shownName_eq (name : List UInt8) :
    shownName name = if lastSlash name = some 0 then 47 :: name else name := by
  unfold shownName dirPart basePart
  cases h : lastSlash name with
  | none => simp
  | some i => ?_
  obtain ⟨hlt, hsplit⟩ := lastSlash_spec h
  by_cases hi : i = 0
  · subst hi
    rw [take_zero, nil_append] at hsplit
    rw [if_pos rfl, Option.map_some, if_pos rfl]
    generalize name.drop (0 + 1) = rest at hsplit
    subst hsplit
    rfl
  have hne : (some i : Option Nat) ≠ some 0 := fun h => hi (Option.some.inj h)
  rw [if_neg hne, Option.map_some, if_neg hi]
  exact hsplit.symm

theorem dirPart_mem {d : List UInt8} (h : dirPart name = some d) (hz : 0 ∉ name) : d ≠ [] ∧ 0 ∉ d := by
  obtain ⟨i, hi, rfl⟩ := Option.map_eq_some_iff.1 h
  obtain ⟨hlt, -⟩ := lastSlash_spec hi
  refine ⟨fun hnil => ?_, fun hmem => hz (mem_of_mem_take hmem)⟩
  have hlen := congrArg length hnil
  rw [length_take, length_nil] at hlen
  split at hlen <;> omega

theorem basePart_no_nul (hz : 0 ∉ name) : 0 ∉ basePart name := by
  unfold basePart
  split
  · exact fun hmem => hz (mem_of_mem_drop hmem)
  · exact hz

/-! ## Directories -/

/-- The number that a file has for its directory. -/
def DirOf (dirs : List (List UInt8)) (name : List UInt8) (n : Nat) : Prop :=
  dirPart name = none ∧ n = 0 ∨ ∃ d, dirPart name = some d ∧ 1 ≤ n ∧ dirs[n - 1]? = some d

theorem DirOf.append {n : Nat} (h : DirOf dirs name n)
    (more : List (List UInt8)) : DirOf (dirs ++ more) name n := by
  rcases h with h | ⟨d, hd, hn, hget⟩
  · exact .inl h
  refine .inr ⟨d, hd, hn, ?_⟩
  obtain ⟨hlt, -⟩ := List.getElem?_eq_some_iff.1 hget
  rw [List.getElem?_append_left hlt]
  exact hget

theorem addDir_spec (dirs : List (List UInt8)) (name : List UInt8) :
    DirOf (addDir dirs name).1 name (addDir dirs name).2 ∧
      ∃ more, (addDir dirs name).1 = dirs ++ more ∧ ∀ d ∈ more, dirPart name = some d := by
  unfold addDir
  cases hdir : dirPart name with
  | none => exact ⟨.inl ⟨hdir, rfl⟩, [], by simp⟩
  | some d => ?_
  simp only
  split
  next hlt =>
    refine ⟨.inr ⟨d, hdir, by omega, ?_⟩, [], by simp⟩
    rw [Nat.add_sub_cancel, getElem?_eq_getElem hlt, getElem_idxOf]
  · refine ⟨.inr ⟨d, hdir, by omega, ?_⟩, [d], rfl, by simp⟩
    rw [Nat.add_sub_cancel, getElem?_concat_length]

/-- The tables of `dwline_emit`: each file has the number of its directory. -/
theorem dirTable_spec (names dirs : List (List UInt8)) :
    List.Forall₂ (DirOf (dirTable names dirs).1) names (dirTable names dirs).2 ∧
      ∃ more, (dirTable names dirs).1 = dirs ++ more ∧ ∀ d ∈ more, ∃ name ∈ names, dirPart name = some d := by
  induction names generalizing dirs with
  | nil => exact ⟨List.Forall₂.nil, [], by simp [dirTable]⟩
  | cons name names ih => ?_
  obtain ⟨hdir, more, hmore, hmem⟩ := addDir_spec dirs name
  obtain ⟨hall, more', hmore', hmem'⟩ := ih (addDir dirs name).1
  refine ⟨List.Forall₂.cons ?_ hall, more ++ more', ?_, fun d hd => ?_⟩
  · show DirOf (dirTable names (addDir dirs name).1).1 name _
    rw [hmore']
    exact hdir.append more'
  · show (dirTable names (addDir dirs name).1).1 = _
    rw [hmore', hmore, append_assoc]
  rcases mem_append.1 hd with h | h
  · exact ⟨name, mem_cons_self, hmem d h⟩
  obtain ⟨n, hn, heq⟩ := hmem' d h
  exact ⟨n, mem_cons_of_mem _ hn, heq⟩

/-! ## Reading the tables -/

theorem readStr_append {s : List UInt8} (hz : 0 ∉ s) (rest : List UInt8) :
    readStr (s ++ 0 :: rest) = some (s, rest) := by
  induction s with
  | nil => rfl
  | cons b s ih =>
    rw [mem_cons, not_or] at hz
    rw [cons_append, readStr, if_neg (Ne.symm hz.1), ih hz.2]
    rfl

theorem readDirs_spec {acc : List (List UInt8)} {fuel : Nat} (rest : List UInt8)
    (hd : ∀ d ∈ dirs, d ≠ [] ∧ 0 ∉ d) (hcap : acc.length + dirs.length ≤ 64)
    (hfuel : dirs.length < fuel) :
    readDirs fuel (dirs.flatMap (fun d => d ++ [0]) ++ 0 :: rest) acc = some (acc ++ dirs, rest) := by
  induction dirs generalizing acc fuel with
  | nil =>
    obtain _ | fuel := fuel
    · omega
    simp [readDirs]
  | cons d dirs ih => ?_
  obtain _ | fuel := fuel
  · omega
  rw [length_cons] at hcap hfuel
  obtain ⟨hne, hz⟩ := hd d mem_cons_self
  have hdata : (d :: dirs).flatMap (fun d => d ++ [0]) ++ 0 :: rest =
      d ++ 0 :: (dirs.flatMap (fun d => d ++ [0]) ++ 0 :: rest) := by simp
  have hstr := readStr_append hz (dirs.flatMap (fun d => d ++ [0]) ++ 0 :: rest)
  rw [hdata]
  cases d with
  | nil => exact absurd rfl hne
  | cons b d => ?_
  rw [mem_cons, not_or] at hz
  rw [cons_append] at hstr ⊢
  rw [readDirs, if_neg (Ne.symm hz.1), hstr, bind_some, if_pos (by omega), ih (forall_mem_cons.1 hd).2
      (by rw [length_append, length_singleton]; omega) (by omega)]
  simp

theorem fullpath_eq (h : DirOf dirs name n)
    (hlen : (shownName name).length < 512) : fullpath dirs n (basePart name) = shownName name := by
  unfold shownName at hlen ⊢
  unfold fullpath
  rcases h with ⟨hdir, rfl⟩ | ⟨d, hdir, hn, hget⟩
  · have hbase : basePart name = name := by
      unfold dirPart at hdir
      rw [Option.map_eq_none_iff] at hdir
      rw [basePart, hdir]
    simp only [hdir] at hlen ⊢
    rw [if_neg (by omega), hbase, take_of_length_le (by omega)]
  obtain ⟨hlt, heq⟩ := List.getElem?_eq_some_iff.1 hget
  simp only [hdir] at hlen ⊢
  rw [if_pos ⟨by omega, by omega⟩, getD_eq_getElem?_getD, hget, Option.getD_some,
    take_of_length_le (by omega)]

/-- The names that the debugger reads: up to the first one with an empty base. -/
def shownNames (names : List (List UInt8)) : List (List UInt8) :=
  (names.takeWhile fun name => basePart name ≠ []).map shownName

theorem readFiles_spec {names acc : List (List UInt8)} {ns : List Nat} {fuel : Nat}
    (rest : List UInt8) (hdirs : dirs.length ≤ 64) (h : List.Forall₂ (DirOf dirs) names ns)
    (hz : ∀ name ∈ names, 0 ∉ name) (hlen : ∀ name ∈ names, (shownName name).length < 512)
    (hfuel : names.length < fuel) :
    ∃ r, readFiles dirs fuel ((List.zipWith fileEntry names ns).flatten ++ 0 :: rest) acc =
      some (acc ++ shownNames names, r) := by
  induction h generalizing acc fuel with
  | nil =>
    obtain _ | fuel := fuel
    · omega
    exact ⟨rest, by simp [readFiles, shownNames]⟩
  | @cons name n names ns hname hrest ih => ?_
  obtain _ | fuel := fuel
  · omega
  rw [length_cons] at hfuel
  have hzname := basePart_no_nul (hz name mem_cons_self)
  obtain ⟨r, hr⟩ := @ih (acc ++ [shownName name]) fuel (forall_mem_cons.1 hz).2 (forall_mem_cons.1 hlen).2
    (by omega)
  have hdata : (zipWith fileEntry (name :: names) (n :: ns)).flatten ++ 0 :: rest =
      basePart name ++ 0 :: (uleb n ++ 0 :: 0 :: ((zipWith fileEntry names ns).flatten ++ 0 :: rest)) := by
    simp [fileEntry]
  have hstr := readStr_append hzname (uleb n ++ 0 :: 0 :: ((zipWith fileEntry names ns).flatten ++ 0 :: rest))
  have hn : n < 4294967296 := by
    rcases hname with h | ⟨d, -, hn, hget⟩
    · omega
    obtain ⟨hlt, -⟩ := List.getElem?_eq_some_iff.1 hget
    omega
  have huleb := readUleb_uleb (show n < 2 ^ 64 by omega) (0 :: 0 ::
    ((List.zipWith fileEntry names ns).flatten ++ 0 :: rest))
  rw [Nat.mod_eq_of_lt hn] at huleb
  have hpath := fullpath_eq hname (hlen name mem_cons_self)
  rw [hdata]
  generalize (zipWith fileEntry names ns).flatten ++ 0 :: rest = tail at hstr huleb hr
  cases hb : basePart name with
  | nil =>
    -- an empty base name reads as the end of the table
    exact ⟨uleb n ++ 0 :: 0 :: tail, by simp [readFiles, shownNames, hb]⟩
  | cons b base => ?_
  rw [hb] at hzname hstr hpath
  rw [mem_cons, not_or] at hzname
  refine ⟨r, ?_⟩
  have hshown : shownNames (name :: names) = shownName name :: shownNames names := by
    rw [shownNames, takeWhile_cons_of_pos (by simp [hb])]
    rfl
  have hzero : ∀ t : List UInt8, readUleb (0 :: t) = some (0, t) := fun t => rfl
  rw [cons_append] at hstr ⊢
  rw [readFiles, if_neg (Ne.symm hzname.1), hstr, bind_some, huleb, bind_some,
    hzero, bind_some, hzero, bind_some, hpath, hr, hshown]
  simp

/-! ## The unit -/

section Unit

variable {addr len : Nat → UInt32} {st : LineDirectives}

/-- What fits into the tables of the debugger. -/
structure Fits (addr len : Nat → UInt32) (st : LineDirectives) : Prop where
  files : st.files.length ≤ 65536
  dirs : st.dirs.length ≤ 64
  paths : ∀ name ∈ st.given, (shownName name).length < 512
  size : (dwlineEmit addr len st).all (fun bytes => bytes.length < 4294967296) = true

theorem given_no_nul (h : name ∈ st.given) : 0 ∉ name := by
  obtain ⟨f, -, hf⟩ := mem_filterMap.1 h
  obtain ⟨c, -, rfl⟩ := Option.map_eq_some_iff.1 hf
  exact c.no_nul

theorem tables_length : st.given.length < st.tables.length ∧ st.dirs.length < st.tables.length := by
  obtain ⟨hall, -⟩ := dirTable_spec st.given []
  have hdirs : ∀ ds : List (List UInt8), ds.length ≤ (ds.flatMap fun d => d ++ [0]).length := by
    intro ds
    induction ds with
    | nil => simp
    | cons d ds ih =>
      simp only [flatMap_cons, length_append, length_cons, length_nil]
      omega
  have hfiles : ∀ (names : List (List UInt8)) (ns : List Nat), names.length = ns.length →
      names.length ≤ (zipWith fileEntry names ns).flatten.length := by
    intro names
    induction names with
    | nil => simp
    | cons name names ih => ?_
    intro ns hns
    cases ns with
    | nil => simp at hns
    | cons n ns => ?_
    have := ih ns (by simpa using hns)
    simp only [zipWith_cons_cons, flatten_cons, length_append, length_cons, fileEntry]
    omega
  have h1 := hdirs st.dirs
  have h2 := hfiles st.given _ hall.length_eq
  have htables : st.tables = st.dirs.flatMap (fun d => d ++ [0]) ++ 0 ::
      ((zipWith fileEntry st.given (dirTable st.given []).2).flatten ++ [0]) := rfl
  rw [htables, length_append, length_cons, length_append, length_singleton]
  omega

theorem eraseDups_length_le (l : List Nat) : l.eraseDups.length ≤ l.length := by
  induction h : l.length using Nat.strong_induction_on generalizing l with
  | _ n ih =>
    cases l with
    | nil => simp
    | cons a l => ?_
    have hfilter := length_filter_le (fun b => !b == a) l
    rw [length_cons] at h
    have hrec := ih (l.filter fun b => !b == a).length (by omega) _ rfl
    rw [eraseDups_cons, length_cons]
    omega

theorem sequences_all (locs : List Loc) : sequences addr len locs locs.length [] =
    sequencesOf addr len locs (sectionsOf locs) := by
  have hall : (locs.filter fun l => decide (l.sec ∉ ([] : List Nat))) = locs :=
    filter_eq_self.2 fun l _ => by simp
  have hsecs : (sectionsOf locs).length ≤ locs.length := by
    have := eraseDups_length_le (locs.map Loc.sec)
    rw [length_map] at this
    exact this
  rw [sequences_eq addr len locs (by rw [hall]; exact hsecs), hall]

theorem readTables (hfit : Fits addr len st) {fuel : Nat} (hfuel : st.tables.length ≤ fuel)
    (program : List UInt8) :
    ∃ rest r, readDirs fuel (st.tables ++ program) [] = some (st.dirs, rest) ∧
      readFiles st.dirs fuel rest [] = some (shownNames st.given, r) := by
  obtain ⟨hall, more, hmore, hmem⟩ := dirTable_spec st.given []
  have hmore' : st.dirs = more := by
    rw [dirs, hmore]
    rfl
  have hdirs : ∀ d ∈ st.dirs, d ≠ [] ∧ 0 ∉ d := by
    intro d hd
    obtain ⟨name, hname, hdir⟩ := hmem d (hmore' ▸ hd)
    exact dirPart_mem hdir (given_no_nul hname)
  obtain ⟨hlen1, hlen2⟩ := @tables_length st
  obtain ⟨r, hr⟩ := @readFiles_spec st.dirs st.given [] _ fuel program hfit.dirs hall
    (fun name h => given_no_nul h) hfit.paths (by omega)
  refine ⟨_, r, ?_, hr⟩
  have htables : st.tables ++ program = st.dirs.flatMap (fun d => d ++ [0]) ++ 0 ::
      ((zipWith fileEntry st.given (dirTable st.given []).2).flatten ++ 0 :: program) := by
    simp [tables, dirs]
  rw [htables, readDirs_spec _ hdirs (by simpa using hfit.dirs) (by omega)]
  rfl

/-- A unit of the assembler, from behind its version on. -/
theorem parseUnit_dwline (hfit : Fits addr len st) {program : List UInt8} {lines : List LineEntry}
    (hheader : st.header.length < 4294967296) (hdoes : Does 0 program (between []) (between lines)) :
    parseUnit 3 (emit32 st.header.length ++ (st.header ++ program)) [] ⟨[], []⟩ =
      some ⟨lines, shownNames st.given⟩ := by
  generalize hdata : emit32 st.header.length ++ (st.header ++ program) = data
  have hlen : data.length = 4 + (17 + st.tables.length + program.length) := by
    rw [← hdata]
    simp [emit32, header, stdLens]
    omega
  have hread : read32 data = some (st.header.length, st.header ++ program) := by
    rw [← hdata, read32_emit32, Nat.mod_eq_of_lt hheader]
  have hheader_eq : st.header ++ program =
      2 :: 1 :: 251 :: 14 :: 13 :: (stdLens ++ (st.tables ++ program)) := by simp [header]
  have hdrop : (st.header ++ program).drop st.header.length = program := drop_left
  obtain ⟨rest, r, hdirs, hfiles⟩ := @readTables _ _ _ hfit data.length (by omega) program
  obtain ⟨k, hk, hrun⟩ := hdoes
  have hprogram : runProgram (asHeader 0) [] data.length program (between []) = some (between lines) := by
    have h := hrun (data.length - k) [] [] le_rfl
    rw [append_nil, Nat.sub_add_cancel (by omega)] at h
    rw [h]
    cases data.length - k <;> rfl
  rw [parseUnit, hread, bind_some]
  simp only [hdrop]
  rw [hheader_eq]
  show (readDirs data.length (st.tables ++ program) []).bind _ = _
  rw [hdirs, bind_some]
  simp only
  rw [hfiles, bind_some]
  show (runProgram (asHeader 0) [] data.length program (between [])).map _ = _
  rw [hprogram]
  rfl

/-- What the debugger reads from a unit: the rows of the locations, and the names. -/
theorem parse_dwlineEmit (hfit : Fits addr len st) (hfile : ∀ l ∈ st.locs, l.file < 4294967296)
    {bytes : List UInt8} (h : dwlineEmit addr len st = some bytes) (hne : st.locs ≠ []) :
    parseUnits bytes.length bytes ⟨[], []⟩ =
      some ⟨(bySection st.locs (sectionsOf st.locs)).map fun l => entryOf 0 (addr l.sec).toNat l,
        shownNames st.given⟩ := by
  have hsize := hfit.size
  rw [h, Option.all_some, decide_eq_true_eq] at hsize
  rw [dwlineEmit, if_neg hne] at h
  obtain ⟨program, hprogram, rfl⟩ := Option.map_eq_some_iff.1 h
  rw [sequences_all] at hprogram
  have hdoes := @does_sequencesOf 0 program st.locs _ addr len [] hfile hprogram
  rw [nil_append] at hdoes
  have hheader : st.header.length < 4294967296 := by
    simp only [length_append, length_cons] at hsize
    omega
  have hunit := parseUnit_dwline hfit hheader hdoes
  generalize hu : 3 :: 0 :: (emit32 st.header.length ++ (st.header ++ program)) = unit at hsize ⊢
  have hlen : unit.length < 4294967296 := by
    rw [length_append] at hsize
    omega
  have hbytes : (emit32 unit.length ++ unit).length = (unit.length + 3) + 1 := by simp [emit32]
  have hnil : ∀ n t, parseUnits n [] t = some t := by
    intro n t
    cases n <;> rfl
  rw [hbytes, parseUnits, if_neg (by simp [emit32]), read32_emit32, Nat.mod_eq_of_lt hlen, bind_some]
  simp only [drop_length]
  rw [← hu]
  show (parseUnit 3 (emit32 st.header.length ++ (st.header ++ program)) [] ⟨[], []⟩).bind _ = _
  rw [hunit, bind_some, hnil]

/-! ## The round trip -/

/-- The name that a file number stands for. -/
def nameOf (st : LineDirectives) (n : Nat) : Option (List UInt8) :=
  (st.files.getD (n - 1) none).map CStr.bytes

/-- The row that a location asks for, in a section at `base`. -/
def rowOf (st : LineDirectives) (base : Nat) (l : Loc) : Row :=
  ⟨add32 base l.off.toNat, nameOf st l.file, l.line.toNat⟩

/-- The rows that the directives ask for, in the order of the debugger's table. -/
def expectedRows (addr : Nat → UInt32) (st : LineDirectives) : List Row :=
  ((bySection st.locs (sectionsOf st.locs)).map fun l => rowOf st (addr l.sec).toNat l).mergeSort
    fun a b => lineLe a.addr b.addr

/-- A unit is written, and the debugger shows the rows that the directives ask for. -/
def RoundTrips (addr len : Nat → UInt32) (st : LineDirectives) : Prop :=
  ∃ bytes t, dwlineEmit addr len st = some bytes ∧ parseDebugLine bytes = some t ∧
    t.rows = expectedRows addr st

/-- What a location needs: an even address, a line of 16 bits, and a number under which the given names
list its file, with nothing before it that ends the list and not directly under the root. -/
def Kept (st : LineDirectives) (l : Loc) : Prop :=
  l.off.toNat % 2 = 0 ∧ l.line.toNat < 65536 ∧
    (∀ name ∈ st.given.take l.file, basePart name ≠ []) ∧
    (st.given[l.file - 1]?).map (fun name => if lastSlash name = some 0 then 47 :: name else name) =
      nameOf st l.file

instance (st : LineDirectives) (l : Loc) : Decidable (Kept st l) := inferInstanceAs (Decidable (_ ∧ _))

/-- Every location names a file that was given. -/
def Given (st : LineDirectives) : Prop :=
  ∀ l ∈ st.locs, 1 ≤ l.file ∧ l.file ≤ st.files.length ∧ (nameOf st l.file).isSome

theorem Given.dwlineFile {name : CStr} (h : Given st)
    (hstep : dwlineFile st n name = some st') : Given st' := by
  unfold Toolchain.As.dwlineFile at hstep
  split at hstep
  · simp at hstep
  next hn =>
  cases hstep
  intro l hl
  obtain ⟨h1, h2, h3⟩ := h l hl
  simp only [length_set, length_append, length_replicate]
  refine ⟨h1, by omega, ?_⟩
  unfold nameOf at h3 ⊢
  simp only [getD_eq_getElem?_getD] at h3 ⊢
  by_cases hsame : n - 1 = l.file - 1
  · rw [hsame, getElem?_set_self (by simp; omega)]
    rfl
  rw [getElem?_set_ne hsame, getElem?_append_left (by omega)]
  exact h3

theorem Given.dwlineLoc (h : Given st) (hstep : dwlineLoc st l = some st') : Given st' := by
  unfold Toolchain.As.dwlineLoc at hstep
  split at hstep
  · simp at hstep
  next hok =>
  cases hstep
  rw [not_or] at hok
  intro l' hl'
  rcases mem_append.1 hl' with hl' | hl'
  · exact h l' hl'
  rw [mem_singleton] at hl'
  subst hl'
  have hsome : (st.files.getD (l'.file - 1) none).isSome := by
    rw [Option.isSome_iff_ne_none]
    exact fun hnone => hok.2 (by rw [hnone]; rfl)
  refine ⟨by omega, ?_, ?_⟩
  · by_contra hgt
    have hout : st.files.length ≤ l'.file - 1 := by
      have : ¬ l'.file ≤ st.files.length := hgt
      omega
    rw [getD_eq_getElem?_getD, getElem?_eq_none hout] at hsome
    simp at hsome
  rw [nameOf, Option.isSome_map]
  exact hsome

theorem Given.directives {ds : List Directive} (h : Given st)
    (hrun : directives ds st = some st') : Given st' := by
  induction ds generalizing st with
  | nil =>
    simp only [Toolchain.As.directives, Option.some.injEq] at hrun
    exact hrun ▸ h
  | cons d ds ih => ?_
  cases d with
  | file n name =>
    obtain ⟨st1, hstep, hrest⟩ := Option.bind_eq_some_iff.1 hrun
    exact ih (h.dwlineFile hstep) hrest
  | loc l =>
    obtain ⟨st1, hstep, hrest⟩ := Option.bind_eq_some_iff.1 hrun
    exact ih (h.dwlineLoc hstep) hrest

theorem takeWhile_getElem?_eq_some {α : Type} {p : α → Bool} {l : List α} {i : Nat} {x : α} :
    (l.takeWhile p)[i]? = some x ↔ l[i]? = some x ∧ ∀ y ∈ l.take (i + 1), p y = true := by
  induction l generalizing i with
  | nil => simp
  | cons a l ih => ?_
  by_cases ha : p a = true
  · rw [takeWhile_cons_of_pos ha]
    cases i with
    | zero => simp [ha]
    | succ i =>
      rw [getElem?_cons_succ, getElem?_cons_succ, ih, take_succ_cons, forall_mem_cons]
      simp [ha]
  rw [takeWhile_cons_of_neg ha, take_succ_cons, forall_mem_cons]
  simp [ha]

/-- The row of a location is the one it asks for exactly if its name and line are kept. -/
theorem row_eq_iff {base : Nat} (hfiles : st.files.length ≤ 65536) (h1 : 1 ≤ l.file)
    (h2 : l.file ≤ st.files.length) (h3 : (nameOf st l.file).isSome) (heven : l.off.toNat % 2 = 0) :
    (⟨(entryOf 0 base l).addr, (shownNames st.given)[(entryOf 0 base l).fileIdx]?,
      (entryOf 0 base l).line⟩ : Row) = rowOf st base l ↔ Kept st l := by
  obtain ⟨want, hwant⟩ := Option.isSome_iff_exists.1 h3
  have hidx : (entryOf 0 base l).fileIdx = l.file - 1 := by
    show sub32 (add32 l.file 0) 1 % 65536 = _
    unfold sub32 add32
    omega
  have hfile : l.file - 1 + 1 = l.file := by omega
  rw [hidx, rowOf, Row.mk.injEq, Kept, hwant, shownNames, getElem?_map, map_eq_some_iff, map_eq_some_iff]
  simp only [takeWhile_getElem?_eq_some, hfile, decide_eq_true_eq, shownName_eq]
  constructor
  · rintro ⟨-, ⟨name, ⟨hget, hall⟩, hshown⟩, hl⟩
    refine ⟨heven, ?_, hall, name, hget, hshown⟩
    have : l.line.toNat % 65536 = l.line.toNat := hl
    omega
  rintro ⟨-, hl, hall, name, hget, hshown⟩
  exact ⟨rfl, ⟨name, ⟨hget, hall⟩, hshown⟩, Nat.mod_eq_of_lt hl⟩

theorem map_mergeSort_addr {α β : Type} (f : α → β) (key : β → Nat) (ls : List α) :
    (ls.map f).mergeSort (fun a b => lineLe (key a) (key b)) =
      (ls.mergeSort fun a b => lineLe (key (f a)) (key (f b))).map f :=
  Eq.symm (@List.map_mergeSort α β (fun a b => lineLe (key (f a)) (key (f b)))
    (fun a b => lineLe (key a) (key b)) f ls fun _ _ _ _ => rfl)

/-- The sorted tables agree exactly if every location has its row: both are sorted alike, as they have
the same addresses. -/
theorem rows_eq_iff (names : List (List UInt8)) (ls : List Loc) :
    (LineTables.rows ⟨(ls.map fun l => entryOf 0 (addr l.sec).toNat l).mergeSort
        (fun a b => lineLe a.addr b.addr), names⟩ =
      (ls.map fun l => rowOf st (addr l.sec).toNat l).mergeSort fun a b => lineLe a.addr b.addr) ↔
    ∀ l ∈ ls, (⟨(entryOf 0 (addr l.sec).toNat l).addr,
      names[(entryOf 0 (addr l.sec).toNat l).fileIdx]?, (entryOf 0 (addr l.sec).toNat l).line⟩ : Row) =
        rowOf st (addr l.sec).toNat l := by
  rw [LineTables.rows, map_mergeSort_addr _ LineEntry.addr, map_mergeSort_addr _ Row.addr, map_map]
  show map _ _ = map _ (ls.mergeSort fun a b =>
    lineLe (entryOf 0 (addr a.sec).toNat a).addr (entryOf 0 (addr b.sec).toNat b).addr) ↔ _
  rw [map_inj_left]
  simp only [mem_mergeSort]
  rfl

theorem mem_bySection_all : l ∈ bySection st.locs (sectionsOf st.locs) ↔ l ∈ st.locs :=
  mem_bySection.trans ⟨fun h => h.1, fun h => ⟨h, mem_sectionsOf h⟩⟩

theorem dwlineEmit_isSome (hfile : ∀ l ∈ st.locs, l.file < 4294967296) :
    (dwlineEmit addr len st).isSome ↔ ∀ l ∈ st.locs, l.off.toNat % 2 = 0 := by
  by_cases hne : st.locs = []
  · rw [dwlineEmit, if_pos hne, hne]
    simp
  rw [dwlineEmit, if_neg hne, Option.isSome_map, sequences_all, sequencesOf_isSome hfile]
  simp only [mem_bySection_all]

/-- What the debugger shows for a location. -/
def shownRow (addr : Nat → UInt32) (st : LineDirectives) (l : Loc) : Row :=
  ⟨(entryOf 0 (addr l.sec).toNat l).addr,
    (shownNames st.given)[(entryOf 0 (addr l.sec).toNat l).fileIdx]?,
    (entryOf 0 (addr l.sec).toNat l).line⟩

theorem Given.file_lt (hgiven : Given st) (hfiles : st.files.length ≤ 65536) :
    ∀ l ∈ st.locs, l.file < 4294967296 := by
  intro l hl
  have := (hgiven l hl).2.1
  omega

theorem roundTrips_iff_rows (hgiven : Given st) (hfit : Fits addr len st) :
    RoundTrips addr len st ↔ (∀ l ∈ st.locs, l.off.toNat % 2 = 0) ∧
      ∀ l ∈ st.locs, shownRow addr st l = rowOf st (addr l.sec).toNat l := by
  have hfile := hgiven.file_lt hfit.files
  by_cases hne : st.locs = []
  · rw [hne]
    refine ⟨fun _ => by simp, fun _ => ⟨[], ⟨[], []⟩, if_pos hne, ?_, ?_⟩⟩
    · simp [parseDebugLine, parseUnits]
    simp [expectedRows, hne, LineTables.rows, sectionsOf, bySection]
  have hparse : ∀ bytes, dwlineEmit addr len st = some bytes → parseDebugLine bytes =
      some ⟨((bySection st.locs (sectionsOf st.locs)).map fun l =>
        entryOf 0 (addr l.sec).toNat l).mergeSort (fun a b => lineLe a.addr b.addr),
        shownNames st.given⟩ := by
    intro bytes hb
    rw [parseDebugLine, parse_dwlineEmit hfit hfile hb hne]
    rfl
  have hrows := @rows_eq_iff addr st (shownNames st.given) (bySection st.locs (sectionsOf st.locs))
  simp only [mem_bySection_all] at hrows
  constructor
  · rintro ⟨bytes, t, hemit, ht, heq⟩
    rw [hparse bytes hemit] at ht
    rw [← Option.some.inj ht] at heq
    exact ⟨(dwlineEmit_isSome hfile).1 (by rw [hemit]; rfl), hrows.1 heq⟩
  rintro ⟨heven, hall⟩
  obtain ⟨bytes, hemit⟩ := Option.isSome_iff_exists.1 ((dwlineEmit_isSome hfile).2 heven)
  exact ⟨bytes, _, hemit, hparse bytes hemit, hrows.2 hall⟩

/-- **The line table round trip.** What the directives ask for comes back exactly if every location is
kept: the address is even, the line has 16 bits, and the names that were given, listed without gaps,
have the name of the file at its number. -/
theorem roundTrips_iff {ds : List Directive} (hrun : directives ds ⟨[], []⟩ = some st)
    (hfit : Fits addr len st) : RoundTrips addr len st ↔ ∀ l ∈ st.locs, Kept st l := by
  have hgiven : Given st := Given.directives (fun l hl => absurd hl not_mem_nil) hrun
  have hkept : ∀ l ∈ st.locs, l.off.toNat % 2 = 0 →
      (shownRow addr st l = rowOf st (addr l.sec).toNat l ↔ Kept st l) := by
    intro l hl heven
    obtain ⟨h1, h2, h3⟩ := hgiven l hl
    exact row_eq_iff hfit.files h1 h2 h3 heven
  rw [roundTrips_iff_rows hgiven hfit]
  constructor
  · rintro ⟨heven, hall⟩ l hl
    exact (hkept l hl (heven l hl)).1 (hall l hl)
  · intro hall
    exact ⟨fun l hl => (hall l hl).1, fun l hl => (hkept l hl (hall l hl).1).2 (hall l hl)⟩

end Unit

/-- Two files in two sections. -/
def twoFiles : LineDirectives where
  files := [some ⟨[97, 46, 99], by decide⟩, some ⟨[47, 115, 47, 98, 46, 115], by decide⟩]
  locs := [⟨0, 0, 1, 10, 0⟩, ⟨1, 8, 2, 300, 3⟩, ⟨0, 4, 2, 7, 0⟩, ⟨0, 4, 1, 12, 5⟩]

theorem roundTrips_twoFiles : RoundTrips (fun sec => 0x8000 + 0x1000 * UInt32.ofNat sec) (fun _ => 16)
    twoFiles := by
  refine (@roundTrips_iff (fun sec => 0x8000 + 0x1000 * UInt32.ofNat sec) (fun _ => 16) twoFiles
    [.file 1 ⟨[97, 46, 99], by decide⟩, .loc ⟨0, 0, 1, 10, 0⟩,
      .file 2 ⟨[47, 115, 47, 98, 46, 115], by decide⟩, .loc ⟨1, 8, 2, 300, 3⟩, .loc ⟨0, 4, 2, 7, 0⟩,
      .loc ⟨0, 4, 1, 12, 5⟩] rfl ⟨by decide, by decide, by decide, by decide +kernel⟩).2 ?_
  decide

/-- A row that is shown otherwise spoils the table. -/
theorem not_roundTrips {addr len : Nat → UInt32} (ds : List Directive)
    (hrun : directives ds ⟨[], []⟩ = some st) (hfit : Fits addr len st)
    (hrow : ¬ ∀ l ∈ st.locs, shownRow addr st l = rowOf st (addr l.sec).toNat l) :
    ¬ RoundTrips addr len st := by
  intro hround
  have hgiven : Given st := Given.directives (fun l hl => absurd hl not_mem_nil) hrun
  exact hrow ((roundTrips_iff_rows hgiven hfit).1 hround).2

/-- One location in one file. -/
def oneLoc (files : List (Option CStr)) (file : Nat) (line : UInt32) : LineDirectives :=
  ⟨files, [⟨0, 0, file, line, 0⟩]⟩

/-- Three ways to lose a row: a number below was never given, the file is directly under the root, the
line number has more than 16 bits. -/
theorem rows_lost : (directives [.file 2 ⟨[97], by decide⟩, .loc ⟨0, 0, 2, 1, 0⟩] ⟨[], []⟩ =
        some (oneLoc [none, some ⟨[97], by decide⟩] 2 1) ∧
      ¬ RoundTrips (fun _ => 0) (fun _ => 4) (oneLoc [none, some ⟨[97], by decide⟩] 2 1)) ∧
    (directives [.file 1 ⟨[47, 97], by decide⟩, .loc ⟨0, 0, 1, 1, 0⟩] ⟨[], []⟩ =
        some (oneLoc [some ⟨[47, 97], by decide⟩] 1 1) ∧
      ¬ RoundTrips (fun _ => 0) (fun _ => 4) (oneLoc [some ⟨[47, 97], by decide⟩] 1 1)) ∧
    (directives [.file 1 ⟨[97], by decide⟩, .loc ⟨0, 0, 1, 65536, 0⟩] ⟨[], []⟩ =
        some (oneLoc [some ⟨[97], by decide⟩] 1 65536) ∧
      ¬ RoundTrips (fun _ => 0) (fun _ => 4) (oneLoc [some ⟨[97], by decide⟩] 1 65536)) := by
  refine ⟨⟨rfl, not_roundTrips [.file 2 ⟨[97], by decide⟩, .loc ⟨0, 0, 2, 1, 0⟩] rfl ?_ (by decide)⟩,
    ⟨rfl, not_roundTrips [.file 1 ⟨[47, 97], by decide⟩, .loc ⟨0, 0, 1, 1, 0⟩] rfl ?_ (by decide)⟩,
    ⟨rfl, not_roundTrips [.file 1 ⟨[97], by decide⟩, .loc ⟨0, 0, 1, 65536, 0⟩] rfl ?_ (by decide)⟩⟩
  all_goals exact ⟨by decide, by decide, by decide, by decide +kernel⟩

end Embedded.Dbg
