import Embedded.Toolchain.As.Dwline
import Embedded.Dbg.ElfSym

/-! # What the debugger makes of the assembler's line programs

The opcodes that `dwline_emit` writes, run by `parse_debug_line`. A run of bytes does a change of
state when the program goes on with that state behind them, whatever follows; such runs compose. -/

namespace Embedded.Dbg

open Toolchain.As
open Option (bind_some map_eq_some_iff isSome_map)
open List

/-- The header that `dwline_emit` writes, for a unit whose files start at `start`. -/
def asHeader (start : Nat) : LineHeader := ⟨2, -5, 14, 13, start⟩

/-- Running `chunk` takes the state from `s` to `t`, in at most as many opcodes as there are bytes. -/
def Does (start : Nat) (chunk : List UInt8) (s t : LineState) : Prop :=
  ∃ k ≤ chunk.length, ∀ (fuel : Nat) (rest unitEnd : List UInt8), unitEnd.length ≤ rest.length →
    runProgram (asHeader start) unitEnd (fuel + k) (chunk ++ rest) s =
      runProgram (asHeader start) unitEnd fuel rest t

section Does

variable {start : Nat} {s t u : LineState} {base v : Nat} {bytes : List UInt8} {r : SeqState}
  {l : Loc} {locs ls : List Loc} {secs : List Nat}

theorem Does.nil : Does start [] s s := ⟨0, le_rfl, fun _ _ _ _ => rfl⟩

theorem Does.append {as bs : List UInt8} (h1 : Does start as s t) (h2 : Does start bs t u) :
    Does start (as ++ bs) s u := by
  obtain ⟨k, hk, hrun⟩ := h1
  obtain ⟨k', hk', hrun'⟩ := h2
  refine ⟨k' + k, by rw [length_append]; omega, fun fuel rest unitEnd hlen => ?_⟩
  rw [append_assoc, ← Nat.add_assoc, hrun _ _ _ (by rw [length_append]; omega), hrun' _ _ _ hlen]

theorem Does.opcode {op : UInt8} {args : List UInt8}
    (h : ∀ rest, stepOpcode (asHeader start) (op :: (args ++ rest)) s = some (rest, t)) :
    Does start (op :: args) s t := by
  refine ⟨1, by simp, fun fuel rest unitEnd hlen => ?_⟩
  rw [cons_append, runProgram, if_pos (by simp only [length_cons, length_append]; omega), h rest, bind_some]

theorem Does.opt {p : Prop} [Decidable p] {as : List UInt8} (h1 : p → Does start as s t)
    (h2 : ¬ p → s = t) : Does start (if p then as else []) s t := by
  by_cases hp : p
  · rw [if_pos hp]
    exact h1 hp
  rw [if_neg hp, h2 hp]
  exact Does.nil

/-! ## Opcodes -/

theorem does_copy : Does start [1] s (s.addLine (asHeader start)) := Does.opcode fun _ => rfl

theorem does_advancePc (hv : v < 4294967296) :
    Does start (2 :: uleb v) s { s with addr := add32 s.addr (v * 2) } := by
  refine Does.opcode fun rest => ?_
  show (readUleb (uleb v ++ rest)).map _ = _
  rw [readUleb_uleb (by omega), Nat.mod_eq_of_lt hv]
  rfl

theorem does_advanceLine {v : Int} (h1 : -2147483648 ≤ v) (h2 : v < 2147483648) :
    Does start (3 :: sleb v) s { s with line := add32 s.line (ofS v) } := by
  refine Does.opcode fun rest => ?_
  show (readSleb (sleb v ++ rest)).map _ = _
  rw [readSleb_sleb (by omega) (by omega)]
  rfl

theorem does_setFile (hv : v < 4294967296) : Does start (4 :: uleb v) s { s with file := v } := by
  refine Does.opcode fun rest => ?_
  show (readUleb (uleb v ++ rest)).map _ = _
  rw [readUleb_uleb (by omega), Nat.mod_eq_of_lt hv]
  rfl

theorem does_setColumn (hv : v < 2 ^ 64) : Does start (5 :: uleb v) s s := by
  refine Does.opcode fun rest => ?_
  show (readUleb (uleb v ++ rest)).map _ = _
  rw [readUleb_uleb hv]
  rfl

/-- A special opcode advances the address by `units` and the line by `dl`. -/
theorem does_special {units : Nat} {dl : Int} (h1 : -5 ≤ dl) (h2 : dl < 9)
    (hop : 13 + units * 14 + (dl + 5).toNat ≤ 255) :
    Does start [UInt8.ofNat (13 + units * 14 + (dl + 5).toNat)] s
      ({ s with addr := add32 s.addr (units * 2), line := add32 s.line (ofS dl) }.addLine
        (asHeader start)) := by
  refine Does.opcode fun rest => ?_
  have hbyte : (UInt8.ofNat (13 + units * 14 + (dl + 5).toNat)).toNat =
      13 + units * 14 + (dl + 5).toNat := UInt8.toNat_ofNat_lt (by omega)
  have hdiv : (13 + units * 14 + (dl + 5).toNat - 13) / 14 = units := by omega
  have hmod : (-5 : Int) + (((13 + units * 14 + (dl + 5).toNat - 13) % 14 : Nat) : Int) = dl := by omega
  rw [nil_append, stepOpcode, read8, bind_some, if_neg (by simp only [hbyte]; omega),
    if_neg (by simp only [hbyte, asHeader]; omega), stepSpecial]
  simp only [hbyte, asHeader, hdiv, hmod]

theorem read32_emit32 (w : Nat) (rest : List UInt8) :
    read32 (emit32 w ++ rest) = some (w % 4294967296, rest) := by
  simp only [emit32, cons_append, nil_append, read32, UInt8.toNat_ofNat', Option.some.injEq,
    Prod.mk.injEq, and_true]
  omega

theorem does_setAddress (a : UInt32) :
    Does start (0 :: (uleb 5 ++ 2 :: emit32 a.toNat)) s { s with addr := a.toNat } := by
  refine Does.opcode fun rest => ?_
  have hread : readUleb (uleb 5 ++ 2 :: emit32 a.toNat ++ rest) =
      some (5, 2 :: (emit32 a.toNat ++ rest)) := by
    rw [append_assoc, readUleb_uleb (by omega)]
    rfl
  show stepExtended (uleb 5 ++ 2 :: emit32 a.toNat ++ rest) s = _
  have hword := Nat.mod_eq_of_lt (show a.toNat < 4294967296 from a.toNat_lt)
  rw [stepExtended, hread, bind_some]
  simp only [read8, bind_some, read32_emit32, hword, Option.map_some]
  rfl

theorem does_endSequence : Does start (0 :: (uleb 1 ++ [1])) s { s with addr := 0, file := 1, line := 1 } :=
  Does.opcode fun _ => rfl

/-! ## Rows -/

/-- The row of a location in a section at `base`. -/
def entryOf (start base : Nat) (l : Loc) : LineEntry :=
  ⟨add32 base l.off.toNat, l.line.toNat % 65536, sub32 (add32 l.file start) 1 % 65536⟩

theorem add32_sub32 {a c : Nat} (hc : c < 4294967296) : add32 (add32 base c) (sub32 a c) = add32 base a := by
  unfold add32 sub32
  omega

/-- What is left to do after an advance of the line. -/
theorem does_rowEnd {da : Nat} {dl : Int} (heven : da % 2 = 0)
    (hda : da < 4294967296) (h1 : -5 ≤ dl) (h2 : dl < 9)
    (hb : bytes = if 255 < 13 + da / 2 * 14 + (dl + 5).toNat then
        2 :: (uleb (da / 2) ++ [UInt8.ofNat (13 + (dl + 5).toNat)])
      else [UInt8.ofNat (13 + da / 2 * 14 + (dl + 5).toNat)]) :
    Does start bytes s ({ s with addr := add32 s.addr da, line := add32 s.line (ofS dl) }.addLine
      (asHeader start)) := by
  have hunits : da / 2 * 2 = da := by omega
  rw [hb]
  split
  · -- the advance of the address, then a special opcode without one
    have hspecial := @does_special start { s with addr := add32 s.addr (da / 2 * 2) } 0 dl h1 h2 (by omega)
    have hzero : add32 (add32 s.addr (da / 2 * 2)) (0 * 2) = add32 s.addr da := by
      unfold add32
      omega
    rw [Nat.zero_mul, Nat.add_zero, hzero] at hspecial
    exact (does_advancePc (by omega)).append hspecial
  next hop =>
  have hspecial := @does_special start s (da / 2) dl h1 h2 (by omega)
  rw [hunits] at hspecial
  exact hspecial

/-- `row` goes to the address and the line, and adds a row. -/
theorem does_row {addr line caddr cline a' l' : Nat}
    (ha : addr < 4294967296) (hl : line < 4294967296) (hca : caddr < 4294967296)
    (hcl : cline < 4294967296) (hrow : row addr line caddr cline = some (bytes, a', l'))
    (hsa : s.addr = add32 base caddr) (hsl : s.line = cline) :
    a' = addr ∧ l' = line ∧
      Does start bytes s ({ s with addr := add32 base addr, line := line }.addLine (asHeader start)) := by
  have hda : add32 s.addr (sub32 addr caddr) = add32 base addr := by rw [hsa, add32_sub32 hca]
  have hdl : add32 cline (ofS (toS (sub32 line cline))) = line := by
    rw [ofS_toS (by unfold sub32; omega)]
    unfold add32 sub32
    omega
  obtain ⟨hr1, hr2⟩ := toS_range (show sub32 line cline < 4294967296 by unfold sub32; omega)
  have hdalt : sub32 addr caddr < 4294967296 := by unfold sub32; omega
  unfold row at hrow
  simp only at hrow
  split at hrow
  · simp at hrow
  next hodd =>
  have heven : sub32 addr caddr % 2 = 0 := by omega
  -- a line that is too far away is advanced on its own, and nothing is left of the difference
  generalize hd : toS (sub32 line cline) = d at hrow hdl hr1 hr2
  have hpre : Does start (if d < -5 ∨ 9 ≤ d then 3 :: sleb d else []) s
      { s with line := if d < -5 ∨ 9 ≤ d then line else cline } := by
    by_cases hfar : d < -5 ∨ 9 ≤ d
    · rw [if_pos hfar, if_pos hfar]
      have hadv := @does_advanceLine start s d hr1 hr2
      rw [hsl, hdl] at hadv
      exact hadv
    rw [if_neg hfar, if_neg hfar, ← hsl]
    exact Does.nil
  have hline : add32 (if d < -5 ∨ 9 ≤ d then line else cline)
      (ofS (if d < -5 ∨ 9 ≤ d then 0 else d)) = line := by
    split
    · rw [show ofS 0 = 0 by rfl]
      unfold add32
      omega
    exact hdl
  have hrange : -5 ≤ (if d < -5 ∨ 9 ≤ d then 0 else d) ∧ (if d < -5 ∨ 9 ≤ d then 0 else d) < 9 := by
    split
    · decide
    next hnear => omega
  have hcl' : (if d < -5 ∨ 9 ≤ d then line else cline) < 4294967296 := by
    split
    · exact hl
    exact hcl
  generalize (if d < -5 ∨ 9 ≤ d then line else cline) = cl at hrow hpre hline hcl'
  generalize (if d < -5 ∨ 9 ≤ d then 0 else d) = dl at hrow hline hrange
  split at hrow
  next hzero =>
    simp only [Option.some.injEq, Prod.mk.injEq] at hrow
    obtain ⟨rfl, rfl, rfl⟩ := hrow
    have haddr : caddr = addr := by
      have := hzero.1
      unfold sub32 at this
      omega
    have hcl_eq : cl = line := by
      rw [hzero.2, show ofS 0 = 0 by rfl] at hline
      unfold add32 at hline
      omega
    subst haddr hcl_eq
    refine ⟨rfl, rfl, hpre.append ?_⟩
    rw [← hsa]
    exact does_copy
  · have hend := @does_rowEnd start { s with line := cl } _ (sub32 addr caddr) dl heven hdalt
      hrange.1 hrange.2 rfl
    rw [hline, hda] at hend
    split at hrow
    next hop =>
      cases hrow
      rw [if_pos hop] at hend
      exact ⟨rfl, rfl, hpre.append hend⟩
    next hop =>
    cases hrow
    rw [if_neg hop] at hend
    exact ⟨rfl, rfl, hpre.append hend⟩

/-! ## Sequences -/

/-- The registers of both sides agree: the section is at `base`. -/
structure Follows (base : Nat) (r : SeqState) (s : LineState) : Prop where
  caddr_lt : r.caddr < 4294967296
  cline_lt : r.cline < 4294967296
  addr : s.addr = add32 base r.caddr
  line : s.line = r.cline
  file : s.file = r.cfile

theorem unsignedLong_lt (x : UInt32) : unsignedLong x < 2 ^ 64 := by
  have := x.toNat_lt
  unfold unsignedLong
  split <;> omega

theorem does_emitLoc {r' : SeqState}
    (hf : Follows base r s) (hfile : l.file < 4294967296) (h : emitLoc r l = some (bytes, r')) :
    r'.caddr = l.off.toNat ∧ ∃ t, Follows base r' t ∧ t.lines = s.lines ++ [entryOf start base l] ∧
      Does start bytes s t := by
  obtain ⟨⟨b, a', l'⟩, hrow, heq⟩ := map_eq_some_iff.1 h
  cases heq
  have hdoesfile : Does start (if l.file ≠ r.cfile then 4 :: uleb l.file else []) s
      { s with file := l.file } := by
    refine Does.opt (fun _ => does_setFile hfile) fun hsame => ?_
    rw [not_not] at hsame
    rw [hsame, ← hf.file]
  have hdoescol : Does start (if l.col ≠ r.ccol then 5 :: uleb (unsignedLong l.col) else [])
      { s with file := l.file } { s with file := l.file } :=
    Does.opt (fun _ => does_setColumn (unsignedLong_lt _)) fun _ => rfl
  obtain ⟨rfl, rfl, hdoesrow⟩ := @does_row start { s with file := l.file } base _ _ _ _ _ _ _
    l.off.toNat_lt l.line.toNat_lt hf.caddr_lt hf.cline_lt hrow hf.addr hf.line
  exact ⟨rfl, _, ⟨l.off.toNat_lt, l.line.toNat_lt, rfl, rfl, rfl⟩, rfl,
    hdoesfile.append (hdoescol.append hdoesrow)⟩

/-- The locations of a section add their rows, one after the other. -/
theorem does_emitLocs {r' : SeqState} (hf : Follows base r s) (hfile : ∀ l ∈ ls, l.file < 4294967296)
    (h : emitLocs ls r = some (bytes, r')) :
    ∃ t, Follows base r' t ∧ t.lines = s.lines ++ ls.map (entryOf start base) ∧ Does start bytes s t := by
  induction ls generalizing r s bytes with
  | nil =>
    obtain ⟨rfl, rfl⟩ := h
    exact ⟨s, hf, by simp, Does.nil⟩
  | cons l ls ih => ?_
  obtain ⟨⟨b1, r1⟩, h1, h⟩ := Option.bind_eq_some_iff.1 h
  obtain ⟨⟨b2, r2⟩, h2, heq⟩ := map_eq_some_iff.1 h
  cases heq
  obtain ⟨-, t1, hf1, hl1, hd1⟩ := does_emitLoc hf (hfile l mem_cons_self) h1
  obtain ⟨t2, hf2, hl2, hd2⟩ := ih hf1 (forall_mem_cons.1 hfile).2 h2
  refine ⟨t2, hf2, ?_, hd1.append hd2⟩
  rw [hl2, hl1, append_assoc]
  rfl

/-- Between two sequences the registers are at their initial values. -/
def between (lines : List LineEntry) : LineState := ⟨0, 1, 1, lines⟩

theorem does_sequence {addr len : UInt32} {lines : List LineEntry}
    (hfile : ∀ l ∈ ls, l.file < 4294967296) (h : emitSequence addr len ls = some bytes) :
    Does start bytes (between lines) (between (lines ++ ls.map (entryOf start addr.toNat))) := by
  obtain ⟨⟨b, r⟩, hlocs, rfl⟩ := map_eq_some_iff.1 h
  have hcol : Does start (if firstCol ls ≠ 0 then 5 :: uleb (unsignedLong (firstCol ls)) else [])
      (between lines) (between lines) :=
    Does.opt (fun _ => does_setColumn (unsignedLong_lt _)) fun _ => rfl
  have hstart := hcol.append (does_setAddress addr)
  have haddr := addr.toNat_lt
  have hf : Follows addr.toNat ⟨0, 1, 1, firstCol ls⟩ { between lines with addr := addr.toNat } :=
    ⟨by simp, by simp, (Nat.mod_eq_of_lt haddr).symm, rfl, rfl⟩
  obtain ⟨t, -, hlines, hdoes⟩ := does_emitLocs hf hfile hlocs
  -- the rest of the section, then the end of the sequence, which forgets the registers
  obtain ⟨t', hlines', hstop⟩ : ∃ t' : LineState, t'.lines = t.lines ∧ Does start
      (if r.caddr < len.toNat then 2 :: uleb ((len.toNat - r.caddr) / 2) else []) t t' := by
    have := len.toNat_lt
    by_cases hc : r.caddr < len.toNat
    · rw [if_pos hc]
      have hadv := @does_advancePc start t ((len.toNat - r.caddr) / 2) (by omega)
      refine ⟨_, ?_, hadv⟩
      rfl
    rw [if_neg hc]
    exact ⟨t, rfl, Does.nil⟩
  have hend := @does_endSequence start t'
  rw [hlines', hlines] at hend
  exact hstart.append (hdoes.append (hstop.append hend))

/-! ## All sequences -/

/-- The locations section by section, in the order in which the sections appear. -/
def bySection (locs : List Loc) : List Nat → List Loc
  | [] => []
  | sec :: secs => locs.filter (fun l => l.sec = sec) ++ bySection locs secs

/-- The sequences of some sections. -/
def sequencesOf (addr len : Nat → UInt32) (locs : List Loc) : List Nat → Option (List UInt8)
  | [] => some []
  | sec :: secs =>
    (emitSequence (addr sec) (len sec) (locs.filter fun l => l.sec = sec)).bind fun bytes =>
      (sequencesOf addr len locs secs).map fun rest => bytes ++ rest

/-- The sections of the locations, each once. -/
def sectionsOf (locs : List Loc) : List Nat := (locs.map Loc.sec).eraseDups

/-- The loop of `dwline_emit` goes through the sections that it has not seen. -/
theorem sequences_eq (addr len : Nat → UInt32) (locs : List Loc) {fuel : Nat} {seen : List Nat}
    (hfuel : (sectionsOf (locs.filter fun l => decide (l.sec ∉ seen))).length ≤ fuel) :
    sequences addr len locs fuel seen =
      sequencesOf addr len locs (sectionsOf (locs.filter fun l => decide (l.sec ∉ seen))) := by
  induction fuel generalizing seen with
  | zero =>
    rw [eq_nil_of_length_eq_zero (Nat.le_zero.1 hfuel)]
    rfl
  | succ fuel ih => ?_
  have hhead := @List.head?_filter _ (fun l : Loc => decide (l.sec ∉ seen)) locs
  cases hrem : locs.filter fun l => decide (l.sec ∉ seen) with
  | nil =>
    rw [hrem] at hhead
    rw [sequences, ← hhead]
    rfl
  | cons l rest => ?_
  rw [hrem] at hhead hfuel
  have hsecs : sectionsOf (l :: rest) =
      l.sec :: sectionsOf (locs.filter fun l' => decide (l'.sec ∉ l.sec :: seen)) := by
    have hrest : (rest.map Loc.sec).filter (fun b => !b == l.sec) =
        (locs.filter fun l' => decide (l'.sec ∉ l.sec :: seen)).map Loc.sec := by
      have hsplit : (locs.filter fun l' => decide (l'.sec ∉ l.sec :: seen)) =
          (locs.filter fun l' => decide (l'.sec ∉ seen)).filter fun l' => !l'.sec == l.sec := by
        rw [filter_filter]
        refine filter_congr fun l' _ => ?_
        rw [Bool.eq_iff_iff]
        simp [not_or]
      rw [hsplit, hrem, filter_cons_of_neg (by simp), filter_map]
      rfl
    rw [sectionsOf, map_cons, eraseDups_cons, hrest]
    rfl
  rw [hsecs, length_cons] at hfuel
  rw [sequences, ← hhead, head?_cons, hsecs, sequencesOf]
  simp only
  rw [ih (by omega)]

theorem mem_bySection : l ∈ bySection locs secs ↔ l ∈ locs ∧ l.sec ∈ secs := by
  induction secs with
  | nil => simp [bySection]
  | cons sec secs ih =>
    rw [bySection, mem_append, ih, mem_filter, mem_cons, decide_eq_true_eq]
    tauto

theorem mem_sectionsOf (h : l ∈ locs) : l.sec ∈ sectionsOf locs := mem_eraseDups.2 (mem_map_of_mem h)

/-- Every row is added, section by section. -/
theorem does_sequencesOf {addr len : Nat → UInt32}
    {lines : List LineEntry} (hfile : ∀ l ∈ locs, l.file < 4294967296)
    (h : sequencesOf addr len locs secs = some bytes) :
    Does start bytes (between lines) (between (lines ++
      (bySection locs secs).map fun l => entryOf start (addr l.sec).toNat l)) := by
  induction secs generalizing lines bytes with
  | nil =>
    simp only [sequencesOf, Option.some.injEq] at h
    subst h
    rw [bySection, map_nil, append_nil]
    exact Does.nil
  | cons sec secs ih => ?_
  obtain ⟨b1, h1, h⟩ := Option.bind_eq_some_iff.1 h
  obtain ⟨b2, h2, rfl⟩ := map_eq_some_iff.1 h
  have hd1 := @does_sequence start _ _ _ _ lines (fun l hl => hfile l (mem_filter.1 hl).1) h1
  have hmap : (locs.filter fun l => l.sec = sec).map (entryOf start (addr sec).toNat) =
      (locs.filter fun l => l.sec = sec).map fun l => entryOf start (addr l.sec).toNat l := by
    refine map_congr_left fun l hl => ?_
    rw [of_decide_eq_true (mem_filter.1 hl).2]
  rw [bySection, map_append, ← append_assoc, ← hmap]
  exact hd1.append (ih h2)

/-! ## When it is written -/

theorem emitLoc_isSome (heven : r.caddr % 2 = 0)
    (hlt : r.caddr < 4294967296) : (emitLoc r l).isSome ↔ l.off.toNat % 2 = 0 := by
  have hda : sub32 l.off.toNat r.caddr % 2 = l.off.toNat % 2 := by
    unfold sub32
    omega
  rw [emitLoc, isSome_map, row]
  simp only [hda]
  split
  next h => simp [h]
  next h =>
  rw [not_not] at h
  refine ⟨fun _ => h, fun _ => ?_⟩
  -- every other branch writes something
  repeat' split
  all_goals rfl

theorem emitLocs_isSome (hf : Follows base r s)
    (hfile : ∀ l ∈ ls, l.file < 4294967296) (heven : r.caddr % 2 = 0) :
    (emitLocs ls r).isSome ↔ ∀ l ∈ ls, l.off.toNat % 2 = 0 := by
  induction ls generalizing r s with
  | nil => simp [emitLocs]
  | cons l ls ih => ?_
  have hloc := @emitLoc_isSome r l heven hf.caddr_lt
  rw [emitLocs, forall_mem_cons, ← hloc]
  cases h : emitLoc r l with
  | none => simp
  | some x => ?_
  obtain ⟨b, r'⟩ := x
  obtain ⟨hoff, t, hf', -, -⟩ := @does_emitLoc 0 s base b r l r' hf (hfile l mem_cons_self) h
  rw [h] at hloc
  have heven' : r'.caddr % 2 = 0 := by
    rw [hoff]
    exact hloc.1 rfl
  rw [bind_some, isSome_map, ih hf' (forall_mem_cons.1 hfile).2 heven']
  simp

theorem sequencesOf_isSome {addr len : Nat → UInt32} (hfile : ∀ l ∈ locs, l.file < 4294967296) :
    (sequencesOf addr len locs secs).isSome ↔ ∀ l ∈ bySection locs secs, l.off.toNat % 2 = 0 := by
  induction secs with
  | nil => simp [sequencesOf, bySection]
  | cons sec secs ih => ?_
  have hf : Follows 0 ⟨0, 1, 1, firstCol (locs.filter fun l => l.sec = sec)⟩ (between []) :=
    ⟨by simp, by simp, rfl, rfl, rfl⟩
  have hseq : (emitSequence (addr sec) (len sec) (locs.filter fun l => l.sec = sec)).isSome ↔
      ∀ l ∈ locs.filter (fun l => l.sec = sec), l.off.toNat % 2 = 0 := by
    rw [emitSequence, isSome_map, emitLocs_isSome hf (fun l hl => hfile l (mem_filter.1 hl).1) rfl]
  rw [sequencesOf, bySection, forall_mem_append, ← hseq, ← ih]
  cases emitSequence (addr sec) (len sec) (locs.filter fun l => l.sec = sec) with
  | none => simp
  | some b => simp

end Does

end Embedded.Dbg
