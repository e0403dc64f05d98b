import Embedded.Bootloader.DeviceTree

/-! # The walk over the structure block

Over the tokens of a blob the walk of `fdt_set_bootargs` goes on token by token. It comes to stand at the
`bootargs` of `/chosen`, or at the end, with the place right behind the name of `/chosen`. -/

namespace Embedded.Bootloader

open List

variable {d : Mem} {s name : List UInt8} {w w' : Walk}

/-! ## Strings -/

theorem StrMem.tail {a : Nat} {c : UInt8} (h : StrMem d a (c :: s)) :
    d a = c ∧ c ≠ 0 ∧ StrMem d (a + 1) s := by
  have hc : d a = c := by simpa using (h.byte (i := 0) (by simp)).symm
  refine ⟨hc, fun h0 => h.1 (by simp [h0]), fun hm => h.1 (mem_cons_of_mem _ hm), ?_⟩
  have hr := h.2
  rw [length_cons, Mem.read, range_succ_eq_map, map_cons, map_map, cons_append] at hr
  rw [Mem.read, ← (cons.inj hr).2]
  apply map_congr_left
  intro i _
  show d (a + 1 + i) = d (a + (i + 1))
  rw [show a + 1 + i = a + (i + 1) by omega]

theorem strLen_eq : ∀ {a n : Nat}, StrMem d a s → s.length < n → strLen d n a = s.length := by
  induction s with
  | nil =>
    intro a n h hn
    obtain _ | k := n
    · omega
    have h0 : d a = 0 := h.zero
    rw [strLen, if_pos h0]
    rfl
  | cons c s ih => ?_
  intro a n h hn
  rw [length_cons] at hn ⊢
  obtain _ | k := n
  · omega
  obtain ⟨hc, hne, ht⟩ := h.tail
  rw [strLen, if_neg (by rw [hc]; exact hne), ih ht (by omega)]

theorem strEqAt_eq : ∀ {a : Nat} {s : List UInt8}, StrMem d a s →
    0 ∉ name → strEqAt d a name = decide (s = name) := by
  induction name with
  | nil =>
    intro a s h _
    cases s with
    | nil =>
      have h0 : d a = 0 := h.zero
      simp [strEqAt, h0]
    | cons c s =>
      obtain ⟨hc, hne, -⟩ := h.tail
      simp [strEqAt, hc, hne]
  | cons b name ih => ?_
  intro a s h hn
  rw [mem_cons, not_or] at hn
  cases s with
  | nil =>
    have h0 : d a = 0 := h.zero
    simp [strEqAt, h0]
  | cons c s => ?_
  obtain ⟨hc, hne, ht⟩ := h.tail
  rw [strEqAt, hc]
  by_cases he : c = b
  · rw [if_pos ⟨hne, he⟩, ih ht hn.2]
    simp [he]
  rw [if_neg fun h => he h.2]
  simp [he]

theorem chosenName_nul : 0 ∉ chosenName := by decide

theorem bootargsName_nul : 0 ∉ bootargsName := by decide

theorem align4_eq {n : Nat} (h : n + 3 < 4294967296) : align4 n = alignUp n := by
  rw [align4, add32_of_lt h, alignUp]

/-! ## Steps -/

section Walk

variable {b : Strings} {bound need limit : Nat} {cmdline : CStr}

/-- One walk leads to another, in at most one step for each four bytes. -/
def Leads (b : Strings) (bound need : Nat) (cmdline : CStr) (w w' : Walk) : Prop :=
  ∃ n, w.p + 4 * n ≤ w'.p ∧
    ∀ fuel, walk b.mem bound b.strings need cmdline (n + fuel) w = walk b.mem bound b.strings need cmdline fuel w'

theorem Leads.refl (w : Walk) : Leads b bound need cmdline w w := ⟨0, by omega, fun fuel => by rw [Nat.zero_add]⟩

theorem Leads.trans {w'' : Walk} (h : Leads b bound need cmdline w w')
    (h' : Leads b bound need cmdline w' w'') : Leads b bound need cmdline w w'' := by
  obtain ⟨n, hp, hw⟩ := h
  obtain ⟨n', hp', hw'⟩ := h'
  exact ⟨n + n', by omega, fun fuel => by rw [Nat.add_assoc, hw, hw']⟩

theorem Leads.step (hp : w.p + 4 ≤ w'.p)
    (h : ∀ fuel, walk b.mem bound b.strings need cmdline (fuel + 1) w =
      walk b.mem bound b.strings need cmdline fuel w') : Leads b bound need cmdline w w' :=
  ⟨1, by omega, fun fuel => by rw [Nat.add_comm, h]⟩

variable {p q : Nat}

theorem leads_nops (h : b.Holds p [] q) (hq : q < 4294967296) (w : Walk) (hw : w.p = p) :
    Leads b bound need cmdline w { w with p := q } := by
  generalize hl : ([] : List FdtTok) = l at h
  induction h generalizing w with
  | nil p =>
    subst hw
    exact Leads.refl w
  | @nop p q ts hn hrest ih =>
    have hle := hrest.le
    have hstep : Leads b bound need cmdline w { w with p := p + 4 } := by
      refine Leads.step (Nat.le_of_eq (by rw [hw])) fun fuel => ?_
      rw [walk, hw, hn, add32_of_lt (by omega)]
      rfl
    exact hstep.trans (ih hq { w with p := p + 4 } rfl hl)
  | cons _ _ => simp at hl

/-- The walk behind the start of a node. -/
def Walk.enter (w : Walk) (name : List UInt8) (body : Nat) : Walk :=
  let inChosen := w.depth + 1 = 2 && decide (name = chosenName)
  ⟨body, w.depth + 1, inChosen, w.haveChosen || inChosen, if inChosen then body else w.chosenBody⟩

theorem leads_begin {name : List UInt8} (h : b.tokAt (.begin name) p q)
    (hq : q < 4294967296) (hb : q ≤ bound) (w : Walk) (hw : w.p = p) :
    Leads b bound need cmdline w (w.enter name q) := by
  obtain ⟨h1, h2, rfl⟩ := h
  have hal := le_alignUp (name.length + 1)
  refine Leads.step (by rw [hw]; simp only [Walk.enter]; omega) fun fuel => ?_
  have hbody : add32 (p + 4) (align4 (add32 name.length 1)) = p + 4 + alignUp (name.length + 1) := by
    have e1 : add32 name.length 1 = name.length + 1 := add32_of_lt (by omega)
    have e2 : align4 (name.length + 1) = alignUp (name.length + 1) := align4_eq (by omega)
    rw [e1, e2, add32_of_lt (by omega)]
  rw [walk, hw, h1, add32_of_lt (by omega), strLen_eq h2 (by omega), strEqAt_eq h2 chosenName_nul]
  simp only [hbody]
  rfl

theorem leads_close (h : b.tokAt .close p q) (hq : q < 4294967296) (w : Walk) (hw : w.p = p) :
    Leads b bound need cmdline w { w with p := q, inChosen := false, depth := w.depth - 1 } := by
  obtain ⟨h1, rfl⟩ := h
  refine Leads.step (Nat.le_of_eq (by rw [hw])) fun fuel => ?_
  rw [walk, hw, h1, add32_of_lt (by omega)]
  rfl

theorem leads_prop {value : List UInt8} (h : b.tokAt (.prop name value) p q)
    (hq : q < 4294967296) (w : Walk) (hw : w.p = p) (hname : w.inChosen = true → name ≠ bootargsName) :
    Leads b bound need cmdline w { w with p := q } := by
  obtain ⟨h1, h2, h3, -, rfl⟩ := h
  have hal := le_alignUp value.length
  refine Leads.step (by rw [hw]; simp only; omega) fun fuel => ?_
  have e1 : add32 p 4 = p + 4 := add32_of_lt (by omega)
  have e2 : add32 (p + 4) 8 = p + 12 := add32_of_lt (by omega)
  have e3 : align4 value.length = alignUp value.length := align4_eq (by omega)
  have e4 : add32 (p + 12) (alignUp value.length) = p + 12 + alignUp value.length := add32_of_lt hq
  have hno : (w.inChosen && strEqAt b.mem (b.strings + be32 b.mem (p + 8)) bootargsName) = false := by
    rw [strEqAt_eq h3.1 bootargsName_nul]
    cases hc : w.inChosen with
    | false => rfl
    | true => simpa using hname hc
  rw [walk, hw, h1, e1]
  simp only [show p + 4 + 4 = p + 8 from rfl, h2, hno, e2, e3, e4]
  rfl

/-- A property list is passed if the walk is not looking for one of its names. -/
theorem leads_props {ps : Props} : ∀ {p q : Nat} (_ : b.Holds p ps.flat q) (_ : q < 4294967296) (w : Walk)
    (_ : w.p = p) (_ : w.inChosen = true → bootargsName ∉ ps.map Prod.fst),
    Leads b bound need cmdline w { w with p := q } := by
  induction ps with
  | nil =>
    intro p q h hq w hw _
    exact leads_nops h hq w hw
  | cons kv ps ih => ?_
  intro p q h hq w hw hname
  obtain ⟨m, m', h1, h2, h3⟩ := Strings.Holds.head h
  have hle := h3.le
  have hlt := tokAt_lt h2
  have hne : w.inChosen = true → kv.1 ≠ bootargsName := by
    intro hc he
    exact hname hc (by rw [map_cons, he]; exact mem_cons_self ..)
  have hrest : w.inChosen = true → bootargsName ∉ ps.map Prod.fst := by
    intro hc hm
    exact hname hc (by rw [map_cons]; exact mem_cons_of_mem _ hm)
  exact (leads_nops h1 (by omega) w hw).trans ((leads_prop h2 (by omega) { w with p := m } rfl hne).trans
      (ih h3 hq { w with p := m' } rfl hrest))

/-- A forest below the root that has no `/chosen`, or deeper, is passed. -/
theorem leads_forest {f : Forest} : ∀ {p q : Nat} (_ : b.Holds p f.flat q) (_ : q < 4294967296) (_ : q ≤ bound)
    (w : Walk) (_ : w.p = p) (_ : 1 ≤ w.depth) (_ : w.depth = 1 → chosenName ∉ f.names),
    ∃ c, Leads b bound need cmdline w { w with p := q, inChosen := c } := by
  induction f with
  | nil =>
    intro p q h hq _ w hw _ _
    exact ⟨w.inChosen, leads_nops h hq w hw⟩
  | node name props below next ihb ihn => ?_
  intro p q h hq hb w hw hd hname
  obtain ⟨m, m', h1, h2, h3⟩ := Strings.Holds.head h
  obtain ⟨m2, h4, h5⟩ := h3.split
  obtain ⟨m3, h6, h7⟩ := h5.split
  obtain ⟨m4, m5, h8, h9, h10⟩ := h7.head
  have l2 := tokAt_lt h2
  have l4 := h4.le
  have l6 := h6.le
  have l8 := h8.le
  have l9 := tokAt_lt h9
  have l10 := h10.le
  -- the node is not `/chosen`: it has another name, or is deeper
  have hno : (w.depth + 1 = 2 && decide (name = chosenName)) = false := by
    by_cases h1 : w.depth = 1
    · have : name ≠ chosenName := by
        rintro rfl
        exact hname h1 mem_cons_self
      simp [this]
    simp only [Bool.and_eq_false_iff, decide_eq_false_iff_not]
    left
    omega
  have s1 : Leads b bound need cmdline w { w with p := m } := leads_nops h1 (by omega) w hw
  have s2 : Leads b bound need cmdline { w with p := m }
      ⟨m', w.depth + 1, false, w.haveChosen, w.chosenBody⟩ := by
    have := @leads_begin b bound need cmdline m m' name h2 (by omega) (by omega) { w with p := m } rfl
    simpa only [Walk.enter, hno, Bool.or_false, Bool.false_eq_true, if_false] using this
  have s3 : Leads b bound need cmdline ⟨m', w.depth + 1, false, w.haveChosen, w.chosenBody⟩
      ⟨m2, w.depth + 1, false, w.haveChosen, w.chosenBody⟩ :=
    leads_props h4 (by omega) _ rfl (by simp)
  obtain ⟨c, s4⟩ := ihb h6 (by omega) (by omega) ⟨m2, w.depth + 1, false, w.haveChosen, w.chosenBody⟩ rfl
    (by simp only; omega) (by simp only; omega)
  have s5 : Leads b bound need cmdline ⟨m3, w.depth + 1, c, w.haveChosen, w.chosenBody⟩
      ⟨m4, w.depth + 1, c, w.haveChosen, w.chosenBody⟩ := leads_nops h8 (by omega) _ rfl
  have s6 : Leads b bound need cmdline ⟨m4, w.depth + 1, c, w.haveChosen, w.chosenBody⟩
      ⟨m5, w.depth, false, w.haveChosen, w.chosenBody⟩ := by
    have := @leads_close b bound need cmdline m4 m5 h9 (by omega)
      ⟨m4, w.depth + 1, c, w.haveChosen, w.chosenBody⟩ rfl
    simpa only [Int.add_sub_cancel] using this
  obtain ⟨c', s7⟩ := ihn h10 hq hb ⟨m5, w.depth, false, w.haveChosen, w.chosenBody⟩ rfl hd
    (fun h hm => hname h (mem_cons_of_mem _ hm))
  exact ⟨c', s1.trans (s2.trans (s3.trans (s4.trans (s5.trans (s6.trans s7)))))⟩

/-- From the start the walk comes behind the name of `/chosen`. -/
theorem leads_chosen {name : List UInt8} {props : Props} {pre : Forest} {rest : List FdtTok}
    (h : b.Holds p (.begin name :: (props.flat ++ (pre.flat ++ .begin chosenName :: rest))) q)
    (hq : q < 4294967296) (hb : q ≤ bound) (hpre : chosenName ∉ pre.names) :
    ∃ body, b.Holds p (.begin name :: (props.flat ++ (pre.flat ++ [.begin chosenName]))) body ∧
      b.Holds body rest q ∧ Leads b bound need cmdline ⟨p, 0, false, false, 0⟩ ⟨body, 2, true, true, body⟩ := by
  obtain ⟨m, m', h1, h2, h3⟩ := h.head
  obtain ⟨m2, h4, h5⟩ := h3.split
  obtain ⟨m3, h6, h7⟩ := h5.split
  obtain ⟨m4, body, h8, h9, h10⟩ := h7.head
  have l2 := tokAt_lt h2
  have l4 := h4.le
  have l6 := h6.le
  have l8 := h8.le
  have l9 := tokAt_lt h9
  have l10 := h10.le
  have s1 : Leads b bound need cmdline ⟨p, 0, false, false, 0⟩ ⟨m, 0, false, false, 0⟩ :=
    leads_nops h1 (by omega) _ rfl
  have s2 : Leads b bound need cmdline ⟨m, 0, false, false, 0⟩ ⟨m', 1, false, false, 0⟩ :=
    leads_begin h2 (by omega) (by omega) _ rfl
  have s3 : Leads b bound need cmdline ⟨m', 1, false, false, 0⟩ ⟨m2, 1, false, false, 0⟩ :=
    leads_props h4 (by omega) _ rfl (by simp)
  obtain ⟨c, s4⟩ := @leads_forest b bound need cmdline pre m2 m3 h6 (by omega) (by omega)
    ⟨m2, 1, false, false, 0⟩ rfl (by simp) (fun _ => hpre)
  have s5 : Leads b bound need cmdline ⟨m3, 1, c, false, 0⟩ ⟨m4, 1, c, false, 0⟩ :=
    leads_nops h8 (by omega) _ rfl
  have s6 : Leads b bound need cmdline ⟨m4, 1, c, false, 0⟩ ⟨body, 2, true, true, body⟩ :=
    leads_begin h9 (by omega) (by omega) _ rfl
  refine ⟨body, ?_, h10, s1.trans (s2.trans (s3.trans (s4.trans (s5.trans s6))))⟩
  have hend : b.Holds m3 [.begin chosenName] body := h8.append (.cons h9 (.nil _))
  have hone : b.Holds p [.begin name] m' := h1.append (.cons h2 (.nil _))
  exact hone.append (h4.append (h6.append hend))

/-- Behind `/chosen` the walk comes to the end of the tree. -/
theorem leads_end {below post : Forest}
    (h : b.Holds p (below.flat ++ .close :: (post.flat ++ [.close])) q) (hq : q < 4294967296)
    (hb : q ≤ bound) (hpost : chosenName ∉ post.names) (c : Bool) (body : Nat) :
    ∃ depth, Leads b bound need cmdline ⟨p, 2, c, true, body⟩ ⟨q, depth, false, true, body⟩ := by
  obtain ⟨m, h1, h2⟩ := h.split
  obtain ⟨m2, m3, h3, h4, h5⟩ := h2.head
  obtain ⟨m4, h6, h7⟩ := h5.split
  obtain ⟨m5, m6, h8, h9, h10⟩ := h7.head
  have l3 := h3.le
  have l4 := tokAt_lt h4
  have l6 := h6.le
  have l8 := h8.le
  have l9 := tokAt_lt h9
  have l10 := h10.le
  obtain ⟨c1, s1⟩ := @leads_forest b bound need cmdline below p m h1 (by omega) (by omega)
    ⟨p, 2, c, true, body⟩ rfl (by simp) (by simp)
  have s2 : Leads b bound need cmdline ⟨m, 2, c1, true, body⟩ ⟨m2, 2, c1, true, body⟩ :=
    leads_nops h3 (by omega) _ rfl
  have s3 : Leads b bound need cmdline ⟨m2, 2, c1, true, body⟩ ⟨m3, 1, false, true, body⟩ :=
    leads_close h4 (by omega) _ rfl
  obtain ⟨c2, s4⟩ := @leads_forest b bound need cmdline post m3 m4 h6 (by omega) (by omega)
    ⟨m3, 1, false, true, body⟩ rfl (by simp) (fun _ => hpost)
  have s5 : Leads b bound need cmdline ⟨m4, 1, c2, true, body⟩ ⟨m5, 1, c2, true, body⟩ :=
    leads_nops h8 (by omega) _ rfl
  have s6 : Leads b bound need cmdline ⟨m5, 1, c2, true, body⟩ ⟨m6, 0, false, true, body⟩ :=
    leads_close h9 (by omega) _ rfl
  have s7 : Leads b bound need cmdline ⟨m6, 0, false, true, body⟩ ⟨q, 0, false, true, body⟩ :=
    leads_nops h10 hq _ rfl
  exact ⟨0, s1.trans (s2.trans (s3.trans (s4.trans (s5.trans (s6.trans s7)))))⟩

theorem Leads.walk_eq (h : Leads b bound need cmdline w w') {fuel : Nat} (hf : w'.p < fuel)
    {r : Option (Int × Mem)} (hr : ∀ k, walk b.mem bound b.strings need cmdline (k + 1) w' = r) :
    walk b.mem bound b.strings need cmdline fuel w = r := by
  obtain ⟨n, hn, hw⟩ := h
  obtain ⟨k, rfl⟩ : ∃ k, fuel = n + (k + 1) := ⟨fuel - n - 1, by omega⟩
  rw [hw, hr]

end Walk

/-! ## Where the walk ends -/

section Ends

variable {d : Mem} {rsv : List (List UInt8)} {t : Tree} {ps : Props} {bound : Nat} {cmdline : CStr}

theorem Tree.bootargs_some {old : List UInt8} (h : t.bootargs = some old) :
    ∃ ps, t.children.lookup chosenName = some ps ∧ bootargsName ∈ ps.map Prod.fst := by
  obtain ⟨ps, hc, hl⟩ := Option.bind_eq_some_iff.1 h
  refine ⟨ps, hc, ?_⟩
  by_contra hno
  rw [Props.lookup_none hno] at hl
  simp at hl

variable (h : Describes d rsv t)
include h

theorem Describes.bounds : hget d H_OFF_STRUCT + 4 ≤ hget d H_OFF_STRINGS ∧
    hget d H_OFF_STRINGS + hget d H_SIZE_STRINGS ≤ hget d H_TOTALSIZE ∧ hget d H_TOTALSIZE < 4294967296 := by
  obtain ⟨q, hq, -, he⟩ := h.tokens
  have := hq.le
  have h1 := h.strings_after
  exact ⟨by omega, h.strings_last, be32_lt _ _⟩

theorem Describes.set_eq (hroom : cmdline.bytes.length + 1 < 4294967296) : fdtSetBootargs bound d cmdline =
      walk d bound (hget d H_OFF_STRINGS) (cmdline.bytes.length + 1) cmdline bound
        ⟨hget d H_OFF_STRUCT, 0, false, false, 0⟩ := by
  obtain ⟨h1, h2, h3⟩ := h.bounds
  have hcheck : fdtCheck d = 0 := if_neg (not_not.2 h.magic)
  have hlay : add32 (hget d H_OFF_STRINGS) (hget d H_SIZE_STRINGS) ≤ hget d H_TOTALSIZE := by
    rw [add32_of_lt (by omega)]
    exact h2
  rw [fdtSetBootargs, if_neg (by rw [hcheck]; decide)]
  simp only [add32_of_lt hroom]
  rw [if_neg (not_not.2 ⟨by omega, hlay⟩)]

/-- Without `bootargs` it is inserted behind the name of `/chosen`. -/
theorem Describes.set_insert (hc : t.children.lookup chosenName = some ps)
    (hno : bootargsName ∉ ps.map Prod.fst) (hroom : cmdline.bytes.length + 1 < 4294967296)
    (hb : hget d H_TOTALSIZE ≤ bound) :
    ∃ before after body q, (∀ v, (t.setBootargs v).flat = before ++ .prop bootargsName v :: after) ∧
      (blobStrings d).Holds (hget d H_OFF_STRUCT) before body ∧ (blobStrings d).Holds body after q ∧
        be32 d q = FDT_END ∧ q + 4 = hget d H_OFF_STRUCT + hget d H_SIZE_STRUCT ∧
          fdtSetBootargs bound d cmdline =
            some (0, fdtInsertBootargs d body cmdline (cmdline.bytes.length + 1)) := by
  obtain ⟨q, hq, hend, hsize⟩ := h.tokens
  obtain ⟨h1, h2, h3⟩ := h.bounds
  have h4 := h.strings_after
  obtain ⟨pre, below, post, hflat, hpre, hpost, hnd, hset⟩ := Forest.split h.unique.2 hc
  rw [Tree.flat, hflat, append_assoc, cons_append, append_assoc, append_assoc, cons_append] at hq
  obtain ⟨body, hA, hB, hlead⟩ := @leads_chosen (blobStrings d) bound (cmdline.bytes.length + 1) cmdline
    _ _ _ _ _ _ hq (by omega) (by omega) hpre
  refine ⟨_, _, body, q, fun v => ?_, hA, hB, hend, hsize, ?_⟩
  · rw [Tree.setBootargs, Tree.flat, hset, Props.set, if_neg hno]
    simp [Props.flat]
  obtain ⟨m, hps, hrest⟩ := hB.split
  have hle := hrest.le
  have s1 : Leads (blobStrings d) bound (cmdline.bytes.length + 1) cmdline ⟨body, 2, true, true, body⟩
      ⟨m, 2, true, true, body⟩ := leads_props hps (by omega) _ rfl (fun _ => hno)
  obtain ⟨depth, s2⟩ := @leads_end (blobStrings d) bound (cmdline.bytes.length + 1) cmdline
    _ _ _ _ hrest (by omega) (by omega) hpost true body
  rw [h.set_eq hroom]
  refine (hlead.trans (s1.trans s2)).walk_eq (by simp only; omega) fun k => ?_
  have he : be32 (blobStrings d).mem q = FDT_END := hend
  rw [walk, he]
  rfl

/-- Otherwise it is replaced where it is. -/
theorem Describes.set_replace {old : List UInt8} (hold : t.bootargs = some old)
    (hroom : cmdline.bytes.length + 1 < 4294967296) (hb : hget d H_TOTALSIZE ≤ bound) :
    ∃ before after tokpos hi q, (∀ v, (t.setBootargs v).flat = before ++ .prop bootargsName v :: after) ∧
      (blobStrings d).Holds (hget d H_OFF_STRUCT) before tokpos ∧
      (blobStrings d).tokAt (.prop bootargsName old) tokpos hi ∧ (blobStrings d).Holds hi after q ∧
        be32 d q = FDT_END ∧ q + 4 = hget d H_OFF_STRUCT + hget d H_SIZE_STRUCT ∧
          fdtSetBootargs bound d cmdline = some (0, fdtReplaceBootargs d tokpos old.length (tokpos + 12) cmdline
            (cmdline.bytes.length + 1)) := by
  obtain ⟨ps, hc, hyes⟩ := Tree.bootargs_some hold
  obtain ⟨q, hq, hend, hsize⟩ := h.tokens
  obtain ⟨h1, h2, h3⟩ := h.bounds
  have h4 := h.strings_after
  obtain ⟨pre, below, post, hflat, hpre, hpost, hnd, hset⟩ := Forest.split h.unique.2 hc
  obtain ⟨kvs, old', kvs', hps, hnot, hlook, hsetp⟩ := Props.set_split hnd hyes
  obtain rfl : old' = old := by
    rw [Tree.bootargs, hc] at hold
    exact Option.some.inj (hlook.symm.trans hold)
  rw [Tree.flat, hflat, append_assoc, cons_append, append_assoc, append_assoc, cons_append] at hq
  obtain ⟨body, hA, hB, hlead⟩ := @leads_chosen (blobStrings d) bound (cmdline.bytes.length + 1) cmdline
    _ _ _ _ _ _ hq (by omega) (by omega) hpre
  rw [hps, Props.flat_append, append_assoc] at hB
  obtain ⟨m, hkvs, hrest⟩ := hB.split
  obtain ⟨tokpos, hi, hnops, htok, hafter⟩ := hrest.head
  have hle := hafter.le
  have hlt := tokAt_lt htok
  have hle2 := hnops.le
  have s1 : Leads (blobStrings d) bound (cmdline.bytes.length + 1) cmdline ⟨body, 2, true, true, body⟩
      ⟨m, 2, true, true, body⟩ := leads_props hkvs (by omega) _ rfl (fun _ => hnot)
  have s2 : Leads (blobStrings d) bound (cmdline.bytes.length + 1) cmdline ⟨m, 2, true, true, body⟩
      ⟨tokpos, 2, true, true, body⟩ := leads_nops hnops (by omega) _ rfl
  refine ⟨_, _, tokpos, hi, q, fun v => ?_, hA.append (hkvs.append hnops), htok, hafter, hend, hsize, ?_⟩
  · rw [Tree.setBootargs, Tree.flat, hset, hsetp]
    simp [Props.flat]
  rw [h.set_eq hroom]
  refine (hlead.trans (s1.trans s2)).walk_eq (by simp only; omega) fun k => ?_
  obtain ⟨t1, t2, t3, -, rfl⟩ := htok
  have e1 : add32 tokpos 4 = tokpos + 4 := add32_of_lt (by omega)
  have e2 : add32 (tokpos + 4) 8 = tokpos + 12 := add32_of_lt (by omega)
  have hyes' : strEqAt (blobStrings d).mem ((blobStrings d).strings + be32 (blobStrings d).mem (tokpos + 8))
      bootargsName = true := by
    rw [strEqAt_eq t3.1 bootargsName_nul]
    simp
  rw [walk, t1, e1]
  simp only [show tokpos + 4 + 4 = tokpos + 8 from rfl, t2, hyes', e2]
  rfl

end Ends

end Embedded.Bootloader
