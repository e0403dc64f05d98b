import Mathlib.Data.List.Nodup
import Mathlib.Data.List.Perm.Subperm
import Mathlib.Data.Nat.Digits.Defs
import Embedded.Toolchain.Ld.Veneers

/-! # Long branches reach their targets

A veneer is shared by the branches with one key, and its code is made for the branch that asked
first. So a branch out of reach lands where the first branch that a scan found out of reach under
its key (`FirstFar`) should. The table of keys is tied to those branches along the passes (`VInv`);
the stubs lie apart, so that one memory holds them all. -/

namespace Embedded.Toolchain.Ld.Branch

open List Except

variable {t n addr dest w i g : Nat} {layout : List Nat → Lay} {mem : Nat → Nat} {v : Veneer}
  {ws : List (Caller × Nat)} {s s' : VState} {c : Caller}

/-! ## Who asks first -/

/-- A scan finds the branch out of reach. -/
def far (p : Input) (lay : Lay) (c : Caller) : Bool :=
  branchReloc c.rel.type && c.rel.sym != 0 &&
    match branchDest p lay c with
    | .ok dest => !inReach dest (placeOf lay c)
    | .error _ => false

/-- The key of a branch in its stub group. -/
def Caller.key (p : Input) (groups : List (List (Nat × Nat))) (c : Caller) : Option Name :=
  (vgroupOf groups c.obj c.sec).map fun g => targetKey p g c.obj c.rel.sym (addendOf c.rel.word)

/-- The stub groups, those of the first layout. -/
abbrev stubGroups (p : Input) (layout : List Nat → Lay) : List (List (Nat × Nat)) :=
  formGroups p (layout [])

/-- The layout and the table with which the scan of pass `i` begins. -/
inductive Pass (p : Input) (layout : List Nat → Lay) : Nat → Lay → VState → Prop
  | first : Pass p layout 0 (layout []) noVeneers
  | next {i : Nat} {lay : Lay} {s : VState} {n : Nat} {s' : VState} (h : Pass p layout i lay s)
      (hs : veneerScan p lay (stubGroups p layout) true (scanned p) s = .ok (n, s')) (hn : n ≠ 0) :
      Pass p layout (i + 1) (layout (stubSizes p (stubGroups p layout) s')) s'

/-- In the layout a branch with the key `K` is out of reach. -/
def FarIn (p : Input) (layout : List Nat → Lay) (K : Name) (lay : Lay) : Prop :=
  ∃ c ∈ scanned p, far p lay c = true ∧ c.key p (stubGroups p layout) = some K

/-- The first branch with the key `K` that a scan finds out of reach. -/
def FirstFar (p : Input) (layout : List Nat → Lay) (K : Name) (c : Caller) : Prop :=
  ∃ i lay s, Pass p layout i lay s ∧ (∀ j lay' s', j < i → Pass p layout j lay' s' → ¬ FarIn p layout K lay') ∧
    (scanned p).find? (fun c => far p lay c && c.key p (stubGroups p layout) == some K) = some c

/-- The stub sections, of these sizes, are apart and end below 4 GiB. -/
def Lay.StubsApart (lay : Lay) (sizes : List Nat) : Prop :=
  ∀ g < sizes.length, lay.stubVaddr g + sizes.getD g 0 ≤ 4294967296 ∧
    ∀ g' < sizes.length, g ≠ g' → lay.stubVaddr g + sizes.getD g 0 ≤ lay.stubVaddr g' ∨
      lay.stubVaddr g' + sizes.getD g' 0 ≤ lay.stubVaddr g

/-- The numbers are such that `int` and `u32` hold them, and the layout puts stub sections apart. -/
structure Fits (p : Input) (layout : List Nat → Lay) : Prop where
  groups : (stubGroups p layout).length < 2147483648
  few : (scanned p).length * 12 < 4294967296
  apart : ∀ sizes, sizes.length = (stubGroups p layout).length →
    (∀ x ∈ sizes, x ≤ (scanned p).length * 12) → (layout sizes).StubsApart sizes

section

variable {p : Input} {lay : Lay} {groups : List (List (Nat × Nat))}

theorem Pass.unique {lay' : Lay} (h : Pass p layout i lay s) (h' : Pass p layout i lay' s') :
    lay = lay' ∧ s = s' := by
  induction h generalizing lay' s' with
  | first =>
    cases h'
    exact ⟨rfl, rfl⟩
  | next _ hs _ ih =>
    cases h' with
    | next h2 hs2 _ =>
      obtain ⟨rfl, rfl⟩ := ih h2
      rw [hs] at hs2
      cases hs2
      exact ⟨rfl, rfl⟩

theorem FirstFar.spec {K : Name} (h : FirstFar p layout K c) :
    c ∈ scanned p ∧ c.key p (stubGroups p layout) = some K := by
  obtain ⟨i, lay, s, -, -, hfind⟩ := h
  have hc := find?_some hfind
  simp only [Bool.and_eq_true, beq_iff_eq] at hc
  exact ⟨mem_of_find?_eq_some hfind, hc.2⟩

/-- There is only one first. -/
theorem FirstFar.unique {K : Name} {c' : Caller} (h : FirstFar p layout K c) (h' : FirstFar p layout K c') :
    c = c' := by
  obtain ⟨i, lay, s, hpass, hnone, hfind⟩ := h
  obtain ⟨i', lay', s', hpass', hnone', hfind'⟩ := h'
  have hfar : ∀ {lay : Lay} {c : Caller},
      (scanned p).find? (fun c => far p lay c && c.key p (stubGroups p layout) == some K) = some c →
        FarIn p layout K lay := fun {lay c} hf => by
    have hc := find?_some hf
    simp only [Bool.and_eq_true, beq_iff_eq] at hc
    exact ⟨c, mem_of_find?_eq_some hf, hc⟩
  rcases Nat.lt_trichotomy i i' with hlt | rfl | hlt
  · exact absurd (hfar hfind) (hnone' i lay s hlt hpass)
  · obtain ⟨rfl, -⟩ := hpass.unique hpass'
    rw [hfind] at hfind'
    exact Option.some.inj hfind'
  · exact absurd (hfar hfind') (hnone i' lay' s' hlt hpass')

theorem far_branch (h : far p lay c = true) : branchReloc c.rel.type = true := by
  simp only [far, Bool.and_eq_true] at h
  exact h.1.1

theorem far_reach (h : far p lay c = true) (hd : branchDest p lay c = .ok dest) :
    inReach dest (placeOf lay c) = false := by
  simpa [far, hd] using (Bool.and_eq_true_iff.1 h).2

/-! ## Keys -/

theorem decimal_digit {b : UInt8} (h : b ∈ decimal n) : b ≠ 58 := by
  obtain ⟨d, hd, rfl⟩ := mem_map.1 h
  have hdig := Nat.isDigit_of_mem_toDigits (by decide) (by decide) hd
  simp only [Char.isDigit, Bool.and_eq_true, decide_eq_true_eq, ge_iff_le, UInt32.le_iff_toNat_le] at hdig
  intro heq
  have := congrArg UInt8.toNat heq
  have hval : d.toNat = d.val.toNat := rfl
  simp at hdig this
  omega

theorem decimal_inj {m : Nat} (h : decimal n = decimal m) : n = m := by
  have hback : ∀ n, (decimal n).map (fun b => Char.ofNat b.toNat) = Nat.toDigits 10 n := fun n => by
    unfold decimal
    rw [map_map]
    refine (map_congr_left fun d hd => ?_).trans (map_id _)
    have hdig := Nat.isDigit_of_mem_toDigits (by decide) (by decide) hd
    simp only [Char.isDigit, Bool.and_eq_true, decide_eq_true_eq, ge_iff_le, UInt32.le_iff_toNat_le] at hdig
    have hval : d.toNat = d.val.toNat := rfl
    have hlt : d.toNat < 256 := by simp at hdig; omega
    simp [Nat.mod_eq_of_lt hlt]
  rw [← Nat.ofDigitChars_toDigits (b := 10) (n := n) (by decide) (by decide), ← hback, h, hback,
    Nat.ofDigitChars_toDigits (by decide) (by decide)]

/-- The group can be read off a key, cut or not. -/
theorem targetKey_takeWhile (hg : g < 2147483648) (o i : Nat) (a : Int) :
    (targetKey p g o i a).takeWhile (fun b => b != 58) = decimal g := by
  obtain ⟨rest, hrest⟩ : ∃ rest, fullKey p g o i a = decimal g ++ 58 :: rest := by
    simp only [fullKey]
    split
    · split
      · exact ⟨_, by rw [append_assoc, cons_append]⟩
      · exact ⟨_, by rw [append_assoc, append_assoc, cons_append]⟩
    · exact ⟨_, by rw [append_assoc, append_assoc, cons_append]⟩
  have hlen : (decimal g).length ≤ 10 := by
    rw [decimal, length_map]
    exact Nat.toDigits_length 10 g 10 (by decide) (by omega)
  rw [targetKey, hrest, take_append, take_of_length_le (by omega),
    show 599 - (decimal g).length = (598 - (decimal g).length) + 1 by omega, take_succ_cons,
    takeWhile_append_of_pos fun b hb => by simpa using decimal_digit hb]
  simp

/-- Branches with one key are in one group. -/
theorem Caller.key_group {c' : Caller} {K : Name} {g' : Nat} (hlen : groups.length < 2147483648)
    (h : c.key p groups = some K) (h' : c'.key p groups = some K) (hg : vgroupOf groups c.obj c.sec = some g)
    (hg' : vgroupOf groups c'.obj c'.sec = some g') : g = g' := by
  have hlt := (findIdx?_eq_some_iff_getElem.1 hg).1
  have hlt' := (findIdx?_eq_some_iff_getElem.1 hg').1
  rw [Caller.key, hg, Option.map_some] at h
  rw [Caller.key, hg', Option.map_some] at h'
  refine decimal_inj ?_
  rw [← targetKey_takeWhile (by omega) c.obj c.rel.sym, Option.some.inj h, ← Option.some.inj h',
    targetKey_takeWhile (by omega)]

/-! ## The scan -/

/-- The veneer was made for the branch `c`. -/
structure MadeFor (groups : List (List (Nat × Nat))) (v : Veneer) (c : Caller) : Prop where
  group : vgroupOf groups c.obj c.sec = some v.g
  obj : v.obj = c.obj
  sym : v.sym = c.rel.sym
  a : v.a = addendOf c.rel.word
  type : v.type = c.rel.type

/-- The table when pass `i` has looked at the branches `done`: a key leads to the veneer of the first
branch out of reach under it, and the veneers of a group follow each other. -/
structure VInv (p : Input) (layout : List Nat → Lay) (i : Nat) (lay : Lay) (done : List Caller) (s : VState) :
    Prop where
  made : ∀ K m, s.map.lookup K = some m →
    ∃ v c, s.ven[m]? = some v ∧ MadeFor (stubGroups p layout) v c ∧ FirstFar p layout K c
  fresh : ∀ K, s.map.lookup K = none →
    (∀ j lay' s', j < i → Pass p layout j lay' s' → ¬ FarIn p layout K lay') ∧
      ∀ c ∈ done, far p lay c = true → c.key p (stubGroups p layout) ≠ some K
  keys : (s.map.map Prod.fst).Nodup ∧ s.map.length = s.ven.length ∧
    ∀ x ∈ s.map, some x.1 ∈ (scanned p).map (Caller.key p (stubGroups p layout))
  count : ∀ g, s.count g ≤ s.ven.length
  group : ∀ v ∈ s.ven, v.g < (stubGroups p layout).length
  off : ∀ v ∈ s.ven, v.off + veneerSize p ≤ s.count v.g * veneerSize p
  apart : s.ven.Pairwise fun v v' => v.g = v'.g → v.off + veneerSize p ≤ v'.off

theorem veneerSize_bounds (p : Input) : 0 < veneerSize p ∧ veneerSize p ≤ 12 := by
  unfold veneerSize
  split <;> omega

theorem scanOne_cases (h : scanOne p lay groups true c s = .ok (n, s')) :
    (n = 0 ∧ s' = s ∧ (far p lay c = true → ∃ K m, c.key p groups = some K ∧ s.map.lookup K = some m)) ∨
    ∃ g K, n = 1 ∧ far p lay c = true ∧ vgroupOf groups c.obj c.sec = some g ∧ c.key p groups = some K ∧
      s.map.lookup K = none ∧ s' = addVeneer p s g K c := by
  unfold scanOne at h
  split at h
  next hskip =>
    cases h
    refine .inl ⟨rfl, rfl, fun hfar => ?_⟩
    simp only [far, Bool.and_eq_true, bne_iff_ne] at hfar
    simp [hfar.1.1, hfar.1.2] at hskip
  next hbranch =>
  split at h
  · cases h
  rename_i dest hd
  split at h
  next hr =>
    cases h
    refine .inl ⟨rfl, rfl, fun hfar => ?_⟩
    simp [far, hd, hr] at hfar
  next hr =>
  have hfar : far p lay c = true := by simpa [far, hd, hr] using hbranch
  split at h
  · cases h
  cases hg : vgroupOf groups c.obj c.sec with
  | none => simp only [hg] at h; cases h
  | some g => ?_
  simp only [hg, Bool.not_true, Bool.false_eq_true, if_false] at h
  have hkey : c.key p groups = some (targetKey p g c.obj c.rel.sym (addendOf c.rel.word)) := by
    rw [Caller.key, hg, Option.map_some]
  split at h
  next m hl =>
    cases h
    exact .inl ⟨rfl, rfl, fun _ => ⟨_, m, hkey, hl⟩⟩
  next hl =>
    cases h
    exact .inr ⟨g, _, rfl, hfar, rfl, hkey, hl, rfl⟩

namespace VInv

variable {done rest : List Caller}

/-- Each key is that of another branch. -/
theorem keys_length {m : List (Name × Nat)} (hnodup : (m.map Prod.fst).Nodup)
    (hkeys : ∀ x ∈ m, some x.1 ∈ (scanned p).map (Caller.key p groups)) : m.length ≤ (scanned p).length := by
  have hsub : ((m.map Prod.fst).map some).Subperm ((scanned p).map (Caller.key p groups)) := by
    refine Nodup.subperm (hnodup.map fun _ _ => Option.some.inj) fun K hK => ?_
    rw [map_map] at hK
    obtain ⟨x, hx, rfl⟩ := mem_map.1 hK
    exact hkeys x hx
  simpa only [length_map] using hsub.length_le

/-- A branch that needs nothing. -/
theorem skip (inv : VInv p layout i lay done s)
    (h : far p lay c = true → ∃ K m, c.key p (stubGroups p layout) = some K ∧ s.map.lookup K = some m) :
    VInv p layout i lay (done ++ [c]) s := by
  refine { inv with fresh := fun K hK => ⟨(inv.fresh K hK).1, fun c' hc' hfar hkey => ?_⟩ }
  rcases mem_append.1 hc' with hc' | hc'
  · exact (inv.fresh K hK).2 c' hc' hfar hkey
  · rw [mem_singleton.1 hc'] at hfar hkey
    obtain ⟨K', m, hk, hl⟩ := h hfar
    rw [hkey] at hk
    cases hk
    rw [hK] at hl
    cases hl

/-- The first branch out of reach under its key gets a veneer, behind those of its group. -/
theorem addVeneer (fits : Fits p layout) (inv : VInv p layout i lay done s) {s0 : VState}
    (hpass : Pass p layout i lay s0) (hcs : scanned p = done ++ c :: rest) {K : Name} (hfar : far p lay c = true)
    (hg : vgroupOf (stubGroups p layout) c.obj c.sec = some g)
    (hkey : c.key p (stubGroups p layout) = some K) (hl : s.map.lookup K = none) :
    VInv p layout i lay (done ++ [c]) (addVeneer p s g K c) := by
  obtain ⟨hnodup, hlen, hkeys⟩ := inv.keys
  have hmem : c ∈ scanned p := by simp [hcs]
  have hnew : K ∉ s.map.map Prod.fst := by
    intro hK
    obtain ⟨x, hx, rfl⟩ := mem_map.1 hK
    simpa using lookup_eq_none_iff.1 hl x hx
  have hfirst : FirstFar p layout K c := by
    refine ⟨i, lay, s0, hpass, (inv.fresh K hl).1, ?_⟩
    rw [hcs, find?_append, find?_eq_none.2 fun c' hc' => ?_, Option.none_or, find?_cons_of_pos]
    · simp [hfar, hkey]
    · simpa using (inv.fresh K hl).2 c' hc'
  have hkeys' : ∀ x ∈ s.map ++ [(K, s.ven.length)],
      some x.1 ∈ (scanned p).map (Caller.key p (stubGroups p layout)) := fun x hx => by
    rcases mem_append.1 hx with hx | hx
    · exact hkeys x hx
    · rw [mem_singleton.1 hx, ← hkey]
      exact mem_map_of_mem hmem
  have hnodup' : ((s.map ++ [(K, s.ven.length)]).map Prod.fst).Nodup := by
    rw [map_append]
    exact nodup_append_comm.1 (nodup_cons.2 ⟨hnew, hnodup⟩ : ([K] ++ _).Nodup)
  have hlen' := keys_length hnodup' hkeys'
  rw [length_append, hlen, length_singleton] at hlen'
  have hcount := inv.count g
  obtain ⟨hpos, hsize⟩ := veneerSize_bounds p
  have hoff : s.count g * veneerSize p % 4294967296 = s.count g * veneerSize p :=
    Nat.mod_eq_of_lt ((Nat.mul_le_mul (hcount.trans (Nat.le_of_succ_le hlen')) hsize).trans_lt fits.few)
  refine ⟨fun K' m h => ?_, fun K' h => ?_, ⟨hnodup', ?_, hkeys'⟩, fun g' => ?_, fun v hv => ?_, fun v hv => ?_, ?_⟩
  · rw [Branch.addVeneer, lookup_append, Option.or_eq_some_iff] at h
    rcases h with h | ⟨-, h⟩
    · obtain ⟨v, c', hv, hmade, hff⟩ := inv.made K' m h
      refine ⟨v, c', ?_, hmade, hff⟩
      show (s.ven ++ _)[m]? = some v
      rw [getElem?_append_left (List.getElem?_eq_some_iff.1 hv).1]
      exact hv
    · rw [lookup_cons] at h
      split at h
      next hk =>
        cases h
        rw [eq_of_beq hk]
        exact ⟨_, c, getElem?_concat_length, ⟨hg, rfl, rfl, rfl, rfl⟩, hfirst⟩
      · simp at h
  · rw [Branch.addVeneer, lookup_append, Option.or_eq_none_iff] at h
    refine ⟨(inv.fresh K' h.1).1, fun c' hc' hf hk => ?_⟩
    rcases mem_append.1 hc' with hc' | hc'
    · exact (inv.fresh K' h.1).2 c' hc' hf hk
    · rw [mem_singleton.1 hc', hkey] at hk
      cases hk
      simp at h
  · simp [Branch.addVeneer, hlen]
  · have := inv.count g'
    simp only [Branch.addVeneer, length_append, length_singleton, Function.update_apply]
    split <;> omega
  · rcases mem_append.1 hv with hv | hv
    · exact inv.group v hv
    · rw [mem_singleton.1 hv]
      exact (findIdx?_eq_some_iff_getElem.1 hg).1
  · rcases mem_append.1 hv with hv | hv
    · refine (inv.off v hv).trans (Nat.mul_le_mul_right _ ?_)
      simp only [Branch.addVeneer, Function.update_apply]
      split <;> simp_all
    · rw [mem_singleton.1 hv]
      simp [Branch.addVeneer, hoff, Nat.add_mul]
  · refine pairwise_append.2 ⟨inv.apart, pairwise_singleton .., fun v hv v' hv' heq => ?_⟩
    rw [mem_singleton.1 hv'] at heq ⊢
    have := inv.off v hv
    rw [heq] at this
    simpa [hoff] using this

/-- A pass. -/
theorem scan (fits : Fits p layout) {s0 : VState} (hpass : Pass p layout i lay s0) {cs : List Caller}
    (h : veneerScan p lay (stubGroups p layout) true cs s = .ok (n, s')) (hcs : scanned p = done ++ cs)
    (inv : VInv p layout i lay done s) : VInv p layout i lay (scanned p) s' ∧ (n = 0 → s' = s) := by
  induction cs generalizing s n done with
  | nil =>
    cases h
    rw [hcs, append_nil]
    exact ⟨inv, fun _ => rfl⟩
  | cons c rest ih => ?_
  rw [veneerScan] at h
  split at h
  · cases h
  rename_i n1 s1 h1
  split at h
  · cases h
  rename_i n2 s2 h2
  cases h
  have hrest : scanned p = (done ++ [c]) ++ rest := by simp [hcs]
  rcases scanOne_cases h1 with ⟨rfl, rfl, hset⟩ | ⟨g, K, rfl, hfar, hg, hkey, hl, rfl⟩
  · obtain ⟨inv', hzero⟩ := ih h2 hrest (inv.skip hset)
    exact ⟨inv', fun hn => hzero (by omega)⟩
  · obtain ⟨inv', -⟩ := ih h2 hrest (inv.addVeneer fits hpass hcs hfar hg hkey hl)
    exact ⟨inv', fun hn => by omega⟩

theorem first : VInv p layout 0 (layout []) [] noVeneers where
  made K m h := by simp [noVeneers] at h
  fresh K _ := ⟨fun j _ _ hj => absurd hj (Nat.not_lt_zero j), by simp⟩
  keys := ⟨by simp [noVeneers], rfl, by simp [noVeneers]⟩
  count _ := Nat.le_refl 0
  group := by simp [noVeneers]
  off := by simp [noVeneers]
  apart := Pairwise.nil

theorem next (inv : VInv p layout i lay (scanned p) s') (hpass : Pass p layout i lay s) (lay' : Lay) :
    VInv p layout (i + 1) lay' [] s' := by
  refine { inv with fresh := fun K hK => ⟨fun j lay2 s2 hj hp => ?_, by simp⟩ }
  rcases Nat.lt_succ_iff_lt_or_eq.1 hj with hj | rfl
  · exact (inv.fresh K hK).1 j lay2 s2 hj hp
  · obtain ⟨rfl, -⟩ := hpass.unique hp
    rintro ⟨c, hc, hfar, hkey⟩
    exact (inv.fresh K hK).2 c hc hfar hkey

end VInv

/-- The passes to their end. -/
theorem settle_spec (fits : Fits p layout) {left : Nat} {lay' : Lay} (hpass : Pass p layout i lay s)
    (h : settle p layout (stubGroups p layout) left lay s = .ok (lay', s')) (inv : VInv p layout i lay [] s)
    (hlay : s = noVeneers ∨ lay = layout (stubSizes p (stubGroups p layout) s)) :
    (∃ i, VInv p layout i lay' (scanned p) s') ∧
      (s' = noVeneers ∨ lay' = layout (stubSizes p (stubGroups p layout) s')) := by
  induction left using Nat.strongRecOn generalizing lay s i with
  | _ left ih => ?_
  unfold settle at h
  split at h
  · cases h
  rename_i n s1 h1
  obtain ⟨inv', hzero⟩ := inv.scan fits hpass h1 rfl
  split at h
  next hn =>
    cases h
    obtain rfl := hzero hn
    exact ⟨⟨i, inv'⟩, hlay⟩
  next hn =>
    cases left with
    | zero => cases h
    | succ left => exact ih left (Nat.lt_succ_self _) (hpass.next h1 hn) h (inv'.next hpass _) (.inr rfl)

/-- What `veneers` leaves: no veneers at all, or a table and the layout that has room for it. -/
theorem veneers_spec (fits : Fits p layout) (h : veneers p layout = .ok (groups, lay, s)) :
    s = noVeneers ∨ groups = stubGroups p layout ∧ (∃ i, VInv p layout i lay (scanned p) s) ∧
      lay = layout (stubSizes p groups s) := by
  unfold veneers at h
  split at h
  · cases h
  split at h
  · cases h
    exact .inl rfl
  simp only at h
  split at h
  · cases h
  rename_i lay2 s2 h2
  cases h
  obtain ⟨hinv, rfl | hlay⟩ := settle_spec fits .first h2 .first (.inl rfl)
  · exact .inl rfl
  · exact .inr ⟨rfl, hinv, hlay⟩

/-! ## Stubs -/

theorem HoldsCode.short (h : HoldsCode mem addr [0xe51ff004, dest]) (ip : Nat) :
    stubRun mem 1 (addr, ip) = some (dest, ip) := by
  obtain ⟨h0, h1, -⟩ := h
  have hsub : sub32 (add32 addr 8) 4 = add32 addr 4 := by
    unfold sub32 add32
    omega
  have hstep : stubStep mem (addr, ip) = some (dest, ip) := by
    have hload : ldrLiteral mem addr 0xe51ff004 = dest := by
      show mem (sub32 (add32 addr 8) 4) = dest
      rw [hsub, h1]
    simp only [stubStep, h0, hload]
    rfl
  simp only [stubRun, hstep, Option.bind_some]

theorem HoldsCode.long
    (h : HoldsCode mem addr [0xe59fc000, 0xe08ff00c, sub32 (sub32 dest addr) 12]) (ip : Nat)
    (hlt : addr < 4294967296) (hd : dest < 4294967296) :
    ∃ ip', stubRun mem 2 (addr, ip) = some (dest, ip') := by
  obtain ⟨h0, h1, h2, -⟩ := h
  have haddr : add32 (add32 addr 4) 4 = add32 (add32 addr 8) 0 := by
    unfold add32
    omega
  have hload : ldrLiteral mem addr 0xe59fc000 = sub32 (sub32 dest addr) 12 := by
    show mem (add32 (add32 addr 8) 0) = _
    rw [← haddr, h2]
  have hstep : stubStep mem (addr, ip) = some (add32 addr 4, sub32 (sub32 dest addr) 12) := by
    simp only [stubStep, h0, hload]
    rfl
  have hdest : add32 (add32 (add32 addr 4) 8) (sub32 (sub32 dest addr) 12) = dest := by
    unfold sub32 add32
    omega
  have hstep' : stubStep mem (add32 addr 4, sub32 (sub32 dest addr) 12) =
      some (dest, sub32 (sub32 dest addr) 12) := by
    simp only [stubStep, h1, hdest]
    rfl
  refine ⟨sub32 (sub32 dest addr) 12, ?_⟩
  simp only [stubRun, hstep, hstep', Option.bind_some]

theorem stubsOf_mem {vs : List Veneer} {stubs : List (Nat × List Nat)}
    (h : stubsOf p lay vs = .ok stubs) (hv : v ∈ vs) :
    ∃ code, stubCode p lay v = .ok code ∧ (venAddr lay v, code) ∈ stubs := by
  induction vs generalizing stubs with
  | nil => cases hv
  | cons x rest ih => ?_
  rw [stubsOf] at h
  split at h
  · cases h
  rename_i code h1
  cases h2 : stubsOf p lay rest with
  | error e => simp only [h2] at h; cases h
  | ok stubs' => ?_
  simp only [h2] at h
  cases h
  rcases mem_cons.1 hv with rfl | hv
  · exact ⟨code, h1, mem_cons_self⟩
  obtain ⟨code', hc, hm⟩ := ih h2 hv
  exact ⟨code', hc, mem_cons_of_mem _ hm⟩

theorem stubsOf_of_mem {vs : List Veneer} {stubs : List (Nat × List Nat)} {st : Nat × List Nat}
    (h : stubsOf p lay vs = .ok stubs) (hst : st ∈ stubs) :
    ∃ v ∈ vs, stubCode p lay v = .ok st.2 ∧ st.1 = venAddr lay v := by
  induction vs generalizing stubs with
  | nil =>
    cases h
    cases hst
  | cons x rest ih => ?_
  rw [stubsOf] at h
  split at h
  · cases h
  rename_i code h1
  split at h
  · cases h
  rename_i stubs' h2
  cases h
  rcases mem_cons.1 hst with rfl | hst
  · exact ⟨x, mem_cons_self, h1, rfl⟩
  · obtain ⟨v, hv, hrest⟩ := ih h2 hst
    exact ⟨v, mem_cons_of_mem _ hv, hrest⟩

theorem stubCode_length {code : List Nat} (h : stubCode p lay v = .ok code) :
    code.length * 4 = veneerSize p := by
  unfold stubCode at h
  split at h
  · cases h
  simp only at h
  split at h
  next h12 =>
    cases h
    exact h12.symm
  next h12 =>
    cases h
    unfold veneerSize at h12 ⊢
    split at h12 <;> simp_all

theorem stubCode_runs {code : List Nat} (h : stubCode p lay v = .ok code) :
    ∃ s, target p lay v.obj v.sym v.type = .ok s ∧ ∀ mem, HoldsCode mem (venAddr lay v) code → ∀ ip,
        ∃ ip', stubRun mem (code.length - 1) (venAddr lay v, ip) = some (destOf s v.a, ip') := by
  have hlt : venAddr lay v < 4294967296 := Nat.mod_lt _ (by decide)
  unfold stubCode at h
  cases ht : target p lay v.obj v.sym v.type with
  | error e => simp only [ht] at h; cases h
  | ok s => ?_
  have hd : destOf s v.a < 4294967296 := Nat.mod_lt _ (by decide)
  simp only [ht] at h
  refine ⟨s, rfl, fun mem hmem ip => ?_⟩
  split at h
  · cases h
    exact hmem.long ip hlt hd
  · cases h
    exact ⟨ip, hmem.short ip⟩

theorem mem_inGroups : v ∈ inGroups groups s ↔ v ∈ s.ven ∧ v.g < groups.length := by
  simp only [inGroups, mem_flatMap, mem_range, mem_filter, beq_iff_eq]
  exact ⟨fun ⟨g, hg, hv, he⟩ => ⟨hv, he ▸ hg⟩, fun ⟨hv, hg⟩ => ⟨v.g, hg, hv, rfl⟩⟩

/-- Words in memory, by their numbers. -/
theorem holdsCode_of {code : List Nat} (h : addr + code.length * 4 ≤ 4294967296)
    (hmem : ∀ j w, code[j]? = some w → mem (addr + j * 4) = w) : HoldsCode mem addr code := by
  induction code generalizing addr with
  | nil => trivial
  | cons x rest ih => ?_
  refine ⟨by simpa using hmem 0 x rfl, ?_⟩
  rw [length_cons] at h
  rcases Nat.eq_zero_or_pos rest.length with h0 | hpos
  · rw [length_eq_zero_iff.1 h0]
    trivial
  · rw [show add32 addr 4 = addr + 4 by unfold add32; omega]
    refine ih (by omega) fun j w hj => ?_
    rw [← hmem (j + 1) w (by simpa using hj)]
    congr 1
    omega

/-- The veneers lie apart in the layout. -/
theorem VInv.venAddr_apart (fits : Fits p layout) {done : List Caller} (inv : VInv p layout i lay done s)
    (hlay : lay = layout (stubSizes p (stubGroups p layout) s)) (hv : v ∈ s.ven) :
    venAddr lay v = lay.stubVaddr v.g + v.off ∧ venAddr lay v + veneerSize p ≤ 4294967296 ∧
      ∀ v' ∈ s.ven, ∀ x, venAddr lay v ≤ x → x < venAddr lay v + veneerSize p →
        venAddr lay v' ≤ x → x < venAddr lay v' + veneerSize p → v' = v := by
  obtain ⟨hpos, hsize⟩ := veneerSize_bounds p
  have hbound : ∀ g, s.count g * veneerSize p ≤ (scanned p).length * 12 := fun g =>
    Nat.mul_le_mul ((inv.count g).trans (inv.keys.2.1 ▸ keys_length inv.keys.1 inv.keys.2.2)) hsize
  have hfew := fits.few
  have hsizes : ∀ g < (stubGroups p layout).length,
      (stubSizes p (stubGroups p layout) s).getD g 0 = s.count g * veneerSize p := fun g hg => by
    rw [getD_eq_getElem?_getD, stubSizes, getElem?_map, getElem?_range hg]
    exact Nat.mod_eq_of_lt ((hbound g).trans_lt hfew)
  have hapart : (layout (stubSizes p (stubGroups p layout) s)).StubsApart _ := fits.apart _ (by simp [stubSizes])
    fun x hx => by
      obtain ⟨g, -, rfl⟩ := mem_map.1 hx
      exact (Nat.mod_le _ _).trans (hbound g)
  rw [← hlay] at hapart
  unfold Lay.StubsApart at hapart
  rw [show (stubSizes p (stubGroups p layout) s).length = (stubGroups p layout).length by simp [stubSizes]] at hapart
  have haddr : ∀ v ∈ s.ven, venAddr lay v = lay.stubVaddr v.g + v.off ∧
      venAddr lay v + veneerSize p ≤ 4294967296 := fun v hv => by
    have h1 := (hapart v.g (inv.group v hv)).1
    rw [hsizes _ (inv.group v hv)] at h1
    have h2 := inv.off v hv
    have heq : venAddr lay v = lay.stubVaddr v.g + v.off := Nat.mod_eq_of_lt (by omega)
    exact ⟨heq, by omega⟩
  refine ⟨(haddr v hv).1, (haddr v hv).2, fun v' hv' x h1 h2 h3 h4 => ?_⟩
  rw [(haddr v hv).1] at h1 h2
  rw [(haddr v' hv').1] at h3 h4
  have ho := inv.off v hv
  have ho' := inv.off v' hv'
  by_cases hg : v.g = v'.g
  · by_contra hne
    obtain ⟨a, ha, rfl⟩ := getElem_of_mem hv
    obtain ⟨b, hb, rfl⟩ := getElem_of_mem hv'
    have hab := pairwise_iff_getElem.1 inv.apart
    rcases Nat.lt_trichotomy a b with hlt | rfl | hlt
    · have := hab a b ha hb hlt hg
      rw [hg] at h1 h2
      omega
    · exact hne rfl
    · have := hab b a hb ha hlt hg.symm
      rw [hg] at h1 h2
      omega
  · have := (hapart v.g (inv.group v hv)).2 v'.g (inv.group v' hv') hg
    rw [hsizes _ (inv.group v hv), hsizes _ (inv.group v' hv')] at this
    omega

/-- The memory with the stubs: an address lies in one veneer at most. -/
def stubMem (p : Input) (lay : Lay) (ven : List Veneer) (x : Nat) : Nat :=
  ((ven.find? fun v => decide (venAddr lay v ≤ x ∧ x < venAddr lay v + veneerSize p)).map fun v =>
    ((stubCode p lay v).toOption.getD []).getD ((x - venAddr lay v) / 4) 0).getD 0

/-- One memory holds all the stubs. -/
theorem VInv.image (fits : Fits p layout) {done : List Caller} (inv : VInv p layout i lay done s)
    (hlay : lay = layout (stubSizes p (stubGroups p layout) s)) {stubs : List (Nat × List Nat)}
    (h : stubsOf p lay (inGroups (stubGroups p layout) s) = .ok stubs) :
    ∃ mem, ∀ st ∈ stubs, HoldsCode mem st.1 st.2 := by
  refine ⟨stubMem p lay s.ven, fun st hst => ?_⟩
  obtain ⟨v, hv, hcode, haddr⟩ := stubsOf_of_mem h hst
  have hv := (mem_inGroups.1 hv).1
  obtain ⟨-, hle, huniq⟩ := inv.venAddr_apart fits hlay hv
  have hlen := stubCode_length hcode
  rw [haddr]
  refine holdsCode_of (by omega) fun j w hj => ?_
  have hjlt : j < st.2.length := (List.getElem?_eq_some_iff.1 hj).1
  unfold stubMem
  generalize hfind : s.ven.find? (fun v' => decide (venAddr lay v' ≤ venAddr lay v + j * 4 ∧
    venAddr lay v + j * 4 < venAddr lay v' + veneerSize p)) = found
  cases found with
  | none =>
    have hself := find?_eq_none.1 hfind v hv
    simp only [decide_eq_true_eq] at hself
    omega
  | some v' =>
    have hin := find?_some hfind
    simp only [decide_eq_true_eq] at hin
    rw [huniq v' (mem_of_find?_eq_some hfind) (venAddr lay v + j * 4) (by omega) (by omega) hin.1 hin.2,
      Option.map_some, hcode, Nat.add_sub_cancel_left, Nat.mul_div_cancel _ (by decide)]
    simp [Except.toOption, hj]

/-! ## Patched branches -/

/-- The field that a branch distance is written to gives it back. -/
theorem addendOf_patch {x : Int} (hlow : -0x2000000 ≤ x) (hhigh : x ≤ 0x1fffffc) (hmod : x % 4 = 0) :
    addendOf (w / 16777216 * 16777216 + (x / 4 % 16777216).toNat) = x := by
  unfold addendOf toS
  split <;> omega

/-- A branch that could be patched goes to the symbol plus the addend. -/
theorem applyBranch_ok {path : String} {type w s place w' : Nat} (hp : place < 4294967296)
    (h : applyBranch path type w s place = .ok w') :
    branchTo place w' = destOf s (addendOf w) ∧ inReach (destOf s (addendOf w)) place = true := by
  unfold applyBranch at h
  split at h
  next ht =>
    have hdist : sub32 (destOf s (addendOf w)) (add32 place 8) =
        sub32 (add32 s (ofS (addendOf w))) place := by
      unfold destOf sub32 add32
      omega
    generalize hx : toS (sub32 (add32 s (ofS (addendOf w))) place) = x at h
    simp only at h
    split at h
    · cases h
    next hrange =>
    split at h
    · cases h
    next hmod =>
    cases h
    refine ⟨?_, ?_⟩
    · unfold branchTo
      rw [addendOf_patch (by omega) (by omega) (by omega), ← hx]
      have hlt : sub32 (add32 s (ofS (addendOf w))) place < 4294967296 := Nat.mod_lt _ (by decide)
      rw [ofS_toS hlt]
      unfold destOf sub32 add32
      omega
    unfold inReach
    simp only [hdist, hx, Bool.and_eq_true, decide_eq_true_eq]
    omega
  · cases h

theorem applyAll_mem {cs : List Caller} (h : applyAll p lay groups s cs = .ok ws) :
    (∀ c ∈ cs, ∃ w, (c, w) ∈ ws) ∧ ∀ x ∈ ws, applyRel p lay groups s x.1 = .ok x.2 := by
  induction cs generalizing ws with
  | nil =>
    cases h
    exact ⟨forall_mem_nil _, forall_mem_nil _⟩
  | cons c rest ih => ?_
  rw [applyAll] at h
  split at h
  · cases h
  rename_i w h1
  split at h
  · cases h
  rename_i ws' h2
  cases h
  obtain ⟨hall, hrel⟩ := ih h2
  refine ⟨forall_mem_cons.2 ⟨⟨w, mem_cons_self⟩, fun c' hc' => ?_⟩, forall_mem_cons.2 ⟨h1, hrel⟩⟩
  obtain ⟨w', hw'⟩ := hall c' hc'
  exact ⟨w', mem_cons_of_mem _ hw'⟩

theorem applySecs_mem {xs : List (Nat × RelSec)} (h : applySecs p lay groups s xs = .ok ws) :
    (∀ c ∈ xs.flatMap callers, ∃ w, (c, w) ∈ ws) ∧ ∀ x ∈ ws, applyRel p lay groups s x.1 = .ok x.2 := by
  induction xs generalizing ws with
  | nil =>
    cases h
    exact ⟨forall_mem_nil _, forall_mem_nil _⟩
  | cons x rest ih => ?_
  rw [applySecs] at h
  split at h
  · cases h
  split at h
  · cases h
  rename_i ws1 h1
  split at h
  · cases h
  rename_i ws2 h2
  cases h
  obtain ⟨hall1, hrel1⟩ := applyAll_mem h1
  obtain ⟨hall2, hrel2⟩ := ih h2
  refine ⟨fun c hc => ?_, forall_mem_append.2 ⟨hrel1, hrel2⟩⟩
  rw [flatMap_cons, mem_append] at hc
  rcases hc with hc | hc
  · obtain ⟨w, hw⟩ := hall1 c hc
    exact ⟨w, mem_append_left _ hw⟩
  · obtain ⟨w, hw⟩ := hall2 c hc
    exact ⟨w, mem_append_right _ hw⟩

theorem veneerFor_none : veneerFor p lay groups noVeneers c = 0 := by
  unfold veneerFor
  split <;> simp [noVeneers]

theorem veneerFor_lt : veneerFor p lay groups s c < 4294967296 := by
  unfold veneerFor
  split
  · decide
  split
  · exact Nat.mod_lt _ (by decide)
  · decide

theorem applyRel_branch {w : Nat} (hb : branchReloc c.rel.type = true)
    (h : applyRel p lay groups s c = .ok w) :
    ∃ dest, branchDest p lay c = .ok dest ∧
      if inReach dest (placeOf lay c) then branchTo (placeOf lay c) w = dest
      else far p lay c = true ∧ veneerFor p lay groups s c ≠ 0 ∧
        branchTo (placeOf lay c) w = veneerFor p lay groups s c := by
  have hplace : placeOf lay c < 4294967296 := Nat.mod_lt _ (by decide)
  unfold applyRel at h
  simp only at h
  split at h
  · cases h
  rw [hb] at h
  simp only [Bool.not_true, Bool.false_eq_true, if_false] at h
  split at h
  · cases h
  rename_i sym ht
  have hd : branchDest p lay c = .ok (destOf sym (addendOf c.rel.word)) := by rw [branchDest, ht]
  refine ⟨_, hd, ?_⟩
  by_cases hr : inReach (destOf sym (addendOf c.rel.word)) (placeOf lay c) = true
  · rw [hr, Bool.or_true, if_pos rfl] at h
    rw [if_pos hr]
    exact (applyBranch_ok hplace h).1
  rw [if_neg hr]
  split at h
  · -- left as it was, it is refused
    exact absurd (applyBranch_ok hplace h).2 hr
  next hopen =>
  have hva : veneerFor p lay groups s c < 4294967296 := veneerFor_lt
  split at h
  next hne =>
    refine ⟨?_, hne, (applyBranch_ok hplace h).1.trans ?_⟩
    · simp only [Bool.or_eq_true, not_or] at hopen
      simpa [far, hb, hd, hr] using hopen.1.2
    have hofs := ofS_lt (addendOf c.rel.word)
    unfold destOf sub32 add32
    omega
  · exact absurd (applyBranch_ok hplace h).2 hr

/-- The veneer that a branch finds is that of the first branch out of reach under its key. -/
theorem VInv.veneerFor_first (fits : Fits p layout) {done : List Caller} (inv : VInv p layout i lay done s)
    (h : veneerFor p lay (stubGroups p layout) s c ≠ 0) :
    ∃ K v c', c.key p (stubGroups p layout) = some K ∧ v ∈ s.ven ∧ MadeFor (stubGroups p layout) v c' ∧
      FirstFar p layout K c' ∧ veneerFor p lay (stubGroups p layout) s c = venAddr lay v := by
  unfold veneerFor at h ⊢
  cases hg : vgroupOf (stubGroups p layout) c.obj c.sec with
  | none => simp only [hg] at h; exact absurd rfl h
  | some g => ?_
  have hkey : c.key p (stubGroups p layout) = some (targetKey p g c.obj c.rel.sym (addendOf c.rel.word)) := by
    rw [Caller.key, hg, Option.map_some]
  simp only [hg] at h ⊢
  generalize targetKey p g c.obj c.rel.sym (addendOf c.rel.word) = K at *
  cases hl : s.map.lookup K with
  | none => simp only [hl, Option.bind_none] at h; exact absurd rfl h
  | some m =>
    obtain ⟨v, c', hv, hmade, hff⟩ := inv.made K m hl
    refine ⟨K, v, c', hkey, mem_of_getElem? hv, hmade, hff, ?_⟩
    simp only [Option.bind_some, hv]
    rw [Caller.key_group fits.groups hkey hff.spec.2 hg hmade.group, venAddr]

/-- A veneer leads to the destination of the first branch out of reach with its key. -/
theorem VInv.veneer_runs (fits : Fits p layout) {done : List Caller} (inv : VInv p layout i lay done s)
    {stubs : List (Nat × List Nat)} (hst : stubsOf p lay (inGroups (stubGroups p layout) s) = .ok stubs)
    (himage : ∀ st ∈ stubs, HoldsCode mem st.1 st.2) (hne : veneerFor p lay (stubGroups p layout) s c ≠ 0) :
    ∃ K c' dest code, c.key p (stubGroups p layout) = some K ∧ FirstFar p layout K c' ∧
      branchDest p lay c' = .ok dest ∧ (veneerFor p lay (stubGroups p layout) s c, code) ∈ stubs ∧
      code.length * 4 = veneerSize p ∧ ∀ ip, ∃ ip',
        stubRun mem (code.length - 1) (veneerFor p lay (stubGroups p layout) s c, ip) = some (dest, ip') := by
  obtain ⟨K, v, c', hkey, hvm, hmade, hff, haddr⟩ := inv.veneerFor_first fits hne
  obtain ⟨code, hcode, hstub⟩ := stubsOf_mem hst (mem_inGroups.2 ⟨hvm, inv.group v hvm⟩)
  obtain ⟨sym, hsym, hrun⟩ := stubCode_runs hcode
  rw [hmade.obj, hmade.sym, hmade.type] at hsym
  rw [← haddr] at hstub hrun
  refine ⟨K, c', _, code, hkey, hff, ?_, hstub, stubCode_length hcode, hrun mem (himage _ hstub)⟩
  rw [branchDest, hsym, hmade.a]

end

/-- One code section that calls two globals. -/
def callsTwo (f g : Name) : Input where
  objs := [⟨"a.o", true, false,
    [noSymbol, ⟨some f, .global, .undef, 0, false⟩, ⟨some g, .global, .undef, 0, false⟩],
    [noSection, ⟨".text", true, false, .sec 0, 8, 8⟩],
    [⟨1, [⟨28, 1, 0, 0xebfffffe⟩, ⟨28, 2, 4, 0xebfffffe⟩]⟩]⟩]
  gsyms := fun nm => if nm = f ∨ nm = g then some ⟨true, some 1, false, false⟩ else none
  imports := fun _ => none
  plt := fun _ => 0
  outsecs := [⟨true, false⟩]
  shared := false
  bsymbolic := false
  pie := false
  picVeneer := false
  versionHidden := fun _ => false
  ptr := fun _ => [48, 120, 49]
  other := fun _ _ r => .ok r.word

/-- The section at 0x8000, its stubs behind it, `f` at 0x10000000 and everything else at
0x20000000. -/
def farLay (f : Name) : Lay where
  secVaddr := fun _ _ => 0x8000
  stubVaddr := fun _ => 0x8008
  gvaddr := fun nm => if nm = f then 0x10000000 else 0x20000000
  pltVaddr := 0
  dynbssVaddr := 0

/-- Two names that differ in their last byte. -/
def longName (last : UInt8) : Name := List.replicate 600 97 ++ [last]

end Embedded.Toolchain.Ld.Branch
