import Embedded.Kernel.Ramfs

/-! # Path lookup (`lookup_b`)

The recursion of `lookup_b` is over the targets of links, and no order on inodes bounds it: links may
lead through themselves. What bounds it is the budget, one less at every link. -/

namespace Embedded.Kernel

variable {fs : Fs} {follow : Bool} {sub sub' : Nat → Bytes → Nat → Nat × Nat}

/-- One link: its target is looked up for one of the budget, and `next` goes on from there. -/
def viaLink (sub : Nat → Bytes → Nat → Nat × Nat) (next : Nat → Nat → Nat × Nat) (base : Nat)
    (target : Bytes) (budget : Nat) : Nat × Nat :=
  if budget = 0 then (0, 0)
  else if (sub base target (budget - 1)).1 = 0 then (0, (sub base target (budget - 1)).2)
  else next (sub base target (budget - 1)).1 (sub base target (budget - 1)).2

/-- What a component can do, whatever the budget and the recursive calls: fail, lead to a child, or be
    a link. Loops that both resolve it, or both do not, agree on it. -/
theorem walk_cons {follow' : Bool} {rest rest' : List Bytes} (comp : Bytes) (cur : Nat)
    (h : rest ≠ [] ∨ follow = true ↔ rest' ≠ [] ∨ follow' = true) :
    (∀ sub b, walk fs follow sub (comp :: rest) cur b = (0, b) ∧
      walk fs follow' sub (comp :: rest') cur b = (0, b)) ∨
    (∃ c, ∀ sub b, walk fs follow sub (comp :: rest) cur b = walk fs follow sub rest c b ∧
      walk fs follow' sub (comp :: rest') cur b = walk fs follow' sub rest' c b) ∨
    ∃ base t, ∀ sub b, walk fs follow sub (comp :: rest) cur b =
        viaLink sub (walk fs follow sub rest) base t b ∧
      walk fs follow' sub (comp :: rest') cur b = viaLink sub (walk fs follow' sub rest') base t b := by
  by_cases hlen : comp.length > 63
  · exact .inl fun _ _ => ⟨if_pos hlen, if_pos hlen⟩
  by_cases hdir : cur = 0 ∨ (fs.inodes cur).type ≠ .dir
  · exact .inl fun _ _ => by simp only [walk, if_neg hlen, if_pos hdir, and_self]
  by_cases hc : ramfsChild fs cur comp = 0
  · exact .inl fun _ _ => by simp only [walk, if_neg hlen, if_neg hdir, if_pos hc, and_self]
  by_cases hl : (fs.inodes (ramfsChild fs cur comp)).type = .lnk ∧ (rest' ≠ [] ∨ follow' = true)
  · exact .inr (.inr ⟨_, _, fun _ _ => by
      simp only [walk, h, if_neg hlen, if_neg hdir, if_neg hc, if_pos hl, viaLink]
      exact ⟨rfl, rfl⟩⟩)
  exact .inr (.inl ⟨_, fun _ _ => by
    simp only [walk, h, if_neg hlen, if_neg hdir, if_neg hc, if_neg hl]
    exact ⟨rfl, rfl⟩⟩)

/-! ## The budget -/

/-- The recursive calls of a loop have less of the budget, so only those with less than `n` matter;
    none gives any back. -/
theorem walk_congr {n : Nat} (hsub : ∀ base t b, b < n →
      sub base t b = sub' base t b ∧ (sub base t b).2 ≤ b) (comps : List Bytes) :
    ∀ cur b, b ≤ n → walk fs follow sub comps cur b = walk fs follow sub' comps cur b ∧
      (walk fs follow sub comps cur b).2 ≤ b := by
  induction comps with
  | nil => exact fun _ b _ => ⟨rfl, Nat.le_refl b⟩
  | cons comp rest ih => ?_
  intro cur b hb
  obtain hw | ⟨c, hw⟩ | ⟨base, t, hw⟩ := walk_cons comp cur Iff.rfl
  · rw [(hw sub b).1, (hw sub' b).1]
    exact ⟨rfl, Nat.le_refl b⟩
  · rw [(hw sub b).1, (hw sub' b).1]
    exact ih c b hb
  rw [(hw sub b).1, (hw sub' b).1, viaLink, viaLink]
  by_cases h0 : b = 0
  · rw [if_pos h0, if_pos h0]
    exact ⟨rfl, Nat.zero_le b⟩
  obtain ⟨heq, hle⟩ := hsub base t (b - 1) (by omega)
  rw [if_neg h0, if_neg h0, ← heq]
  obtain ⟨hnext, hle'⟩ := ih (sub base t (b - 1)).1 (sub base t (b - 1)).2 (by omega)
  rw [← hnext]
  refine ⟨rfl, ?_⟩
  split
  · exact Nat.le_trans hle (Nat.sub_le b 1)
  · omega

/-- The depth of the recursion does not matter once it exceeds the budget. -/
theorem lookupB_depth (b : Nat) : ∀ depth depth', b < depth → b < depth' → ∀ start path follow,
    lookupB fs depth start path follow b = lookupB fs depth' start path follow b ∧
      (lookupB fs depth start path follow b).2 ≤ b := by
  induction b using Nat.strongRecOn with
  | _ b ih =>
    intro depth depth' h h' start path follow
    obtain _ | d := depth
    · omega
    obtain ⟨d', rfl⟩ : ∃ d, depth' = d + 1 := ⟨depth' - 1, by omega⟩
    exact walk_congr (fun base t b' hb => ih b' hb d d' (by omega) (by omega) base t true) _ _ _
      (Nat.le_refl b)

/-- A lookup that succeeds leaves as much more as it had more. -/
theorem walk_shift {x : Nat} (hsub : ∀ base t b, (sub base t b).1 ≠ 0 →
      sub' base t (b + x) = ((sub base t b).1, (sub base t b).2 + x)) (comps : List Bytes) :
    ∀ cur b, (walk fs follow sub comps cur b).1 ≠ 0 → walk fs follow sub' comps cur (b + x) =
      ((walk fs follow sub comps cur b).1, (walk fs follow sub comps cur b).2 + x) := by
  induction comps with
  | nil => exact fun _ _ _ => rfl
  | cons comp rest ih => ?_
  intro cur b
  obtain hw | ⟨c, hw⟩ | ⟨base, t, hw⟩ := walk_cons comp cur Iff.rfl
  · rw [(hw sub b).1]
    exact fun h => absurd rfl h
  · rw [(hw sub b).1, (hw sub' _).1]
    exact ih c b
  rw [(hw sub b).1, (hw sub' _).1, viaLink, viaLink]
  by_cases h0 : b = 0
  · rw [if_pos h0]
    exact fun h => absurd rfl h
  rw [if_neg h0, if_neg (show b + x ≠ 0 by omega), show b + x - 1 = b - 1 + x by omega]
  by_cases hr : (sub base t (b - 1)).1 = 0
  · rw [if_pos hr]
    exact fun h => absurd rfl h
  rw [hsub base t (b - 1) hr, if_neg hr, if_neg hr]
  exact ih _ _

theorem lookupB_shift (x depth : Nat) : ∀ start path follow b,
    (lookupB fs depth start path follow b).1 ≠ 0 → lookupB fs (depth + x) start path follow (b + x) =
      ((lookupB fs depth start path follow b).1, (lookupB fs depth start path follow b).2 + x) := by
  induction depth with
  | zero => exact fun _ _ _ _ h => absurd rfl h
  | succ depth ih =>
    intro start path follow b
    rw [Nat.add_right_comm]
    exact walk_shift (fun base t b => ih base t true b) _ _ b

/-! ## Composition -/

/-- A loop over two lists is a loop over the first, all links followed, and one over the second. -/
theorem walk_append {qs : List Bytes} (hq : qs ≠ [] ∨ follow = true) (ps : List Bytes) :
    ∀ cur b, walk fs follow sub (ps ++ qs) cur b =
      if (walk fs true sub ps cur b).1 = 0 then (0, (walk fs true sub ps cur b).2)
      else walk fs follow sub qs (walk fs true sub ps cur b).1 (walk fs true sub ps cur b).2 := by
  induction ps with
  | nil =>
    intro cur b
    by_cases h0 : cur = 0
    · cases qs with
      | nil | cons comp rest => simp [walk, h0]
    simp [walk, h0]
  | cons comp rest ih => ?_
  intro cur b
  have h : rest ++ qs ≠ [] ∨ follow = true ↔ rest ≠ [] ∨ true = true := by
    refine iff_of_true (hq.imp_left fun hq => ?_) (.inr rfl)
    simp [hq]
  rw [List.cons_append]
  obtain hw | ⟨c, hw⟩ | ⟨base, t, hw⟩ := @walk_cons fs follow true _ _ comp cur h
  · simp [hw sub b]
  · rw [(hw sub b).1, (hw sub b).2, ih]
  rw [(hw sub b).1, (hw sub b).2, viaLink, viaLink]
  by_cases h0 : b = 0
  · simp [h0]
  by_cases hr : (sub base t (b - 1)).1 = 0
  · simp [h0, hr]
  simp only [if_neg h0, if_neg hr]
  exact ih _ _

/-- `p` followed by `q`. -/
def joinPath (p q : Bytes) : Bytes := if p = [] then q else p ++ slash :: q

theorem lookupB_joinPath {p q : Bytes} (hrel : q.head? ≠ some slash)
    (hq : components q ≠ [] ∨ follow = true) (depth start b : Nat) :
    lookupB fs (depth + 1) start (joinPath p q) follow b =
      if (lookupB fs (depth + 1) start p true b).1 = 0 then (0, (lookupB fs (depth + 1) start p true b).2)
      else lookupB fs (depth + 1) (lookupB fs (depth + 1) start p true b).1 q follow
        (lookupB fs (depth + 1) start p true b).2 := by
  have hcat : lookupB fs (depth + 1) start (joinPath p q) follow b =
      walk fs follow (fun base t b => lookupB fs depth base t true b) (components p ++ components q)
        (if p.head? = some slash ∨ start = 0 then fs.root else start) b := by
    cases p with
    | nil => simp [joinPath, lookupB, components, hrel]
    | cons c p =>
      rw [joinPath, if_neg (by simp), lookupB, components, List.splitOn_append_cons_self, List.filter_append]
      rfl
  rw [hcat, walk_append hq]
  generalize hr : lookupB fs (depth + 1) start p true b = r
  rw [lookupB] at hr
  rw [hr]
  split
  · rfl
  · next h => simp [lookupB, hrel, h]

/-- **Path lookup returns on every graph of inodes**, with no more than the budget spent, and no
    deeper a recursion gives anything else. **It composes**: where a larger budget would change
    nothing, the lookup of `p/q` is that of `q` from what `p` names. -/
theorem lookup_terminates_composes (fs : Fs) (start : Nat) :
    (∀ path follow, ∃ left ≤ symlinkMax, ∀ depth, symlinkMax < depth →
      lookupB fs depth start path follow symlinkMax = (ramfsLookup fs start path follow, left)) ∧
    ∀ p q follow, q.head? ≠ some slash → components q ≠ [] ∨ follow = true →
      (∀ b ≥ symlinkMax, (lookupB fs (b + 1) start (joinPath p q) follow b).1 =
        ramfsLookup fs start (joinPath p q) follow) →
      ramfsLookup fs start (joinPath p q) follow = if ramfsLookup fs start p true = 0 then 0
        else ramfsLookup fs (ramfsLookup fs start p true) q follow := by
  have hlt := Nat.lt_succ_self symlinkMax
  refine ⟨fun path follow => ⟨_, (lookupB_depth symlinkMax _ _ hlt hlt start path follow).2,
    fun depth hd => (lookupB_depth _ depth _ hd hlt _ _ _).1⟩, fun p q follow hrel hq hb => ?_⟩
  have hleft := (@lookupB_depth fs symlinkMax _ _ hlt hlt start p true).2
  have hs := @lookupB_shift fs (symlinkMax - (lookupB fs (symlinkMax + 1) start p true symlinkMax).2)
    (symlinkMax + 1) start p true symlinkMax
  by_cases h0 : ramfsLookup fs start p true = 0
  · rw [if_pos h0]
    rw [ramfsLookup] at h0
    rw [ramfsLookup, lookupB_joinPath hrel hq, if_pos h0]
  rw [if_neg h0]
  -- with what `p` takes given back, `q` has the whole budget
  rw [← hb (symlinkMax + (symlinkMax - (lookupB fs (symlinkMax + 1) start p true symlinkMax).2))
    (by omega), lookupB_joinPath hrel hq, Nat.add_right_comm, hs h0]
  rw [ramfsLookup] at h0
  rw [if_neg h0, Nat.add_sub_cancel' hleft]
  exact congrArg Prod.fst (lookupB_depth _ _ _ (by omega) hlt _ _ _).1

end Embedded.Kernel
