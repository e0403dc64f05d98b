import Mathlib.Data.List.Chain
import Mathlib.Algebra.Ring.Nat

/-! # Tilings of an interval

An interval cut into tiles that follow each other without gaps, each one free or in use. A tile in use
is known by its address. `mergeFrom` joins neighbouring free tiles; it keeps the tiles in use where
they are and leaves no two free neighbours. -/

namespace Embedded

open List

structure Tile where
  size : Nat
  free : Bool
deriving DecidableEq, Repr

namespace Tiling

/-- The length of the interval. -/
def total (ts : List Tile) : Nat := (ts.map Tile.size).sum

/-- The tiles with their addresses, from `a` on. -/
def placed : Nat → List Tile → List (Nat × Tile)
  | _, [] => []
  | a, t :: ts => (a, t) :: placed (a + t.size) ts

/-- Addresses and sizes of the tiles in use. -/
def usedAt : Nat → List Tile → List (Nat × Nat)
  | _, [] => []
  | a, t :: ts => if t.free then usedAt (a + t.size) ts else (a, t.size) :: usedAt (a + t.size) ts

/-- No two neighbours are both free. -/
def NoFreePair (ts : List Tile) : Prop := ts.IsChain fun s t => ¬ (s.free = true ∧ t.free = true)

/-- Neighbouring free tiles are joined, from a first tile on. -/
def mergeFrom : Tile → List Tile → List Tile
  | c, [] => [c]
  | c, d :: rest =>
    if c.free = true ∧ d.free = true then mergeFrom ⟨c.size + d.size, true⟩ rest
    else c :: mergeFrom d rest

@[simp] theorem total_nil : total [] = 0 := rfl

@[simp] theorem total_cons (t : Tile) (ts : List Tile) : total (t :: ts) = t.size + total ts := rfl

theorem total_append (as bs : List Tile) : total (as ++ bs) = total as + total bs := by
  rw [total, map_append, sum_append]
  rfl

theorem placed_append (a : Nat) (as bs : List Tile) :
    placed a (as ++ bs) = placed a as ++ placed (a + total as) bs := by
  induction as generalizing a with
  | nil => rfl
  | cons t as ih =>
    rw [cons_append, placed, placed, ih, total_cons, Nat.add_assoc]
    rfl

theorem usedAt_append (a : Nat) (as bs : List Tile) :
    usedAt a (as ++ bs) = usedAt a as ++ usedAt (a + total as) bs := by
  induction as generalizing a with
  | nil => rfl
  | cons t as ih => ?_
  rw [cons_append, usedAt, usedAt, ih, total_cons, Nat.add_assoc]
  split
  · rfl
  rfl

/-- The tiles follow each other from `a` to `e`. -/
def Tiles : Nat → List (Nat × Tile) → Nat → Prop
  | a, [], e => a = e
  | a, u :: us, e => u.1 = a ∧ Tiles (a + u.2.size) us e

theorem tiles_placed (a : Nat) (ts : List Tile) : Tiles a (placed a ts) (a + total ts) := by
  induction ts generalizing a with
  | nil => rfl
  | cons t ts ih =>
    refine ⟨rfl, ?_⟩
    rw [total_cons, ← Nat.add_assoc]
    exact ih _

theorem mem_placed_of_split (a : Nat) (pre post : List Tile) (t : Tile) :
    (a + total pre, t) ∈ placed a (pre ++ [t] ++ post) := by
  rw [placed_append, placed_append]
  exact mem_append_left _ (mem_append_right _ mem_cons_self)

variable {a : Nat} {ts : List Tile}

theorem placed_range {u : Nat × Tile} (h : u ∈ placed a ts) : a ≤ u.1 ∧ u.1 + u.2.size ≤ a + total ts := by
  induction ts generalizing a with
  | nil => cases h
  | cons t ts ih => ?_
  rw [total_cons]
  rcases mem_cons.1 h with rfl | h
  · exact ⟨le_refl a, by show a + t.size ≤ _; omega⟩
  have := ih h
  omega

theorem placed_map_snd (a : Nat) (ts : List Tile) : (placed a ts).map Prod.snd = ts := by
  induction ts generalizing a with
  | nil => rfl
  | cons t ts ih => rw [placed, map_cons, ih]

theorem usedAt_split {u : Nat × Nat} (h : u ∈ usedAt a ts) :
    ∃ pre post, ts = pre ++ [⟨u.2, false⟩] ++ post ∧ u.1 = a + total pre := by
  induction ts generalizing a with
  | nil => cases h
  | cons t ts ih => ?_
  have htail : u ∈ usedAt (a + t.size) ts →
      ∃ pre post, t :: ts = pre ++ [⟨u.2, false⟩] ++ post ∧ u.1 = a + total pre := by
    intro h
    obtain ⟨pre, post, rfl, hu⟩ := ih h
    refine ⟨t :: pre, post, rfl, ?_⟩
    rw [hu, total_cons, Nat.add_assoc]
  rw [usedAt] at h
  split at h
  · exact htail h
  next hfree =>
  rcases mem_cons.1 h with rfl | h
  · refine ⟨[], ts, ?_, rfl⟩
    have ht : t = ⟨t.size, false⟩ := by
      cases t
      simpa using hfree
    rw [ht]
    rfl
  exact htail h

theorem usedAt_pairwise (a : Nat) (ts : List Tile) : (usedAt a ts).Pairwise fun u v => u.1 + u.2 ≤ v.1 := by
  have hfrom : ∀ (a : Nat) (ts : List Tile), ∀ v ∈ usedAt a ts, a ≤ v.1 := by
    intro a ts v hv
    obtain ⟨pre, post, -, hv⟩ := usedAt_split hv
    omega
  induction ts generalizing a with
  | nil => exact List.Pairwise.nil
  | cons t ts ih => ?_
  rw [usedAt]
  split
  · exact ih _
  exact pairwise_cons.2 ⟨fun v hv => hfrom _ _ v hv, ih _⟩

theorem usedAt_apart {u v : Nat × Nat} (hu : u ∈ usedAt a ts)
    (hv : v ∈ usedAt a ts) (hne : u ≠ v) : u.1 + u.2 ≤ v.1 ∨ v.1 + v.2 ≤ u.1 := by
  have hpair := usedAt_pairwise a ts
  generalize usedAt a ts = us at hu hv hpair
  induction hpair with
  | nil => cases hu
  | cons hall _ ih => ?_
  rcases mem_cons.1 hu with rfl | hu'
  · rcases mem_cons.1 hv with rfl | hv'
    · exact absurd rfl hne
    exact .inl (hall v hv')
  rcases mem_cons.1 hv with rfl | hv'
  · exact .inr (hall u hu')
  exact ih hu' hv'

theorem usedAt_eq_nil (h : usedAt a ts = []) : ∀ t ∈ ts, t.free = true := by
  induction ts generalizing a with
  | nil => exact forall_mem_nil _
  | cons t ts ih => ?_
  rw [usedAt] at h
  split at h
  next hfree => exact forall_mem_cons.2 ⟨hfree, ih h⟩
  · exact absurd h (cons_ne_nil _ _)

theorem NoFreePair.single (h : NoFreePair ts) (hfree : ∀ t ∈ ts, t.free = true)
    (hne : ts ≠ []) : ts = [⟨total ts, true⟩] := by
  match ts, hne with
  | [t], _ =>
    have ht := hfree t mem_cons_self
    cases t
    subst ht
    rfl
  | s :: t :: rest, _ =>
    have hst := (isChain_cons_cons.1 h).1
    exact absurd ⟨hfree s mem_cons_self, hfree t (mem_cons_of_mem _ mem_cons_self)⟩ hst

/-! ## Joining neighbours -/

theorem total_mergeFrom (c : Tile) (rest : List Tile) : total (mergeFrom c rest) = c.size + total rest := by
  induction rest generalizing c with
  | nil => rfl
  | cons d rest ih => ?_
  rw [mergeFrom]
  split
  · rw [ih, total_cons, Nat.add_assoc]
  rw [total_cons, ih, total_cons]

theorem mergeFrom_ne_nil (c : Tile) (rest : List Tile) : mergeFrom c rest ≠ [] := by
  induction rest generalizing c with
  | nil => exact cons_ne_nil _ _
  | cons d rest ih => ?_
  rw [mergeFrom]
  split
  · exact ih _
  exact cons_ne_nil _ _

theorem mergeFrom_least {n : Nat} {c : Tile} {rest : List Tile} (hc : n ≤ c.size)
    (h : ∀ t ∈ rest, n ≤ t.size) : ∀ t ∈ mergeFrom c rest, n ≤ t.size := by
  induction rest generalizing c with
  | nil => exact fun t ht => mem_singleton.1 ht ▸ hc
  | cons d rest ih => ?_
  obtain ⟨hd, hrest⟩ := forall_mem_cons.1 h
  rw [mergeFrom]
  split
  · exact ih (Nat.le_add_right_of_le hc) hrest
  exact forall_mem_cons.2 ⟨hc, ih hd hrest⟩

theorem usedAt_mergeFrom (a : Nat) (c : Tile) (rest : List Tile) :
    usedAt a (mergeFrom c rest) = usedAt a (c :: rest) := by
  induction rest generalizing a c with
  | nil => rfl
  | cons d rest ih => ?_
  rw [mergeFrom]
  split
  next h =>
    rw [ih, usedAt, usedAt, usedAt, if_pos rfl, if_pos h.1, if_pos h.2, Nat.add_assoc]
  · simp only [usedAt, ih]

/-- The first tile of the result is in use exactly if the first one was. -/
theorem mergeFrom_head (c : Tile) (rest : List Tile) :
    ∃ d ds, mergeFrom c rest = d :: ds ∧ d.free = c.free := by
  induction rest generalizing c with
  | nil => exact ⟨c, [], rfl, rfl⟩
  | cons d rest ih => ?_
  rw [mergeFrom]
  split
  next h =>
    obtain ⟨e, es, he, hfree⟩ := ih ⟨c.size + d.size, true⟩
    exact ⟨e, es, he, hfree.trans h.1.symm⟩
  · exact ⟨c, _, rfl, rfl⟩

theorem mergeFrom_noFreePair (c : Tile) (rest : List Tile) : NoFreePair (mergeFrom c rest) := by
  induction rest generalizing c with
  | nil => exact isChain_singleton c
  | cons d rest ih => ?_
  rw [mergeFrom]
  split
  · exact ih _
  next h =>
  obtain ⟨e, es, he, hfree⟩ := mergeFrom_head d rest
  have hrest := ih d
  rw [he] at hrest ⊢
  refine isChain_cons_cons.2 ⟨?_, hrest⟩
  rw [hfree]
  exact h

theorem NoFreePair.carve {pre post : List Tile} {c : Tile} (hc : c.free = true)
    (h : NoFreePair (pre ++ [c] ++ post)) {ds : List Tile}
    (hds : ds = [⟨c.size, false⟩] ∨ ∃ n m, ds = [⟨n, false⟩, ⟨m, true⟩]) :
    NoFreePair (pre ++ ds ++ post) := by
  rw [append_assoc] at h ⊢
  unfold NoFreePair at h ⊢
  rw [isChain_append] at h ⊢
  obtain ⟨hpre, hrest, -⟩ := h
  have hcpost : ∀ t ∈ post.head?, t.free = false := by
    intro t ht
    have hlink := (isChain_append.1 hrest).2.2 c rfl t ht
    rw [hc] at hlink
    simpa using hlink
  have hpost := (isChain_append.1 hrest).2.1
  refine ⟨hpre, ?_, ?_⟩
  · rcases hds with rfl | ⟨n, m, rfl⟩
    · rw [isChain_append]
      refine ⟨isChain_singleton _, hpost, fun s hs t _ => ?_⟩
      obtain rfl : Tile.mk c.size false = s := by simpa using hs
      simp
    rw [isChain_append]
    refine ⟨?_, hpost, fun s _ t ht => ?_⟩
    · exact isChain_cons_cons.2 ⟨by simp, isChain_singleton _⟩
    rw [hcpost t ht]
    simp
  intro s _ t ht
  have htf : t.free = false := by
    rcases hds with rfl | ⟨n, m, rfl⟩
    · obtain rfl : Tile.mk c.size false = t := by simpa using ht
      rfl
    obtain rfl : Tile.mk n false = t := by simpa using ht
    rfl
  rw [htf]
  simp

end Tiling

end Embedded
