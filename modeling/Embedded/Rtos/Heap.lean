import Embedded.Lib.Mem
import Embedded.Lib.Tiling

/-! # The RTOS heap (`lib/heap.c`)

A first-fit heap in one arena. Every block has a header of 12 bytes in front: its size with the
header, a flag byte and the address of the next block. The model works on the bytes; the proofs go
through the tiling of the arena that the headers describe (`Chain`). -/

namespace Embedded.Rtos

open Tiling Mem
open List

variable {a nxt f n x : Nat} {ts : List Tile} {c : Tile}

/-- `heap_start` and `total_size` over the memory. -/
structure Heap where
  mem : Mem
  start : Nat
  totalSize : Nat

namespace Heap

/-! ## The headers -/

/-- `sizeof(struct block_header)`. -/
def headerSize : Nat := 12

def size (m : Mem) (a : Nat) : Nat := m.r32 a

def free (m : Mem) (a : Nat) : UInt8 := m (a + 4)

def next (m : Mem) (a : Nat) : Nat := m.r32 (a + 8)

def setSize (m : Mem) (a v : Nat) : Mem := m.w32 a v

def setFree (m : Mem) (a : Nat) (v : UInt8) : Mem := m.w8 (a + 4) v

def setNext (m : Mem) (a v : Nat) : Mem := m.w32 (a + 8) v

/-- More rounds than there can be blocks in the 32-bit space. -/
def maxBlocks : Nat := 357913942

/-! ## The functions -/

/-- `heap_init`. -/
def heapInit (m : Mem) (mem size : Nat) : Heap where
  mem := setNext (setFree (setSize m mem size) mem 1) mem 0
  start := mem
  totalSize := size

/-- The size `heap_alloc` looks for: rounded up to 4, with the header. -/
def blockSize (size : Nat) : Nat := add32 (add32 size 3 / 4 * 4) headerSize

/-- The loop of `heap_alloc`: the first free block that is large enough, or 0. -/
def findFit (m : Mem) (size : Nat) : Nat → Nat → Nat
  | 0, _ => 0
  | f + 1, curr =>
    if curr = 0 then 0
    else if free m curr ≠ 0 ∧ size ≤ Heap.size m curr then curr
    else findFit m size f (next m curr)

/-- What `heap_alloc` does with the block it found. -/
def useBlock (m : Mem) (curr size : Nat) : Mem :=
  if add32 (add32 size headerSize) 4 ≤ Heap.size m curr then
    let new := add32 curr size
    let m1 := setSize m new (sub32 (Heap.size m curr) size)
    let m2 := setFree m1 new 1
    let m3 := setNext m2 new (next m2 curr)
    let m4 := setSize m3 curr size
    let m5 := setNext m4 curr new
    setFree m5 curr 0
  else setFree m curr 0

/-- `heap_alloc`. -/
def heapAlloc (h : Heap) (n : Nat) : Nat × Heap :=
  let size := blockSize n
  let curr := findFit h.mem size maxBlocks h.start
  if curr = 0 then (0, h)
  else (add32 curr headerSize, { h with mem := useBlock h.mem curr size })

/-- The loop of `heap_free` that joins neighbouring free blocks. -/
def coalesce (m : Mem) : Nat → Nat → Mem
  | 0, _ => m
  | f + 1, curr =>
    if curr ≠ 0 ∧ next m curr ≠ 0 then
      if free m curr ≠ 0 ∧ free m (next m curr) ≠ 0 then
        let m1 := setSize m curr (add32 (size m curr) (size m (next m curr)))
        let m2 := setNext m1 curr (next m1 (next m1 curr))
        coalesce m2 f curr
      else coalesce m f (next m curr)
    else m

/-- `heap_free`. -/
def heapFree (h : Heap) (ptr : Nat) : Heap :=
  if ptr = 0 then h
  else
    let m := setFree h.mem (sub32 ptr headerSize) 1
    { h with mem := coalesce m maxBlocks h.start }

/-- The blocks in list order: address, size, free. -/
def walk (m : Mem) : Nat → Nat → List (Nat × Tile)
  | 0, _ => []
  | f + 1, curr =>
    if curr = 0 then []
    else (curr, ⟨size m curr, free m curr != 0⟩) :: walk m f (next m curr)

def blocks (h : Heap) : List (Nat × Tile) := walk h.mem maxBlocks h.start

/-! ## The arena as a tiling -/

/-- The header of a tile. -/
structure HdrAt (m : Mem) (a : Nat) (t : Tile) (nxt : Nat) : Prop where
  size : size m a = t.size
  free : free m a = if t.free then 1 else 0
  next : next m a = nxt

/-- The memory holds the headers of the tiles from `a` on; the last one leads to `last`. -/
def Chain (m : Mem) (last : Nat) : Nat → List Tile → Prop
  | _, [] => True
  | a, t :: ts =>
    HdrAt m a t (if ts = [] then last else a + t.size) ∧ Chain m last (a + t.size) ts

theorem HdrAt.congr {m m' : Mem} {a nxt : Nat} {t : Tile} (h : HdrAt m a t nxt)
    (hm : ∀ i < 12, m' (a + i) = m (a + i)) : HdrAt m' a t nxt := by
  refine ⟨?_, ?_, ?_⟩
  · rw [← h.size]
    exact r32_congr fun i hi => hm i (by omega)
  · rw [← h.free]
    exact hm 4 (by omega)
  rw [← h.next]
  refine r32_congr fun i hi => ?_
  rw [Nat.add_assoc]
  exact hm (8 + i) (by omega)

variable {m : Mem}

theorem HdrAt.free_iff {t : Tile} (h : HdrAt m a t nxt) : Heap.free m a ≠ 0 ↔ t.free = true := by
  rw [h.free]
  cases t.free <;> simp

theorem Chain.congr {m m' : Mem} {last a : Nat} {ts : List Tile} (h : Chain m last a ts)
    (hm : ∀ u ∈ placed a ts, ∀ i < 12, m' (u.1 + i) = m (u.1 + i)) : Chain m' last a ts := by
  induction ts generalizing a with
  | nil => trivial
  | cons t ts ih =>
    obtain ⟨hhd, htl⟩ := h
    exact ⟨hhd.congr (hm (a, t) mem_cons_self), ih htl (forall_mem_cons.1 hm).2⟩

theorem chain_append {last : Nat} {as bs : List Tile} : Chain m last a (as ++ bs) ↔
      Chain m (if bs = [] then last else a + total as) a as ∧ Chain m last (a + total as) bs := by
  induction as generalizing a with
  | nil => simp [Chain]
  | cons t as ih => ?_
  rw [cons_append, Chain, Chain, ih, total_cons, ← Nat.add_assoc, and_assoc]
  have hnext : (if as ++ bs = [] then last else a + t.size) =
      if as = [] then (if bs = [] then last else a + t.size + total as) else a + t.size := by
    by_cases has : as = []
    · subst has
      simp
    rw [if_neg (by simp [has]), if_neg has]
  rw [hnext]

/-- The blocks before and behind one that is changed keep their headers. -/
theorem placed_clear {a n : Nat} {pre post : List Tile} (hbig : ∀ t ∈ pre ++ post, 12 ≤ t.size)
    {u : Nat × Tile} (hu : u ∈ placed a pre ∨ u ∈ placed (a + total pre + n) post) :
    u.1 + 12 ≤ a + total pre ∨ a + total pre + n ≤ u.1 := by
  rcases hu with hu | hu
  · have hrange := placed_range hu
    have hmem : u.2 ∈ pre := by
      rw [← placed_map_snd a pre]
      exact mem_map_of_mem hu
    have := hbig u.2 (mem_append_left _ hmem)
    omega
  have hrange := placed_range hu
  exact .inr hrange.1

theorem Chain.replace {m m' : Mem} {a : Nat} {pre old new post : List Tile}
    (h : Chain m 0 a (pre ++ old ++ post)) (hbig : ∀ t ∈ pre ++ post, 12 ≤ t.size)
    (hold : old ≠ []) (hnew : new ≠ []) (htotal : total new = total old)
    (hchain : Chain m' (if post = [] then 0 else a + total pre + total old) (a + total pre) new)
    (hm : ∀ x, x < a + total pre ∨ a + total pre + total old ≤ x → m' x = m x) :
    Chain m' 0 a (pre ++ new ++ post) := by
  have hkeep : ∀ u, u ∈ placed a pre ∨ u ∈ placed (a + total pre + total old) post →
      ∀ i < 12, m' (u.1 + i) = m (u.1 + i) := by
    intro u hu i hi
    have := placed_clear hbig hu
    exact hm _ (by omega)
  rw [chain_append, chain_append] at h ⊢
  rw [total_append] at h ⊢
  rw [htotal]
  rw [if_neg hold] at h
  rw [if_neg hnew]
  rw [← Nat.add_assoc] at h ⊢
  obtain ⟨⟨hpre, -⟩, hpost⟩ := h
  exact ⟨⟨hpre.congr fun u hu => hkeep u (.inl hu), hchain⟩, hpost.congr fun u hu => hkeep u (.inr hu)⟩

/-- Following the `next` words gives the tiles. -/
theorem Chain.walk_eq (h : Chain m 0 a ts) (ha : 0 < a) (hf : ts.length < f) (hne : ts ≠ []) : walk m f a = placed a ts := by
  induction ts generalizing a f with
  | nil => exact absurd rfl hne
  | cons t ts ih => ?_
  obtain _ | f := f
  · omega
  obtain ⟨hhd, htl⟩ := h
  have htile : (⟨size m a, free m a != 0⟩ : Tile) = t := by
    rw [hhd.size, hhd.free]
    cases t with
    | mk s b => cases b <;> rfl
  rw [walk, if_neg (by omega), htile, placed, hhd.next]
  congr 1
  by_cases hts : ts = []
  · subst hts
    rw [if_pos rfl]
    rw [length_singleton] at hf
    obtain _ | f := f
    · omega
    rw [walk, if_pos rfl]
    rfl
  rw [if_neg hts]
  rw [length_cons] at hf
  exact ih htl (by omega) (by omega) hts

/-- The search ends at the first free tile that is large enough, or at 0. -/
theorem Chain.findFit_cases (h : Chain m 0 a ts) (ha : 0 < a) (hf : ts.length < f) (hne : ts ≠ []) :
    findFit m n f a = 0 ∧ (∀ t ∈ ts, ¬ (t.free = true ∧ n ≤ t.size)) ∨ ∃ pre c post, ts = pre ++ [c] ++ post ∧ c.free = true ∧ n ≤ c.size ∧
      findFit m n f a = a + total pre := by
  induction ts generalizing a f with
  | nil => exact absurd rfl hne
  | cons t ts ih => ?_
  obtain _ | f := f
  · omega
  obtain ⟨hhd, htl⟩ := h
  have hiff : (free m a ≠ 0 ∧ n ≤ size m a) ↔ t.free = true ∧ n ≤ t.size := by
    rw [hhd.free_iff, hhd.size]
  rw [findFit, if_neg (by omega)]
  by_cases hfit : t.free = true ∧ n ≤ t.size
  · rw [if_pos (hiff.2 hfit)]
    exact .inr ⟨[], t, ts, rfl, hfit.1, hfit.2, rfl⟩
  rw [if_neg (mt hiff.1 hfit), hhd.next]
  by_cases hts : ts = []
  · subst hts
    rw [if_pos rfl]
    rw [length_singleton] at hf
    obtain _ | f := f
    · omega
    rw [findFit, if_pos rfl]
    exact .inl ⟨rfl, by simpa using hfit⟩
  rw [if_neg hts]
  rw [length_cons] at hf
  rcases ih htl (by omega) (show ts.length < f by omega) hts with ⟨h0, hno⟩ | ⟨pre, c, post, rfl, hc, hn, heq⟩
  · exact .inl ⟨h0, forall_mem_cons.2 ⟨hfit, hno⟩⟩
  refine .inr ⟨t :: pre, c, post, rfl, hc, hn, ?_⟩
  rw [heq, total_cons, Nat.add_assoc]

/-! ## Changing headers -/

section Write

variable {m : Mem} {a v nxt : Nat} {t : Tile}

theorem setSize_of_ne (h : x < a ∨ a + 12 ≤ x) : setSize m a v x = m x :=
  w32_of_ne (by omega)

theorem setNext_of_ne (h : x < a ∨ a + 12 ≤ x) : setNext m a v x = m x :=
  w32_of_ne (by omega)

theorem setFree_of_ne {w : UInt8} (h : x < a ∨ a + 12 ≤ x) : setFree m a w x = m x :=
  if_neg (by omega)

theorem HdrAt.setSize (h : HdrAt m a t nxt) (hv : v < 4294967296) :
    HdrAt (Heap.setSize m a v) a ⟨v, t.free⟩ nxt := by
  refine ⟨r32_w32_self hv, ?_, ?_⟩
  · rw [← h.free]
    exact w32_of_ne (by omega)
  rw [← h.next]
  exact r32_w32_of_ne (by omega)

theorem HdrAt.setNext (h : HdrAt m a t nxt) (hv : v < 4294967296) : HdrAt (Heap.setNext m a v) a t v := by
  refine ⟨?_, ?_, r32_w32_self hv⟩
  · rw [← h.size]
    exact r32_w32_of_ne (by omega)
  rw [← h.free]
  exact w32_of_ne (by omega)

theorem HdrAt.setFree (h : HdrAt m a t nxt) (w : Bool) :
    HdrAt (Heap.setFree m a (if w then 1 else 0)) a ⟨t.size, w⟩ nxt := by
  refine ⟨?_, ?_, ?_⟩
  · rw [← h.size]
    exact r32_congr fun i hi => if_neg (by omega)
  · exact if_pos rfl
  rw [← h.next]
  exact r32_congr fun i hi => if_neg (by omega)

/-- The three writes that make a new header. -/
theorem hdrAt_new (hv : v < 4294967296) (hn : nxt < 4294967296) :
    HdrAt (Heap.setNext (Heap.setFree (Heap.setSize m a v) a 1) a nxt) a ⟨v, true⟩ nxt := by
  refine ⟨?_, ?_, r32_w32_self hn⟩
  · calc (Heap.setNext (Heap.setFree (Heap.setSize m a v) a 1) a nxt).r32 a
        = (Heap.setFree (Heap.setSize m a v) a 1).r32 a := r32_w32_of_ne (by omega)
      _ = (Heap.setSize m a v).r32 a := r32_congr fun i hi => if_neg (by omega)
      _ = v := r32_w32_self hv
  calc Heap.setNext (Heap.setFree (Heap.setSize m a v) a 1) a nxt (a + 4)
      = Heap.setFree (Heap.setSize m a v) a 1 (a + 4) := w32_of_ne (by omega)
    _ = 1 := if_pos rfl

end Write

/-! ## Allocating -/

/-- The tiles that `heap_alloc` leaves in place of a free one. -/
def cut (n : Nat) (c : Tile) : List Tile :=
  if n + 16 ≤ c.size then [⟨n, false⟩, ⟨c.size - n, true⟩] else [⟨c.size, false⟩]

theorem cut_cases (n : Nat) (c : Tile) :
    cut n c = [⟨c.size, false⟩] ∨ ∃ k l, cut n c = [⟨k, false⟩, ⟨l, true⟩] := by
  unfold cut
  split
  · exact .inr ⟨_, _, rfl⟩
  · exact .inl rfl

theorem total_cut (n : Nat) (c : Tile) : total (cut n c) = c.size := by
  unfold cut
  split
  · show n + (c.size - n + 0) = c.size
    omega
  rfl

theorem cut_least (hn : 12 ≤ n) (hc : n ≤ c.size) : ∀ t ∈ cut n c, 12 ≤ t.size := by
  unfold cut
  split
  next hroom =>
    refine forall_mem_cons.2 ⟨hn, forall_mem_singleton.2 ?_⟩
    show 12 ≤ c.size - n
    omega
  · exact forall_mem_singleton.2 (le_trans hn hc)

/-- What `heap_alloc` takes out of a free block. -/
theorem usedAt_cut (n p : Nat) (c : Tile) : ∃ k, usedAt p (cut n c) = [(p, k)] ∧ (n ≤ c.size → n ≤ k) := by
  unfold cut
  split
  · exact ⟨n, rfl, fun _ => le_refl n⟩
  · exact ⟨c.size, rfl, id⟩

/-- The block is cut, and nothing outside it changes. -/
theorem useBlock_spec {p : Nat} (h : HdrAt m p c nxt) (hn : 12 ≤ n)
    (hc : n ≤ c.size) (hsize : c.size + 16 < 4294967296) (hp : p + c.size ≤ 4294967296)
    (hnxt : nxt < 4294967296) :
    Chain (useBlock m p n) nxt p (cut n c) ∧ ∀ x, x < p ∨ p + c.size ≤ x → useBlock m p n x = m x := by
  have hadd : add32 (add32 n headerSize) 4 = n + 16 := by
    unfold add32 headerSize
    omega
  unfold useBlock cut
  rw [hadd, h.size]
  by_cases hroom : n + 16 ≤ c.size
  · rw [if_pos hroom, if_pos hroom]
    have hnew : add32 p n = p + n := by
      unfold add32
      omega
    have hsub : sub32 c.size n = c.size - n := by
      unfold sub32
      omega
    simp only [hnew, hsub]
    generalize hm2 : setFree (setSize m (p + n) (c.size - n)) (p + n) 1 = m2
    have hm2x : ∀ x, x < p + n ∨ p + n + 12 ≤ x → m2 x = m x := by
      intro x hx
      rw [← hm2, setFree_of_ne hx, setSize_of_ne hx]
    have hnext : next m2 p = nxt := (h.congr fun i hi => hm2x (p + i) (by omega)).next
    rw [hnext]
    generalize hm3 : setNext m2 (p + n) nxt = m3
    have hrest : HdrAt m3 (p + n) ⟨c.size - n, true⟩ nxt := by
      rw [← hm3, ← hm2]
      exact hdrAt_new (by omega) hnxt
    have hm3x : ∀ x, x < p + n ∨ p + n + 12 ≤ x → m3 x = m x := by
      intro x hx
      rw [← hm3, setNext_of_ne hx, hm2x x hx]
    -- the three writes to the first header leave the second one alone
    have hm6x : ∀ x, x < p ∨ p + 12 ≤ x → setFree (setNext (setSize m3 p n) p (p + n)) p 0 x = m3 x := by
      intro x hx
      rw [setFree_of_ne hx, setNext_of_ne hx, setSize_of_ne hx]
    have hfirst := ((h.congr fun i hi => hm3x (p + i) (by omega)).setSize
      (show n < 4294967296 by omega)).setNext (show p + n < 4294967296 by omega)
    refine ⟨⟨?_, ?_⟩, fun x hx => ?_⟩
    · rw [if_neg (cons_ne_nil _ _)]
      exact hfirst.setFree false
    · refine ⟨?_, trivial⟩
      rw [if_pos rfl]
      exact hrest.congr fun i hi => hm6x (p + n + i) (by omega)
    rw [hm6x x (by omega), hm3x x (by omega)]
  rw [if_neg hroom, if_neg hroom]
  refine ⟨⟨?_, trivial⟩, fun x hx => setFree_of_ne (by omega)⟩
  rw [if_pos rfl]
  exact h.setFree false

/-! ## Freeing -/

/-- The loop of `heap_free` joins free neighbours from its block on and leaves what is before. -/
theorem coalesce_spec {a : Nat} {c : Tile} {rest : List Tile}
    (h : Chain m 0 a (c :: rest)) (ha : 0 < a) (hbig : ∀ t ∈ c :: rest, 12 ≤ t.size)
    (hend : a + total (c :: rest) ≤ 4294967296) {f : Nat} (hf : rest.length < f) :
    Chain (coalesce m f a) 0 a (mergeFrom c rest) ∧ ∀ x < a, coalesce m f a x = m x := by
  induction rest generalizing m a c f with
  | nil =>
    obtain _ | f := f
    · omega
    have hstop : ¬ (a ≠ 0 ∧ next m a ≠ 0) := fun hgo => hgo.2 h.1.next
    rw [coalesce, if_neg hstop]
    exact ⟨h, fun x _ => rfl⟩
  | cons d rest ih => ?_
  obtain _ | f := f
  · omega
  obtain ⟨hhd, hd, htl⟩ := h
  rw [if_neg (cons_ne_nil _ _)] at hhd
  obtain ⟨hc12, hbig'⟩ := forall_mem_cons.1 hbig
  rw [total_cons, total_cons] at hend
  rw [length_cons] at hf
  have hgo : a ≠ 0 ∧ next m a ≠ 0 := by
    rw [hhd.next]
    omega
  have hiff : (free m a ≠ 0 ∧ free m (next m a) ≠ 0) ↔ c.free = true ∧ d.free = true := by
    rw [hhd.free_iff, hhd.next, hd.free_iff]
  rw [coalesce, if_pos hgo, mergeFrom]
  by_cases hboth : c.free = true ∧ d.free = true
  · -- the second header is swallowed: its space now belongs to the first block
    rw [if_pos (hiff.2 hboth), if_pos hboth]
    have hsum : add32 (size m a) (size m (next m a)) = c.size + d.size := by
      rw [hhd.next, hhd.size, hd.size, add32]
      exact Nat.mod_eq_of_lt (by omega)
    simp only [hsum]
    have hh1 := hhd.setSize (show c.size + d.size < 4294967296 by omega)
    have hd1 := @HdrAt.congr _ (setSize m a (c.size + d.size)) _ _ _ hd fun i hi =>
      setSize_of_ne (by omega)
    rw [hh1.next, hd1.next]
    have hnlt : (if rest = [] then 0 else a + c.size + d.size) < 4294967296 := by
      split
      · omega
      next hne =>
      obtain ⟨e, es, rfl⟩ := exists_cons_of_ne_nil hne
      have he := hbig' e (mem_cons_of_mem _ mem_cons_self)
      rw [total_cons] at hend
      omega
    have hh2 := hh1.setNext hnlt
    generalize hm2 : setNext (setSize m a (c.size + d.size)) a _ = m2 at hh2 ⊢
    have hm2x : ∀ x, x < a ∨ a + 12 ≤ x → m2 x = m x := by
      intro x hx
      rw [← hm2, setNext_of_ne hx, setSize_of_ne hx]
    have hchain : Chain m2 0 a (⟨c.size + d.size, true⟩ :: rest) := by
      refine ⟨?_, ?_⟩
      · rw [← hboth.1, ← Nat.add_assoc]
        exact hh2
      rw [← Nat.add_assoc]
      refine htl.congr fun u hu i hi => hm2x _ ?_
      have := placed_range hu
      omega
    obtain ⟨hres, hframe⟩ := ih hchain ha (forall_mem_cons.2 ⟨by show 12 ≤ c.size + d.size; omega,
        fun t ht => hbig' t (mem_cons_of_mem _ ht)⟩)
      (by rw [total_cons]; show a + (c.size + d.size + total rest) ≤ _; omega)
      (show rest.length < f by omega)
    exact ⟨hres, fun x hx => (hframe x hx).trans (hm2x x (.inl hx))⟩
  rw [if_neg (mt hiff.1 hboth), if_neg hboth, hhd.next]
  obtain ⟨hres, hframe⟩ := @ih m (a + c.size) d ⟨hd, htl⟩ (by omega) hbig'
    (by rw [total_cons]; omega) f (by omega)
  refine ⟨⟨?_, hres⟩, fun x hx => hframe x (by omega)⟩
  rw [if_neg (mergeFrom_ne_nil d rest)]
  exact hhd.congr fun i hi => hframe _ (by omega)

end Heap

end Embedded.Rtos
