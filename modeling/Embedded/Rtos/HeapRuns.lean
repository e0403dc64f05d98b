import Embedded.Rtos.Heap
import Embedded.Lib.BlockList
import Embedded.Lib.Run

/-! # Runs of the RTOS heap

Callers of `heap_alloc` and `heap_free` in any order, writing to what they were given. The blocks tile
the arena in every state such a run reaches, no two free ones are neighbours, and the blocks in use
are those given out; so freeing everything, in any order, leaves one free block. -/

namespace Embedded.Rtos

open Tiling Heap
open List

variable {e : Nat × Nat} {ar : Arena} {s : HeapRun}

/-! ## The invariant -/

/-- An arena the heap is set up in: it holds a header, it is not at the start of the address space,
where the vectors are, and its end is an address. -/
structure Arena where
  mem : Nat
  size : Nat
  header : 12 ≤ size
  low : 16 < mem
  high : mem + size < 4294967296

/-- The heap is the tiling `ts`; the pointers `live` are given out, each with the size it was asked
for. -/
structure HeapInv (ar : Arena) (h : Heap) (ts : List Tile) (live : List (Nat × Nat)) : Prop where
  start : h.start = ar.mem
  chain : Chain h.mem 0 ar.mem ts
  total : total ts = ar.size
  least : ∀ t ∈ ts, 12 ≤ t.size
  pairs : NoFreePair ts
  used : ((usedAt ar.mem ts).map fun u => u.1 + 12).Perm (live.map Prod.fst)
  large : ∀ e ∈ live, ∃ u ∈ usedAt ar.mem ts, u.1 + 12 = e.1 ∧ 12 + e.2 ≤ u.2

theorem blockSize_eq {n : Nat} (hn : (n + 3) / 4 * 4 + 12 < 4294967296) :
    blockSize n = (n + 3) / 4 * 4 + 12 := by
  unfold blockSize add32 headerSize
  omega

theorem length_le_total {ts : List Tile} (h : ∀ t ∈ ts, 12 ≤ t.size) : 12 * ts.length ≤ Tiling.total ts := by
  induction ts with
  | nil => exact le_refl 0
  | cons t ts ih => ?_
  obtain ⟨ht, hts⟩ := forall_mem_cons.1 h
  have := ih hts
  rw [length_cons, total_cons]
  omega

namespace HeapInv

variable {ar : Arena} {h : Heap} {ts : List Tile} {live : List (Nat × Nat)}

theorem least_of_split {pre post : List Tile} {c : Tile}
    (inv : HeapInv ar h (pre ++ [c] ++ post) live) : ∀ t ∈ pre ++ post, 12 ≤ t.size := by
  intro t ht
  refine inv.least t ?_
  rcases mem_append.1 ht with ht | ht
  · exact mem_append_left _ (mem_append_left _ ht)
  · exact mem_append_right _ ht

variable (inv : HeapInv ar h ts live)
include inv

theorem ne_nil : ts ≠ [] := by
  rintro rfl
  have htotal := inv.total
  have := ar.header
  rw [total_nil] at htotal
  omega

theorem length_lt : ts.length < maxBlocks := by
  have hlen := length_le_total inv.least
  have := ar.high
  rw [inv.total] at hlen
  unfold maxBlocks
  omega

theorem blocks_eq : h.blocks = placed ar.mem ts := by
  rw [Heap.blocks, inv.start]
  exact inv.chain.walk_eq (by have := ar.low; omega) inv.length_lt inv.ne_nil

omit inv in
theorem init (ar : Arena) (m : Mem) : HeapInv ar (heapInit m ar.mem ar.size) [⟨ar.size, true⟩] [] := by
  have hhigh := ar.high
  refine ⟨rfl, ⟨?_, trivial⟩, rfl, forall_mem_singleton.2 ar.header,
    isChain_singleton _, List.Perm.nil, forall_mem_nil _⟩
  rw [if_pos rfl]
  exact hdrAt_new (by omega) (by omega)

theorem nodup : (live.map Prod.fst).Nodup := by
  refine inv.used.nodup_iff.1 ?_
  rw [nodup_iff_pairwise_ne, pairwise_map]
  have hpos : ∀ u ∈ usedAt ar.mem ts, 0 < u.2 := by
    intro u hu
    obtain ⟨pre, post, hts, -⟩ := usedAt_split hu
    have := inv.least ⟨u.2, false⟩ (by rw [hts]; simp)
    exact lt_of_lt_of_le (by decide) this
  refine (usedAt_pairwise ar.mem ts).imp_of_mem fun {u v} hu _ huv => ?_
  have := hpos u hu
  omega

/-! ## The operations -/

/-- A request whose size does not wrap is answered with a new block or with NULL. -/
theorem alloc {n : Nat} (hn : (n + 3) / 4 * 4 + 12 < 4294967296) :
    ((heapAlloc h n).1 = 0 ∧ (heapAlloc h n).2 = h) ∨
    ((heapAlloc h n).1 ≠ 0 ∧ ∃ ts', HeapInv ar (heapAlloc h n).2 ts' (((heapAlloc h n).1, n) :: live)) := by
  have hhigh := ar.high
  have hlow := ar.low
  unfold heapAlloc
  rw [blockSize_eq hn, inv.start]
  generalize hk : (n + 3) / 4 * 4 + 12 = k at hn
  rcases inv.chain.findFit_cases (n := k) (by omega) inv.length_lt inv.ne_nil with
    ⟨h0, -⟩ | ⟨pre, c, post, rfl, hfree, hkc, hp⟩
  · exact .inl ⟨by simp only [h0, if_true], by simp only [h0, if_true]⟩
  right
  have htotal := inv.total
  rw [total_append, total_append] at htotal
  have hc : Tiling.total [c] = c.size := rfl
  have hne : ar.mem + Tiling.total pre ≠ 0 := by omega
  have hptr : add32 (ar.mem + Tiling.total pre) headerSize = ar.mem + Tiling.total pre + 12 := by
    unfold add32 headerSize
    omega
  simp only [hp, if_neg hne, hptr]
  have hbig := inv.least_of_split
  have hchain := inv.chain
  rw [chain_append, chain_append] at hchain
  obtain ⟨⟨-, hhd, -⟩, -⟩ := hchain
  rw [if_pos rfl, total_append, hc, ← add_assoc] at hhd
  have hnxt : (if post = [] then 0 else ar.mem + Tiling.total pre + c.size) < 4294967296 := by
    split
    · omega
    next hpost =>
    omega
  -- the blocks in use are those before and the new one
  have hsame : usedAt ar.mem (pre ++ [c] ++ post) =
      usedAt ar.mem pre ++ usedAt (ar.mem + Tiling.total pre + c.size) post := by
    rw [usedAt_append, usedAt_append, total_append, hc, usedAt, if_pos hfree, ← add_assoc]
    rw [usedAt, append_nil]
  obtain ⟨l, hused, hlarge⟩ := usedAt_cut k (ar.mem + Tiling.total pre) c
  obtain ⟨hcut, hframe⟩ := useBlock_spec hhd (by omega) hkc (by omega) (by omega) hnxt
  refine ⟨by omega, pre ++ cut k c ++ post, ⟨rfl, ?_, ?_, ?_, ?_, ?_, ?_⟩⟩
  · refine inv.chain.replace hbig (cons_ne_nil _ _) ?_ (total_cut k c) hcut hframe
    rcases cut_cases k c with hcs | ⟨i, j, hcs⟩ <;> simp [hcs]
  · rw [total_append, total_append, total_cut k c]
    exact htotal
  · rw [forall_mem_append] at hbig
    exact forall_mem_append.2 ⟨forall_mem_append.2 ⟨hbig.1, cut_least (by omega) hkc⟩, hbig.2⟩
  · exact inv.pairs.carve hfree (cut_cases k c)
  · rw [usedAt_append, usedAt_append, hused, total_append, total_cut, append_assoc,
      map_append, singleton_append, map_cons, ← add_assoc]
    refine perm_middle.trans (List.Perm.cons _ ?_)
    rw [← map_append, ← hsame]
    exact inv.used
  refine forall_mem_cons.2 ⟨⟨(ar.mem + Tiling.total pre, l), ?_, rfl, ?_⟩, fun e he => ?_⟩
  · rw [usedAt_append, usedAt_append, hused]
    exact mem_append_left _ (mem_append_right _ mem_cons_self)
  · have := hlarge hkc
    omega
  obtain ⟨u, hu, heq, hle⟩ := inv.large e he
  refine ⟨u, ?_, heq, hle⟩
  rw [hsame] at hu
  rw [usedAt_append, usedAt_append, total_append, total_cut, ← add_assoc]
  rcases mem_append.1 hu with hu | hu
  · exact mem_append_left _ (mem_append_left _ hu)
  · exact mem_append_right _ hu

theorem free (he : e ∈ live) : ∃ ts', HeapInv ar (heapFree h e.1) ts' (dropPtr e.1 live) := by
  have hhigh := ar.high
  have hlow := ar.low
  obtain ⟨u, hu, heq, -⟩ := inv.large e he
  obtain ⟨pre, post, rfl, hup⟩ := usedAt_split hu
  generalize hc : Tile.mk u.2 false = c at inv hu
  have hcsize : c.size = u.2 := by rw [← hc]
  have hone : Tiling.total [c] = c.size := rfl
  have hone' : Tiling.total [⟨c.size, true⟩] = c.size := rfl
  have htotal := inv.total
  rw [total_append, total_append, hone] at htotal
  have hbig := inv.least_of_split
  have hc12 : 12 ≤ c.size := inv.least c (by simp)
  have hchain := inv.chain
  rw [chain_append, chain_append] at hchain
  obtain ⟨⟨-, hhd, -⟩, -⟩ := hchain
  rw [if_pos rfl, total_append, hone, ← add_assoc] at hhd
  -- the block is marked, then the whole list is gone through
  have hmark : Chain (setFree h.mem u.1 1) 0 ar.mem (pre ++ [⟨c.size, true⟩] ++ post) := by
    refine inv.chain.replace hbig (cons_ne_nil _ _) (cons_ne_nil _ _) rfl ⟨?_, trivial⟩ fun x hx => ?_
    · rw [if_pos rfl, hup]
      exact hhd.setFree true
    rw [hup]
    exact setFree_of_ne (by omega)
  obtain ⟨d, rest, hd⟩ := exists_cons_of_ne_nil (show pre ++ [(⟨c.size, true⟩ : Tile)] ++ post ≠ [] by simp)
  have hleast : ∀ t ∈ d :: rest, 12 ≤ t.size := by
    rw [forall_mem_append] at hbig
    rw [← hd]
    exact forall_mem_append.2 ⟨forall_mem_append.2 ⟨hbig.1, forall_mem_singleton.2 hc12⟩, hbig.2⟩
  have hsize : Tiling.total (d :: rest) = ar.size := by
    rw [← hd, total_append, total_append, hone']
    exact htotal
  have hlen : rest.length < maxBlocks := by
    have := length_le_total hleast
    rw [hsize, length_cons] at this
    unfold maxBlocks
    omega
  rw [hd] at hmark
  obtain ⟨hres, -⟩ := coalesce_spec hmark (by omega) hleast (by rw [hsize]; omega) hlen
  have hptr : e.1 ≠ 0 := by omega
  have hsub : sub32 e.1 headerSize = u.1 := by
    unfold sub32 headerSize
    omega
  -- the blocks in use are the others
  have hused : usedAt ar.mem (mergeFrom d rest) =
      usedAt ar.mem pre ++ usedAt (ar.mem + Tiling.total pre + c.size) post := by
    rw [usedAt_mergeFrom, ← hd, usedAt_append, usedAt_append, total_append, hone', usedAt,
      if_pos rfl, ← add_assoc, usedAt, append_nil]
  have hbefore : usedAt ar.mem (pre ++ [c] ++ post) =
      usedAt ar.mem pre ++ (u :: usedAt (ar.mem + Tiling.total pre + c.size) post) := by
    have hcf : c.free = false := by rw [← hc]
    rw [usedAt_append, usedAt_append, total_append, hone, usedAt, if_neg (by rw [hcf]; decide),
      usedAt, ← add_assoc, append_assoc, hcsize, ← hup]
    rfl
  refine ⟨mergeFrom d rest, ?_⟩
  unfold heapFree
  rw [if_neg hptr, hsub, inv.start]
  refine ⟨rfl, hres, ?_, ?_, mergeFrom_noFreePair d rest, ?_, ?_⟩
  · rw [total_mergeFrom]
    exact hsize
  · obtain ⟨hd12, hrest⟩ := forall_mem_cons.1 hleast
    exact mergeFrom_least hd12 hrest
  · have hperm := inv.used
    rw [hbefore, map_append, map_cons] at hperm
    have hcons := (perm_middle.symm.trans hperm).erase (u.1 + 12)
    rw [erase_cons_head, inv.nodup.erase_eq_filter, heq] at hcons
    rw [hused, map_append, dropPtr]
    have hfilter : (live.filter fun x => x.1 != e.1).map Prod.fst =
        (live.map Prod.fst).filter fun x => x != e.1 := by
      rw [filter_map]
      rfl
    rw [hfilter]
    exact hcons
  intro e' he'
  have hne := not_mem_dropPtr e' he'
  obtain ⟨v, hv, hveq, hvle⟩ := inv.large e' (mem_of_mem_filter he')
  refine ⟨v, ?_, hveq, hvle⟩
  rw [hused]
  rw [hbefore] at hv
  rcases mem_append.1 hv with hv | hv
  · exact mem_append_left _ hv
  rcases mem_cons.1 hv with rfl | hv
  · exact absurd (hveq.symm.trans heq) hne
  · exact mem_append_right _ hv

theorem store (he : e ∈ live) {x : Nat} (hx : e.1 ≤ x ∧ x < e.1 + e.2) (v : UInt8) :
    HeapInv ar { h with mem := h.mem.w8 x v } ts live := by
  obtain ⟨u, hu, heq, hle⟩ := inv.large e he
  obtain ⟨pre, post, rfl, hup⟩ := usedAt_split hu
  refine { inv with chain := inv.chain.congr fun w hw i hi => if_neg ?_ }
  -- a header is the one of this block, or outside of it
  have hbig := inv.least_of_split
  rw [placed_append, placed_append, total_append] at hw
  rcases mem_append.1 hw with hw | hw
  · rcases mem_append.1 hw with hw | hw
    · have := @placed_clear ar.mem u.2 pre post hbig w (.inl hw)
      omega
    obtain rfl := mem_singleton.1 hw
    omega
  have := @placed_clear ar.mem u.2 pre post hbig w (.inr (by rw [add_assoc]; exact hw))
  omega

omit inv

/-- When nothing is given out, the heap is one free block. -/
theorem single (inv : HeapInv ar h ts []) : h.blocks = [(ar.mem, ⟨ar.size, true⟩)] := by
  have hnone : usedAt ar.mem ts = [] := by
    have := inv.used.length_eq
    rw [length_map, map_nil, length_nil] at this
    exact eq_nil_of_length_eq_zero this
  have hts := inv.pairs.single (usedAt_eq_nil hnone) inv.ne_nil
  rw [inv.blocks_eq, hts, inv.total]
  rfl

end HeapInv

/-! ## Runs -/

/-- The heap and the pointers given out, each with the size it was asked for. -/
structure HeapRun where
  heap : Heap
  live : List (Nat × Nat)

inductive HeapOp
  | alloc (n : Nat)
  | free (ptr : Nat)
  /-- A caller stores a byte. -/
  | store (x : Nat) (v : UInt8)

def HeapRun.step (s : HeapRun) : HeapOp → HeapRun
  | .alloc n =>
    let r := heapAlloc s.heap n
    ⟨r.2, if r.1 = 0 then s.live else (r.1, n) :: s.live⟩
  | .free ptr => ⟨heapFree s.heap ptr, dropPtr ptr s.live⟩
  | .store x v => ⟨{ s.heap with mem := s.heap.mem.w8 x v }, s.live⟩

/-- `heap_init` has just been called. -/
def HeapRun.Init (ar : Arena) (s : HeapRun) : Prop :=
  ∃ m, s = ⟨heapInit m ar.mem ar.size, []⟩

/-- Callers ask for sizes that do not wrap, free what they were given and store inside of it. -/
def HeapOp.ok (s : HeapRun) : HeapOp → Prop
  | .alloc n => (n + 3) / 4 * 4 + 12 < 4294967296
  | .free ptr => ptr ∈ s.live.map Prod.fst
  | .store x _ => ∃ e ∈ s.live, e.1 ≤ x ∧ x < e.1 + e.2

/-- What the heap promises. -/
structure HeapSound (ar : Arena) (s : HeapRun) : Prop where
  /-- The blocks tile the arena exactly. -/
  tile : Tiles ar.mem s.heap.blocks (ar.mem + ar.size)
  /-- No two neighbouring blocks are both free. -/
  pairs : s.heap.blocks.IsChain fun b c => ¬ (b.2.free = true ∧ c.2.free = true)
  /-- The payloads are pairwise disjoint. -/
  disjoint : s.live.Pairwise fun e e' => e.1 + e.2 ≤ e'.1 ∨ e'.1 + e'.2 ≤ e.1
  /-- A payload is inside a block in use, behind its header, and as large as requested. -/
  large : ∀ e ∈ s.live, ∃ b ∈ s.heap.blocks,
    b.2.free = false ∧ e.1 = b.1 + 12 ∧ e.1 + e.2 ≤ b.1 + b.2.size
  /-- Freeing everything in any order leaves one free block. -/
  freeAll : ∀ order : List Nat, order.Perm (s.live.map Prod.fst) →
    (runFrom HeapRun.step s (order.map HeapOp.free)).heap.blocks = [(ar.mem, ⟨ar.size, true⟩)]

/-- The heap is some tiling. -/
def HeapRun.Inv (ar : Arena) (s : HeapRun) : Prop := ∃ ts, HeapInv ar s.heap ts s.live

theorem HeapRun.Inv.init (h : s.Init ar) : s.Inv ar := by
  obtain ⟨m, rfl⟩ := h
  exact ⟨_, HeapInv.init ar m⟩

theorem HeapRun.Inv.step (inv : s.Inv ar) (e : HeapOp) (hok : e.ok s) : (s.step e).Inv ar := by
  obtain ⟨ts, inv⟩ := inv
  cases e with
  | alloc n =>
    unfold HeapRun.step
    rcases inv.alloc hok with ⟨hzero, hsame⟩ | ⟨hne, ts', inv'⟩
    · simp only [hzero, hsame, if_true]
      exact ⟨ts, inv⟩
    simp only [hne, if_false]
    exact ⟨ts', inv'⟩
  | free ptr =>
    obtain ⟨d, hd, rfl⟩ := mem_map.1 hok
    exact inv.free hd
  | store x v =>
    obtain ⟨d, hd, hx⟩ := hok
    exact ⟨ts, inv.store hd hx v⟩

/-- Freeing everything that is live, in any order. -/
theorem HeapRun.Inv.freeAll (inv : s.Inv ar) {order : List Nat} (h : order.Perm (s.live.map Prod.fst)) :
    (runFrom HeapRun.step s (order.map HeapOp.free)).heap.blocks = [(ar.mem, ⟨ar.size, true⟩)] := by
  induction order generalizing s with
  | nil =>
    obtain ⟨ts, inv⟩ := inv
    have hnil : s.live = [] := map_eq_nil_iff.1 (nil_perm.1 h)
    rw [hnil] at inv
    exact inv.single
  | cons p order ih => ?_
  have hp : p ∈ s.live.map Prod.fst := h.subset mem_cons_self
  have hnodup : (s.live.map Prod.fst).Nodup := by
    obtain ⟨ts, inv⟩ := inv
    exact inv.nodup
  refine @ih (s.step (.free p)) (inv.step (.free p) hp) ?_
  have herase := h.erase p
  rw [erase_cons_head, hnodup.erase_eq_filter] at herase
  have hfilter : (s.live.filter fun x => x.1 != p).map Prod.fst =
      (s.live.map Prod.fst).filter fun x => x != p := by
    rw [filter_map]
    rfl
  show order.Perm ((s.live.filter fun x => x.1 != p).map Prod.fst)
  rw [hfilter]
  exact herase

/-- **The RTOS heap over whole runs.** -/
theorem heap_sound {ar : Arena} {s : HeapRun}
    (h : Reachable HeapRun.step (fun s e => HeapOp.ok s e) (HeapRun.Init ar) s) :
    HeapSound ar s := by
  have hinv : s.Inv ar := h.invariant (fun _ => HeapRun.Inv.init) fun _ e hok hi => hi.step e hok
  obtain ⟨ts, inv⟩ := hinv
  have hblocks := inv.blocks_eq
  refine ⟨?_, ?_, ?_, ?_, fun order horder => HeapRun.Inv.freeAll ⟨ts, inv⟩ horder⟩
  · rw [hblocks, ← inv.total]
    exact tiles_placed ar.mem ts
  · rw [hblocks]
    have hpairs := inv.pairs
    rw [← placed_map_snd ar.mem ts] at hpairs
    exact (isChain_map Prod.snd).1 hpairs
  · have hapart : ∀ e ∈ s.live, ∀ e' ∈ s.live, e.1 ≠ e'.1 → e.1 + e.2 ≤ e'.1 ∨ e'.1 + e'.2 ≤ e.1 := by
      intro e he e' he' hne
      obtain ⟨u, hu, heq, hle⟩ := inv.large e he
      obtain ⟨u', hu', heq', hle'⟩ := inv.large e' he'
      have hpair := usedAt_apart hu hu' fun huu => hne (by rw [← heq, ← heq', huu])
      omega
    have hnodup := inv.nodup
    rw [nodup_iff_pairwise_ne, pairwise_map] at hnodup
    exact hnodup.imp_of_mem fun he he' hne => hapart _ he _ he' hne
  intro e he
  obtain ⟨u, hu, heq, hle⟩ := inv.large e he
  obtain ⟨pre, post, hts, hup⟩ := usedAt_split hu
  refine ⟨(u.1, ⟨u.2, false⟩), ?_, rfl, heq.symm, ?_⟩
  · rw [hblocks, hts, hup]
    exact mem_placed_of_split _ _ _ _
  · show e.1 + e.2 ≤ u.1 + u.2
    omega

/-- An arena of 96 bytes. -/
def sampleArena : Arena where
  mem := 0x20000000
  size := 96
  header := by decide
  low := by decide
  high := by decide

/-- Two blocks, the first of which is written to and freed. -/
theorem heap_sound_sample :
    HeapSound sampleArena (runFrom HeapRun.step ⟨heapInit (fun _ => 0) 0x20000000 96, []⟩
      [.alloc 10, .alloc 4, .store 0x20000015 7, .free 0x2000000c]) ∧
    (runFrom HeapRun.step ⟨heapInit (fun _ => 0) 0x20000000 96, []⟩
      [.alloc 10, .alloc 4, .store 0x20000015 7, .free 0x2000000c]).heap.blocks =
      [(0x20000000, ⟨24, true⟩), (0x20000018, ⟨16, false⟩), (0x20000028, ⟨56, true⟩)] := by
  refine ⟨heap_sound (Reachable.runFrom (.init ⟨fun _ => 0, rfl⟩) _ ?_), by decide +kernel⟩
  refine ⟨show (10 + 3) / 4 * 4 + 12 < 4294967296 by decide,
    show (4 + 3) / 4 * 4 + 12 < 4294967296 by decide, ?_, ?_, trivial⟩
  · exact ⟨(0x2000000c, 10), by decide +kernel, by decide, by decide⟩
  · show 0x2000000c ∈ map Prod.fst _
    decide +kernel

/-- **The heap refuses only what it must**: in every state of every run a request is answered with NULL
exactly if no free block has room for it and a header. -/
theorem heapAlloc_null_iff {ar : Arena} {s : HeapRun}
    (h : Reachable HeapRun.step (fun s e => HeapOp.ok s e) (HeapRun.Init ar) s) {n : Nat}
    (hn : (n + 3) / 4 * 4 + 12 < 4294967296) : (heapAlloc s.heap n).1 = 0 ↔
      ∀ b ∈ s.heap.blocks, b.2.free = true → b.2.size < (n + 3) / 4 * 4 + 12 := by
  have hinv : s.Inv ar := h.invariant (fun _ => HeapRun.Inv.init) fun _ e hok hi => hi.step e hok
  obtain ⟨ts, inv⟩ := hinv
  have hlow := ar.low
  have hhigh := ar.high
  unfold heapAlloc
  rw [inv.blocks_eq, blockSize_eq hn, inv.start]
  generalize (n + 3) / 4 * 4 + 12 = k
  rcases inv.chain.findFit_cases (n := k) (by omega) inv.length_lt inv.ne_nil with
    ⟨h0, hno⟩ | ⟨pre, c, post, rfl, hfree, hc, hp⟩
  · refine iff_of_true (by simp only [h0, if_true]) fun b hb hf => ?_
    have hts : b.2 ∈ ts := placed_map_snd ar.mem ts ▸ mem_map_of_mem hb
    have := hno _ hts
    grind
  have hleast := inv.least c (by simp)
  have htotal := inv.total
  rw [total_append, total_append, total_cons] at htotal
  refine iff_of_false ?_ fun hall => ?_
  · simp only [hp, if_neg (show ar.mem + Tiling.total pre ≠ 0 by omega), add32, headerSize]
    omega
  · exact absurd (hall _ (mem_placed_of_split _ pre post c) hfree) (not_lt.2 hc)

theorem heapAlloc_null_iff_fresh : (heapAlloc (heapInit (fun _ => 0) 0x20000000 96) 88).1 = 0 :=
  (@heapAlloc_null_iff sampleArena _ (.init ⟨fun _ => 0, rfl⟩) 88 (by decide)).2 (by decide +kernel)

end Embedded.Rtos
