import Embedded.Libc.Malloc

/-! # Runs of the user heap

A program that calls `malloc`, `calloc`, `realloc` and `free` in any order and stores into what it was
given. `lheap_sound` is what holds in every state a run reaches whose requests all fit above the
break; `malloc_wraps` is what a request near the word size does. -/

namespace Embedded.Libc

/-- The heap and the pointers given out, each with the size it was asked for. -/
structure LRun where
  heap : LHeap
  live : List (Nat × Nat)

/-- The calls; `room` is whether the kernel has pages left. -/
inductive LCall
  | malloc (n : Nat) (room : Bool)
  | calloc (nmemb size : Nat) (room : Bool)
  | realloc (p n : Nat) (room : Bool)
  | free (p : Nat)

inductive LOp
  | call (c : LCall)
  /-- The program stores a byte. -/
  | store (x : Nat) (v : UInt8)

/-- A pointer returned is live from then on. -/
def LRun.give (s : LRun) (r : Nat × LHeap) (n : Nat) : LRun :=
  ⟨r.2, if r.1 = 0 then s.live else (r.1, n) :: s.live⟩

def LRun.call (s : LRun) : LCall → LRun
  | .malloc n room => s.give (Libc.malloc s.heap n room) n
  | .calloc nmemb size room => s.give (Libc.calloc s.heap nmemb size room) (nmemb * size)
  | .realloc p n room =>
    let r := Libc.realloc s.heap p n room
    ⟨r.2, if n = 0 then dropPtr p s.live else swapPtr p r.1 n s.live⟩
  | .free p => ⟨Libc.free s.heap p, dropPtr p s.live⟩

def LRun.step (s : LRun) : LOp → LRun
  | .call c => s.call c
  | .store x v => { s with heap := { s.heap with mem := s.heap.mem.w8 x v } }

/-- Nothing allocated yet, the break where `exec` has put it. -/
def LRun.Init (s : LRun) : Prop :=
  s.heap.sys.Ok ∧ s.heap.head = 0 ∧ s.heap.curBrk = 0 ∧ s.live = []

/-- The pointer a call is about. -/
def LCall.about : LCall → Nat
  | .malloc _ _ => 0
  | .calloc _ _ _ => 0
  | .realloc p _ _ => p
  | .free p => p

/-- Callers pass live pointers, or NULL. -/
def LCall.legal (s : LRun) (c : LCall) : Prop := c.about = 0 ∨ c.about ∈ s.live.map Prod.fst

/-- What a call asks for fits above the break, rounded and with its header, without wrapping. -/
def LCall.fits (s : LRun) : LCall → Prop
  | .malloc n _ => Fits s.heap n
  | .calloc nmemb size _ => nmemb * size < 4294967296 → Fits s.heap (nmemb * size)
  | .realloc _ n _ => Fits s.heap n
  | .free _ => True

def LOp.ok (s : LRun) : LOp → Prop
  | .call c => c.legal s ∧ c.fits s
  | .store x _ => ∃ e ∈ s.live, e.1 ≤ x ∧ x < e.1 + e.2

/-- What the heap promises in a state and of the calls made in it. -/
structure LHeapSound (s : LRun) : Prop where
  /-- A pointer is the payload of a block in use that is at least as large as requested. -/
  large : ∀ e ∈ s.live, ∃ b ∈ s.heap.blocks, b.free = false ∧ e.1 = b.addr + 16 ∧ e.2 ≤ b.size
  disjoint : s.live.Pairwise fun e e' => e.1 + e.2 ≤ e'.1 ∨ e'.1 + e'.2 ≤ e.1
  below : ∀ e ∈ s.live, e.1 + e.2 ≤ s.heap.sys.cur
  /-- A call changes the contents of no pointer there is. -/
  keeps : ∀ c : LCall, c.legal s → c.fits s → KeepsLive s.live s.heap.mem (s.call c).heap.mem
  /-- `realloc` keeps the common part of the contents. -/
  realloc : ∀ e ∈ s.live, ∀ n room, Fits s.heap n →
    (Libc.realloc s.heap e.1 n room).1 ≠ 0 → ∀ i < min e.2 n,
      (Libc.realloc s.heap e.1 n room).2.mem ((Libc.realloc s.heap e.1 n room).1 + i) =
        s.heap.mem (e.1 + i)

/-- One call keeps the heap a list of blocks and the contents of the pointers. -/
theorem LInv.call {s : LRun} {bs : List Blk} (inv : LInv s.heap bs s.live) (c : LCall)
    (hlegal : c.legal s) (hfits : c.fits s) :
    (∃ bs', LInv (s.call c).heap bs' (s.call c).live) ∧
      KeepsLive s.live s.heap.mem (s.call c).heap.mem := by
  have hdrop : dropPtr 0 s.live = s.live := dropPtr_of_ne inv.owns.ne_zero
  have hmalloc : ∀ n room, Fits s.heap n →
      (∃ bs', LInv (s.call (.malloc n room)).heap bs' (s.call (.malloc n room)).live) ∧
        KeepsLive s.live s.heap.mem (s.call (.malloc n room)).heap.mem := by
    intro n room hfit
    simp only [LRun.call, LRun.give]
    rcases Nat.eq_zero_or_pos n with rfl | hpos
    · have hnull : Libc.malloc s.heap 0 room = (0, s.heap) := if_pos rfl
      rw [hnull]
      exact ⟨⟨bs, inv⟩, fun _ _ _ _ => rfl⟩
    rcases LInv.malloc inv hpos hfit with ⟨hzero, hmem, hinv⟩ | ⟨hne, hkeep, bs', -, hinv⟩
    · rw [if_pos hzero]
      exact ⟨⟨bs, hinv⟩, fun e _ i _ => by rw [hmem]⟩
    rw [if_neg hne]
    exact ⟨⟨bs', hinv n (align8_of_fits hfit hpos).2.1⟩, inv.owns.keepsLive hkeep⟩
  have hfree : ∀ p, p = 0 ∨ p ∈ s.live.map Prod.fst →
      (∃ bs', LInv (Libc.free s.heap p) bs' (dropPtr p s.live)) ∧
        KeepsLive s.live s.heap.mem (Libc.free s.heap p).mem := by
    rintro p (rfl | hp)
    · rw [hdrop, Libc.free, if_pos rfl]
      exact ⟨⟨bs, inv⟩, fun _ _ _ _ => rfl⟩
    obtain ⟨e, he, rfl⟩ := List.mem_map.1 hp
    exact inv.free he
  cases c with
  | malloc n room => exact hmalloc n room hfits
  | calloc nmemb size room => exact LInv.calloc inv hfits
  | free p => exact hfree p hlegal
  | realloc p n room => ?_
  rcases hlegal with hp | hp
  · obtain rfl : p = 0 := hp
    have heq : s.call (.realloc 0 n room) = s.call (.malloc n room) := by
      simp only [LRun.call, LRun.give, Libc.realloc, swapPtr, hdrop, if_true]
      split
      · next h0 => simp [h0, Libc.malloc]
      rfl
    rw [heq]
    exact hmalloc n room hfits
  obtain ⟨e, he, heq⟩ := List.mem_map.1 hp
  obtain rfl : e.1 = p := heq
  rcases Nat.eq_zero_or_pos n with rfl | hpos
  · have hcall : s.call (.realloc e.1 0 room) = ⟨Libc.free s.heap e.1, dropPtr e.1 s.live⟩ := by
      simp only [LRun.call, Libc.realloc, if_true, if_neg (inv.owns.ne_zero e he)]
    rw [hcall]
    exact hfree e.1 (.inr hp)
  obtain ⟨hinv, hkeep, -⟩ := LInv.realloc inv he hpos hfits
  simp only [LRun.call, if_neg (show n ≠ 0 by omega)]
  exact ⟨hinv, hkeep⟩

theorem LInv.step {s : LRun} {bs : List Blk} (inv : LInv s.heap bs s.live) (op : LOp)
    (hok : op.ok s) : ∃ bs', LInv (s.step op).heap bs' (s.step op).live := by
  cases op with
  | call c => exact (inv.call c hok.1 hok.2).1
  | store x v =>
    obtain ⟨e, he, hlo, hhi⟩ := hok
    obtain ⟨b, hb, -, haddr, hsize⟩ := inv.owns.block e he
    exact ⟨bs, (inv.setPayload hb hsize fun y hy => if_neg (by omega)).1⟩

/-- **The user heap over whole runs** in which every request fits above the break. -/
theorem lheap_sound {s : LRun} (h : Reachable LRun.step (fun s op => LOp.ok s op) LRun.Init s) :
    LHeapSound s := by
  have hinv : ∃ bs, LInv s.heap bs s.live := by
    refine h.invariant (I := fun s => ∃ bs, LInv s.heap bs s.live) ?_
      fun s op hok ⟨bs, inv⟩ => inv.step op hok
    rintro s ⟨hsys, hhead, hcur, hlive⟩
    exact ⟨[], .nil, hhead, hsys, .inl hcur, List.forall_mem_nil _, hlive ▸ .nil⟩
  obtain ⟨bs, inv⟩ := hinv
  refine ⟨?_, inv.owns.pairwise inv.holds.apart, ?_, fun c hl hf => (inv.call c hl hf).2, ?_⟩
  · intro e he
    obtain ⟨b, hb, hused, haddr, hsize⟩ := inv.owns.block e he
    exact ⟨b, by rw [inv.blocks_eq]; exact hb, hused, haddr.symm, hsize⟩
  · intro e he
    obtain ⟨b, hb, -, haddr, hsize⟩ := inv.owns.block e he
    have hbelow := inv.below b hb
    unfold Blk.stop at hbelow
    omega
  · intro e he n room hfit hne i hi
    exact (LInv.realloc inv he (by omega) hfit).2.2 hne i hi

/-- A program whose image ends at `0x20000`, before its first call. -/
def LRun.fresh : LRun := ⟨{ mem := fun _ => 0, sys := ⟨0x20000, 0x38000000, 0x20000⟩ }, []⟩

def lheapOps : List LOp :=
  [.call (.malloc 100 true), .call (.calloc 3 20 true), .store 0x20010 7,
    .call (.realloc 0x20010 300 true), .call (.free 0x20088), .call (.malloc 0xC0000000 true)]

theorem lheap_sound_six_steps : LHeapSound (runFrom LRun.step LRun.fresh lheapOps) ∧
      (runFrom LRun.step LRun.fresh lheapOps).live = [(0x200d8, 300)] := by
  refine ⟨lheap_sound (Reachable.runFrom (.init ?_) lheapOps ?_), by decide +kernel⟩
  · exact ⟨⟨by decide, by decide, by decide, by decide, by decide⟩, rfl, rfl, rfl⟩
  refine ⟨⟨.inl rfl, ?_⟩, ⟨.inl rfl, fun _ => ?_⟩, ⟨(0x20010, 100), by decide +kernel, by decide,
    by decide⟩, ⟨.inr (by decide +kernel), ?_⟩, ⟨.inr (by decide +kernel), trivial⟩,
    ⟨.inl rfl, ?_⟩, trivial⟩
  · show Fits _ 100
    decide +kernel
  · decide +kernel
  · show Fits _ 300
    decide +kernel
  · show Fits _ 0xC0000000
    decide +kernel

/-- `malloc(0xFFFFFFFC)` rounds to `0` and hands out a block of no bytes. -/
theorem malloc_wraps : ¬ LHeapSound (LRun.fresh.step (.call (.malloc 0xFFFFFFFC true))) := by
  intro hsound
  have hlive : (0x20010, 0xFFFFFFFC) ∈ (LRun.fresh.step (.call (.malloc 0xFFFFFFFC true))).live := by
    decide +kernel
  have hbelow := hsound.below _ hlive
  exact absurd hbelow (by decide +kernel)

end Embedded.Libc
