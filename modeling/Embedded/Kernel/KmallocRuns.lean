import Embedded.Kernel.Kmalloc
import Embedded.Kernel.PmmRuns

/-! # Runs of the kernel heap

Callers of `kmalloc`, `krealloc` and `kfree` in any order, writing to what they were given, while the
rest of the kernel allocates pages and writes elsewhere. `kheap_sound` is what holds in every state
such a run reaches. -/

namespace Embedded.Kernel.Heap

/-- The heap and the pointers given out, each with the size it was asked for. -/
structure KRun where
  heap : KHeap
  live : List (Nat × Nat)

inductive KOp
  | kmalloc (n : Nat)
  | krealloc (ptr n : Nat)
  | kfree (ptr : Nat)
  /-- A caller stores a byte. -/
  | store (x : Nat) (v : UInt8)
  /-- The rest of the kernel runs. -/
  | other (mm : Mm)

def KRun.step (s : KRun) : KOp → KRun
  | .kmalloc n =>
    let r := Heap.kmalloc s.heap n
    ⟨r.2, if r.1 = 0 then s.live else (r.1, n) :: s.live⟩
  | .krealloc ptr n =>
    let r := Heap.krealloc s.heap ptr n
    ⟨r.2, swapPtr ptr r.1 n s.live⟩
  | .kfree ptr => ⟨Heap.kfree s.heap ptr, dropPtr ptr s.live⟩
  | .store x v => ⟨s.heap.setMem (s.heap.mem.w8 x v), s.live⟩
  | .other mm => ⟨{ s.heap with mm := mm }, s.live⟩

/-- Nothing allocated, over a page allocator that has been set up. -/
def KRun.Init (s : KRun) : Prop :=
  PmmOk s.heap.mm.pmm ∧ s.heap.head = 0 ∧ s.heap.usedBytes = 0 ∧ s.heap.runs = [] ∧ s.live = []

/-- Callers pass live pointers (or NULL) and sizes up to `2 ^ 31`, and store inside what they were
given; the rest of the kernel keeps off the pages of the heap. -/
def KOp.ok (s : KRun) : KOp → Prop
  | .kmalloc n => n ≤ 2147483648
  | .krealloc ptr n => (ptr = 0 ∨ ptr ∈ s.live.map Prod.fst) ∧ n ≤ 2147483648
  | .kfree ptr => ptr = 0 ∨ ptr ∈ s.live.map Prod.fst
  | .store x _ => ∃ e ∈ s.live, e.1 ≤ x ∧ x < e.1 + e.2
  | .other mm => PmmOk mm.pmm ∧
      ∀ x, InRuns s.heap.runs x → mm.used (x / 4096) ∧ mm.mem x = s.heap.mem x

/-- What the heap promises. -/
structure KHeapSound (s : KRun) : Prop where
  /-- The payloads are pairwise disjoint. -/
  disjoint : s.live.Pairwise fun e e' => e.1 + e.2 ≤ e'.1 ∨ e'.1 + e'.2 ≤ e.1
  aligned : ∀ e ∈ s.live, e.1 % 8 = 0
  /-- A payload is that of a block in use and at least as large as requested. -/
  large : ∀ e ∈ s.live, ∃ b ∈ s.heap.blocks, b.free = false ∧ e.1 = b.addr + 16 ∧ e.2 ≤ b.size
  /-- No block in use is lost. -/
  all : ∀ b ∈ s.heap.blocks, b.free = false → ∃ e ∈ s.live, e.1 = b.addr + 16
  offHeaders : ∀ e ∈ s.live, ∀ b ∈ s.heap.blocks, e.1 + e.2 ≤ b.addr ∨ b.addr + 16 ≤ e.1
  /-- The blocks tile the pages of the heap. -/
  apart : s.heap.blocks.Pairwise Blk.Apart
  tile : ∀ x, Covers s.heap.blocks x ↔ InRuns s.heap.runs x
  /-- The counter is exact. -/
  used : s.heap.usedBytes = usedTotal s.heap.blocks
  /-- `krealloc` keeps the common part of the contents. -/
  realloc : ∀ e ∈ s.live, ∀ n ≤ 2147483648, (Heap.krealloc s.heap e.1 n).1 ≠ 0 →
    ∀ i < min e.2 n,
      (Heap.krealloc s.heap e.1 n).2.mem ((Heap.krealloc s.heap e.1 n).1 + i) = s.heap.mem (e.1 + i)

/-- The heap is some list of blocks. -/
def KInv (s : KRun) : Prop := ∃ bs, HeapInv s.heap bs s.live

theorem KInv.init {s : KRun} (h : s.Init) : KInv s := by
  obtain ⟨hpmm, hhead, hused, hruns, hlive⟩ := h
  refine ⟨[], .nil, hhead, fun t ht => by simp at ht, hused, ?_, ?_, hpmm, ?_, fun b hb => by simp at hb⟩
  · simp [Covers, InRuns, hruns]
  · simp [InRuns, hruns]
  rw [hlive]
  exact .nil

theorem mem_of_fst {live : List (Nat × Nat)} {p : Nat} (h : p ∈ live.map Prod.fst) : ∃ e ∈ live, e.1 = p := by
  simpa using h

theorem KInv.step {s : KRun} (inv : KInv s) (e : KOp) (hok : e.ok s) : KInv (s.step e) := by
  obtain ⟨bs, inv⟩ := inv
  have hmalloc : ∀ n ≤ 2147483648, KInv (s.step (.kmalloc n)) := by
    intro n hn
    unfold KRun.step
    rcases inv.kmalloc hn with ⟨hzero, hsame⟩ | ⟨hne, -, bs', hinv⟩
    · simp only [hzero, hsame, if_true]
      exact ⟨bs, inv⟩
    simp only [hne, if_false]
    exact ⟨bs', hinv n (roundSize_spec hn).1⟩
  have hdrop : dropPtr 0 s.live = s.live := dropPtr_of_ne inv.owns.ne_zero
  cases e with
  | kmalloc n => exact hmalloc n hok
  | krealloc ptr n =>
    obtain ⟨hptr, hn⟩ := hok
    rcases hptr with rfl | hptr
    · have heq : s.step (.krealloc 0 n) = s.step (.kmalloc n) := by
        simp only [KRun.step, Heap.krealloc, swapPtr, hdrop, if_true]
      rw [heq]
      exact hmalloc n hn
    obtain ⟨d, hd, rfl⟩ := mem_of_fst hptr
    exact (inv.krealloc hd hn).1
  | kfree ptr =>
    rcases hok with rfl | hptr
    · have heq : s.step (.kfree 0) = s := by simp only [KRun.step, Heap.kfree, hdrop, if_true]
      rw [heq]
      exact ⟨bs, inv⟩
    obtain ⟨d, hd, rfl⟩ := mem_of_fst hptr
    obtain ⟨pre, b, post, rfl, hused, haddr, -⟩ := inv.owns.block_mid inv.holds hd
    have hfreed := (inv.kfree hused).1
    rw [← haddr] at hfreed
    exact ⟨pre ++ freed b post, hfreed⟩
  | store x v =>
    obtain ⟨d, hd, hlo, hhi⟩ := hok
    obtain ⟨b, hb, -, haddr, hsize⟩ := inv.owns.block d hd
    refine ⟨bs, { inv with holds := inv.holds.setPayload hb hsize fun y hy => ?_ }⟩
    exact if_neg (by omega)
  | other mm => ?_
  obtain ⟨hpmm, hkeep⟩ := hok
  refine ⟨bs, inv.holds.congr fun b hb i hi => ?_, inv.head, inv.tail, inv.used, inv.tile,
    fun x hx => (hkeep x hx).1, hpmm, inv.owns, inv.all⟩
  exact (hkeep _ ((inv.tile _).1 ⟨b, hb, b.has_addr hi⟩)).2

/-- **The kernel heap over whole runs.** -/
theorem kheap_sound {s : KRun} (h : Reachable KRun.step (fun s e => KOp.ok s e) KRun.Init s) :
    KHeapSound s := by
  have hinv : KInv s := h.invariant (fun _ => KInv.init) fun _ e hok hi => hi.step e hok
  obtain ⟨bs, inv⟩ := hinv
  have hblocks := inv.blocks_eq
  refine ⟨inv.owns.pairwise inv.holds.apart, fun e he => ?_, ?_, ?_, ?_, ?_, ?_, ?_,
    fun e he n hn => (inv.krealloc he hn).2⟩
  · obtain ⟨b, hb, -, haddr, -⟩ := inv.owns.block e he
    have := (inv.holds.wf b hb).addr
    omega
  · intro e he
    obtain ⟨b, hb, hused, haddr, hsize⟩ := inv.owns.block e he
    exact ⟨b, by rw [hblocks]; exact hb, hused, haddr.symm, hsize⟩
  · rw [hblocks]
    exact fun b hb hu => mem_of_fst (inv.all b hb hu)
  · rw [hblocks]
    exact inv.owns.header inv.holds.apart
  · rw [hblocks]
    exact inv.holds.apart
  · rw [hblocks]
    exact inv.tile
  · rw [hblocks]
    exact inv.used

/-- An empty heap over 64 KB of free pages. -/
def KRun.fresh : KRun := ⟨{ mm := ⟨fun _ => 0, pmmInit 0x40000000 0x40010000, 0⟩ }, []⟩

def kheapOps : List KOp :=
  [.kmalloc 100, .kmalloc 5000, .store 0x40000010 7, .krealloc 0x40000010 300, .kfree 0x40001010]

theorem kheap_sound_five_calls : KHeapSound (runFrom KRun.step KRun.fresh kheapOps) ∧
      (runFrom KRun.step KRun.fresh kheapOps).live = [(0x40000088, 300)] := by
  refine ⟨kheap_sound (Reachable.runFrom (.init ?_) kheapOps ?_), by decide +kernel⟩
  · exact ⟨pmmInit_ok (by decide) (by decide) (by decide), rfl, rfl, rfl, rfl⟩
  refine ⟨show 100 ≤ 2147483648 by decide, show 5000 ≤ 2147483648 by decide, ?_, ?_, ?_, trivial⟩
  · exact ⟨(0x40000010, 100), by decide +kernel, by decide, by decide⟩
  · exact ⟨.inr (by decide +kernel), by decide⟩
  · exact .inr (by decide +kernel)

end Embedded.Kernel.Heap
