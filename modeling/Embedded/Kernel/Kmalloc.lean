import Embedded.Lib.BlockList
import Embedded.Lib.Run
import Embedded.Kernel.Pmm

/-! # The kernel heap (`mm/kmalloc.c`)

Blocks with a header in front, kept in one linked list in physical memory. The model works on the
bytes: a header is read and written through the words of `struct blk`, and the list is what following
the `next` words gives. The proofs go through the list of blocks the memory holds
(`Lib/BlockList`). -/

namespace Embedded.Kernel.Heap

open List HdrFields

variable {m : Mem} {n size need : Nat}

/-- `struct blk`. -/
def blk : HdrFields where
  sizeAt := 0
  freeAt := 4
  nextAt := 8
  inside := by decide
  size_next := by decide
  size_free := by decide
  next_free := by decide

/-- The statics of `kmalloc.c` over the memory and the page allocator. `runs` records the page runs
the heap was grown by, start and length; the code does not keep it. -/
structure KHeap where
  mm : Mm
  head : Nat := 0
  tail : Nat := 0
  usedBytes : Nat := 0
  runs : List (Nat × Nat) := []

def KHeap.mem (h : KHeap) : Mem := h.mm.mem

def KHeap.setMem (h : KHeap) (m : Mem) : KHeap := { h with mm := { h.mm with mem := m } }

/-- More rounds than a list of blocks in the 32-bit space can have. -/
def maxBlocks : Nat := 268435456

/-- The pages `grow` asks for. -/
def growPages (need : Nat) : Nat := add32 (add32 (align8 need) 16) 4095 / 4096

/-- `grow`. -/
def grow (h : KHeap) (need : Nat) : Nat × KHeap :=
  let npages := growPages need
  let r := pmmAllocAligned h.mm npages 4096
  let pa := r.1
  if pa = 0 then (0, { h with mm := r.2 })
  else
    let m := blk.setSize r.2.mem pa (sub32 (npages * 4096 % 4294967296) 16)
    let m := blk.setFree m pa 1
    let m := blk.setNext m pa 0
    let g := { h with mm := r.2, runs := h.runs ++ [(pa, npages * 4096)] }
    if h.head = 0 then (pa, { g.setMem m with head := pa, tail := pa })
    else (pa, { g.setMem (blk.setNext m h.tail pa) with tail := pa })

/-- `split`. -/
def split (h : KHeap) (b size : Nat) : KHeap :=
  let rem := sub32 (blk.size h.mem b) size
  if rem < 32 then h
  else
    let n := add32 (add32 b 16) size
    let m := blk.setSize h.mem n (sub32 rem 16)
    let m := blk.setFree m n 1
    let m := blk.setNext m n (blk.next m b)
    let m := blk.setSize m b size
    let m := blk.setNext m b n
    { h.setMem m with tail := if h.tail = b then n else h.tail }

/-- What `kmalloc` does with the block it has found: split it, mark it, count it, clear it. -/
def useBlock (h : KHeap) (b size : Nat) : Nat × KHeap :=
  let h := split h b size
  let m := blk.setFree h.mem b 0
  let p := add32 b 16
  (p, { h.setMem (m.zero p (blk.size m b)) with usedBytes := add32 h.usedBytes (blk.size m b) })

/-- The size `kmalloc` works with. -/
def roundSize (size : Nat) : Nat := align8 (if size = 0 then 8 else size)

/-- `kmalloc`. -/
def kmalloc (h : KHeap) (size : Nat) : Nat × KHeap :=
  let size := roundSize size
  let b := blk.firstFit h.mem size maxBlocks h.head
  if b ≠ 0 then useBlock h b size
  else
    let r := grow h size
    if r.1 = 0 then (0, r.2) else useBlock r.2 r.1 size

/-- `kfree`. -/
def kfree (h : KHeap) (ptr : Nat) : KHeap :=
  if ptr = 0 then h
  else
    let b := sub32 ptr 16
    let m := blk.setFree h.mem b 1
    let size := blk.size m b
    let h := { h.setMem m with
      usedBytes := if h.usedBytes ≥ size then sub32 h.usedBytes size else h.usedBytes }
    let n := blk.next m b
    if n ≠ 0 ∧ blk.free m n ≠ 0 ∧ n = add32 (add32 b 16) size then
      let m := blk.setSize m b (add32 size (add32 16 (blk.size m n)))
      let m := blk.setNext m b (blk.next m n)
      { h.setMem m with tail := if h.tail = n then b else h.tail }
    else h

/-- `krealloc`. -/
def krealloc (h : KHeap) (ptr newsize : Nat) : Nat × KHeap :=
  if ptr = 0 then kmalloc h newsize
  else
    let old := blk.size h.mem (sub32 ptr 16)
    if align8 newsize ≤ old then (ptr, h)
    else
      let r := kmalloc h newsize
      if r.1 = 0 then (0, r.2)
      else (r.1, kfree (r.2.setMem (r.2.mem.copy r.1 ptr old)) ptr)

/-- The blocks of the heap, in list order. -/
def KHeap.blocks (h : KHeap) : List Blk := blk.walk h.mem maxBlocks h.head

/-! ## The heap as a list of blocks -/

/-- An address of one of the page runs. -/
def InRuns (runs : List (Nat × Nat)) (x : Nat) : Prop := ∃ r ∈ runs, r.1 ≤ x ∧ x < r.1 + r.2

/-- The heap is the list `bs`, the pointers `live` are given out. -/
structure HeapInv (h : KHeap) (bs : List Blk) (live : List (Nat × Nat)) : Prop where
  holds : Holds blk h.mem bs
  head : h.head = headAddr 0 bs
  tail : ∀ t, bs.getLast? = some t → h.tail = t.addr
  used : h.usedBytes = usedTotal bs
  tile : ∀ x, Covers bs x ↔ InRuns h.runs x
  frames : ∀ x, InRuns h.runs x → h.mm.used (x / 4096)
  pmm : PmmOk h.mm.pmm
  owns : GivenOut bs live
  all : AllGiven bs live

theorem HeapInv.blocks_eq {h : KHeap} {bs : List Blk} {live : List (Nat × Nat)}
    (inv : HeapInv h bs live) : h.blocks = bs := by
  rw [KHeap.blocks, inv.head]
  exact inv.holds.links.walk_eq inv.holds.pos _ inv.holds.length_le

/-! ## `split` and marking -/

section UseBlock

variable {h : KHeap} {b : Blk} {size nxt : Nat}

/-- `split` leaves the block whole, or links a free block made of the rest behind it. -/
theorem split_cases (hat : blk.At h.mem b nxt) (hb : b.Wf) (hnxt : nxt < 4294967296) (hn : size ≤ b.size) :
    (b.size - size < 32 ∧ split h b.addr size = h) ∨
    (32 ≤ b.size - size ∧ ∃ m', split h b.addr size = { h.setMem m' with
        tail := if h.tail = b.addr then b.addr + 16 + size else h.tail } ∧
      blk.At m' ⟨b.addr, size, b.free⟩ (b.addr + 16 + size) ∧
      blk.At m' ⟨b.addr + 16 + size, b.size - size - 16, true⟩ nxt ∧
      ∀ x, ¬ b.Has x → m' x = h.mem x) := by
  have hstop := hb.stop
  unfold Blk.stop at hstop
  have hrem : sub32 b.size size = b.size - size := by
    unfold sub32
    omega
  by_cases hsmall : b.size - size < 32
  · left
    refine ⟨hsmall, ?_⟩
    unfold split
    rw [hat.size, hrem, if_pos hsmall]
  right
  have hplace : add32 (add32 b.addr 16) size = b.addr + 16 + size := by
    unfold add32
    omega
  have hrest : sub32 (b.size - size) 16 = b.size - size - 16 := by
    unfold sub32
    omega
  refine ⟨by omega, _, by unfold split; rw [hat.size, hrem, if_neg hsmall, hplace], ?_⟩
  rw [hrest]
  generalize hnew : b.addr + 16 + size = n at *
  -- the header of the rest is written first; it lies in the payload of the block
  have hfar : ∀ (m : Mem) (s v w : Nat), ∀ i < 16,
      blk.setNext (blk.setFree (blk.setSize m n s) n v) n w (b.addr + i) = m (b.addr + i) := by
    intro m s v w i hi
    rw [setNext_of_ne (by omega), setFree_of_ne (by omega), setSize_of_ne (by omega)]
  have hnext : blk.next (blk.setFree (blk.setSize h.mem n (b.size - size - 16)) n 1) b.addr = nxt := by
    refine (hat.congr fun i hi => ?_).next
    rw [setFree_of_ne (by omega), setSize_of_ne (by omega)]
  rw [hnext]
  refine ⟨?_, ?_, ?_⟩
  · have h1 := hat.congr (hfar h.mem (b.size - size - 16) 1 nxt)
    exact (h1.setSize (by omega)).setNext (by omega)
  · have h1 : blk.At _ ⟨n, b.size - size - 16, true⟩ nxt :=
      at_setNext_setFree_setSize (m := h.mem) (show b.size - size - 16 < 4294967296 by omega)
        (show 1 < 4294967296 by omega) hnxt
    refine h1.congr fun i hi => ?_
    rw [setNext_of_ne (show n + i < b.addr ∨ b.addr + 16 ≤ n + i by omega),
      setSize_of_ne (show n + i < b.addr ∨ b.addr + 16 ≤ n + i by omega)]
  intro x hx
  unfold Blk.Has Blk.stop at hx
  rw [setNext_of_ne (by omega), setSize_of_ne (by omega),
    setNext_of_ne (by omega), setFree_of_ne (by omega),
    setSize_of_ne (by omega)]

/-- The tail of a list in which `b` was carved. -/
def carveTail (size : Nat) (b : Blk) (tail : Nat) : Nat :=
  if 32 ≤ b.size - size ∧ tail = b.addr then b.addr + 16 + size else tail

/-- Marking a block used and clearing its payload, in the list that ends with it. -/
theorem mark_clear {s : Nat} (hat : blk.At m ⟨b.addr, s, b.free⟩ n) :
    blk.At ((blk.setFree m b.addr 0).zero (b.addr + 16) s) ⟨b.addr, s, false⟩ n := by
  refine (hat.setFree (show 0 < 4294967296 by omega)).congr fun i hi => ?_
  rw [Mem.zero_of_not_mem]
  show ¬ (b.addr + 16 ≤ b.addr + i ∧ _)
  omega

/-- **Using a block**: it is carved, the taken part is cleared, the rest of memory stays. -/
theorem useBlock_spec (hat : blk.At h.mem b nxt) (hb : b.Wf) (hnxt : nxt < 4294967296) (hn : size ≤ b.size) :
    ∃ m', useBlock h b.addr size = (b.addr + 16, { h.setMem m' with
          tail := carveTail size b h.tail
          usedBytes := add32 h.usedBytes (usedTotal (carve 32 size b)) }) ∧
      Links blk m' nxt (carve 32 size b) ∧ (∀ x, ¬ b.Has x → m' x = h.mem x) ∧
      ∀ i < size, m' (b.addr + 16 + i) = 0 := by
  have hstop := hb.stop
  have hroom := hb.room
  unfold Blk.stop at hstop
  have hplace : add32 b.addr 16 = b.addr + 16 := by
    unfold add32
    omega
  rcases split_cases hat hb hnxt hn with ⟨hsmall, hsplit⟩ | ⟨hlarge, m1, hsplit, hfirst, hrest, hout⟩
  · have hcarve : carve 32 size b = [⟨b.addr, b.size, false⟩] := if_neg (by omega)
    have htail : carveTail size b h.tail = h.tail := if_neg (by omega)
    refine ⟨(blk.setFree h.mem b.addr 0).zero (b.addr + 16) b.size, ?_, ?_, ?_, ?_⟩
    · unfold useBlock
      rw [hsplit, hplace, hcarve, htail]
      simp only [size_setFree, hat.size]
      simp [usedTotal, KHeap.setMem]
    · rw [hcarve]
      exact ⟨mark_clear hat, trivial⟩
    · intro x hx
      unfold Blk.Has Blk.stop at hx
      rw [Mem.zero_of_not_mem (by omega), setFree_of_ne (by omega)]
    intro i hi
    exact if_pos (by omega)
  have hcarve : carve 32 size b =
      [⟨b.addr, size, false⟩, ⟨b.addr + 16 + size, b.size - size - 16, true⟩] := if_pos hlarge
  have htail : carveTail size b h.tail = if h.tail = b.addr then b.addr + 16 + size else h.tail := by
    simp [carveTail, hlarge]
  refine ⟨(blk.setFree m1 b.addr 0).zero (b.addr + 16) size, ?_, ?_, ?_, ?_⟩
  · unfold useBlock
    rw [hsplit, hplace, hcarve, htail]
    have hsize : blk.size m1 b.addr = size := hfirst.size
    simp [usedTotal, KHeap.setMem, KHeap.mem, hsize]
  · rw [hcarve]
    refine ⟨mark_clear hfirst, ?_, trivial⟩
    refine hrest.congr fun i hi => ?_
    show (blk.setFree m1 b.addr 0).zero (b.addr + 16) size (b.addr + 16 + size + i) = _
    rw [Mem.zero_of_not_mem (by omega), setFree_of_ne (by omega)]
  · intro x hx
    rw [← hout x hx]
    unfold Blk.Has Blk.stop at hx
    rw [Mem.zero_of_not_mem (by omega), setFree_of_ne (by omega)]
  intro i hi
  exact if_pos (by omega)

end UseBlock

section Calls

variable {h : KHeap} {bs pre post : List Blk} {b : Blk} {live : List (Nat × Nat)}

theorem HeapInv.carve_tail (inv : HeapInv h (pre ++ [b] ++ post) live) (t : Blk)
    (ht : (pre ++ carve 32 size b ++ post).getLast? = some t) : carveTail size b h.tail = t.addr := by
  rw [getLast?_append] at ht
  have htail := inv.tail
  rw [getLast?_append] at htail
  cases hpost : post.getLast? with
  | none =>
    rw [hpost, Option.none_or] at ht htail
    have hb := htail b (by simp)
    unfold carveTail
    unfold carve at ht
    by_cases hlarge : 32 ≤ b.size - size
    · rw [if_pos hlarge] at ht
      rw [if_pos ⟨hlarge, hb⟩]
      simp at ht
      rw [← ht]
    rw [if_neg hlarge] at ht
    rw [if_neg (fun h => hlarge h.1), hb]
    simp at ht
    rw [← ht]
  | some u => ?_
  rw [hpost, Option.some_or] at ht htail
  obtain rfl := Option.some.inj ht
  have hu := htail u rfl
  have hmem : u ∈ post := mem_of_getLast? hpost
  -- the last block lies apart from the one carved
  have happ := inv.holds.apart
  rw [pairwise_append] at happ
  have hub := happ.2.2 b (by simp) u hmem
  unfold Blk.Apart Blk.stop at hub
  rw [carveTail, if_neg (by omega), hu]

theorem HeapInv.useBlock (inv : HeapInv h (pre ++ [b] ++ post) live) (hfree : b.free = true)
    {req : Nat} (hn : size ≤ b.size) (hpos : 0 < size) (hmod : size % 8 = 0) (hreq : req ≤ size) :
    (Heap.useBlock h b.addr size).1 = b.addr + 16 ∧
    HeapInv (Heap.useBlock h b.addr size).2 (pre ++ carve 32 size b ++ post) ((b.addr + 16, req) :: live) ∧
    KeepsUsed (pre ++ [b] ++ post) h.mem (Heap.useBlock h b.addr size).2.mem := by
  obtain ⟨hat, hb, hnext⟩ := inv.holds.at_mid
  obtain ⟨m', heq, hlinks, hout, -⟩ := useBlock_spec hat hb hnext hn
  rw [heq]
  have hholds := inv.holds.carve hlinks hout (by omega) hn hpos hmod
  have htotal := hholds.usedTotal_lt
  have hused := inv.used
  have hbzero : usedTotal [b] = 0 := by simp [usedTotal, hfree]
  rw [usedTotal_append, usedTotal_append] at htotal hused
  refine ⟨rfl, ⟨hholds, ?_, inv.carve_tail, ?_, ?_, inv.frames, inv.pmm,
    inv.owns.carve inv.holds.apart hfree hn hreq, inv.all.carve⟩, inv.holds.keepsUsed hfree hout⟩
  · show h.head = _
    rw [inv.head, headAddr_append, headAddr_append, carve_headAddr, headAddr_append, headAddr_append]
  · show add32 h.usedBytes (usedTotal (carve 32 size b)) = _
    rw [usedTotal_append, usedTotal_append, hused, add32, Nat.mod_eq_of_lt (by omega)]
    omega
  intro x
  rw [covers_carve_mid (by omega) hn]
  exact inv.tile x

/-! ## `grow` -/

theorem growPages_spec (h : need ≤ 2147483648) (hmod : need % 8 = 0) :
    need + 16 ≤ growPages need * 4096 ∧ growPages need * 4096 < 4294967296 ∧ 16 < growPages need * 4096 := by
  unfold growPages align8 add32
  omega

theorem inRuns_concat {runs : List (Nat × Nat)} {pa x : Nat} :
    InRuns (runs ++ [(pa, n)]) x ↔ InRuns runs x ∨ (pa ≤ x ∧ x < pa + n) := by
  simp [InRuns, or_and_right, exists_or]

/-- The heap after `grow` got the pages at `r.1`, `m` being the memory with the new header. -/
theorem grow_eq {r : Nat × Mm} (hr : pmmAllocAligned h.mm (growPages need) 4096 = r) (h0 : r.1 ≠ 0)
    (hm : blk.setNext (blk.setFree (blk.setSize r.2.mem r.1
      (sub32 (growPages need * 4096 % 4294967296) 16)) r.1 1) r.1 0 = m) :
    Heap.grow h need = (r.1,
      { mm := { r.2 with mem := if h.head = 0 then m else blk.setNext m h.tail r.1 }
        head := if h.head = 0 then r.1 else h.head
        tail := r.1
        usedBytes := h.usedBytes
        runs := h.runs ++ [(r.1, growPages need * 4096)] }) := by
  unfold Heap.grow
  simp only [hr, h0, if_false, hm]
  split <;> rfl

/-- **Growing**: nothing happens, or a free block of fresh pages stands at the end of the list. -/
theorem HeapInv.grow (inv : HeapInv h bs live) (hneed : need ≤ 2147483648) (hmod : need % 8 = 0) :
    (Heap.grow h need = (0, h)) ∨
    ∃ nb : Blk, nb.free = true ∧ need ≤ nb.size ∧ (Heap.grow h need).1 = nb.addr ∧ 0 < nb.addr ∧
      HeapInv (Heap.grow h need).2 (bs ++ [nb]) live ∧
      KeepsUsed bs h.mem (Heap.grow h need).2.mem := by
  obtain ⟨hroom, hlt, h16⟩ := growPages_spec hneed hmod
  rcases pmmAllocAligned_cases h.mm (growPages need) 4096 inv.pmm with ⟨hfail, hsame⟩ | ⟨spec, -⟩
  · left
    unfold Heap.grow
    simp only [hfail, hsame, if_true]
  right
  generalize hr : pmmAllocAligned h.mm (growPages need) 4096 = r at spec
  obtain ⟨hpage, hpos, hfits, hfreshFrames, husedFrames, hmem, -, hok⟩ := spec
  have hsize : sub32 (growPages need * 4096 % 4294967296) 16 = growPages need * 4096 - 16 := by
    unfold sub32
    omega
  generalize hm1 : blk.setNext (blk.setFree (blk.setSize r.2.mem r.1
    (sub32 (growPages need * 4096 % 4294967296) 16)) r.1 1) r.1 0 = m1
  rw [grow_eq hr (by omega) hm1]
  rw [hsize] at hm1
  generalize hn : growPages need * 4096 = n at *
  have hnb : blk.At m1 ⟨r.1, n - 16, true⟩ 0 := by
    rw [← hm1]
    exact at_setNext_setFree_setSize (by omega) (by omega) (by omega)
  have hwf : Blk.Wf ⟨r.1, n - 16, true⟩ :=
    ⟨hpos, show 0 < n - 16 by omega, show r.1 % 8 = 0 by omega, show (n - 16) % 8 = 0 by omega,
      show r.1 + 16 + (n - 16) ≤ 4294967296 by omega⟩
  have hhas : ∀ x, Blk.Has ⟨r.1, n - 16, true⟩ x ↔ r.1 ≤ x ∧ x < r.1 + n := by
    intro x
    show (r.1 ≤ x ∧ x < r.1 + 16 + (n - 16)) ↔ _
    omega
  -- the pages were free, so the heap has none of them
  have hfresh : ∀ x, Blk.Has ⟨r.1, n - 16, true⟩ x → ¬ Covers bs x := by
    intro x hx hbx
    rw [hhas] at hx
    exact hfreshFrames (x / 4096) (by omega) (by omega) (inv.frames x ((inv.tile x).1 hbx))
  have hsame : ∀ x, Covers bs x → m1 x = h.mem x := by
    intro x hx
    have hnot : ¬ (r.1 ≤ x ∧ x < r.1 + n) := fun hin => hfresh x ((hhas x).2 hin) hx
    rw [← hm1, setNext_of_ne (by omega), setFree_of_ne (by omega),
      setSize_of_ne (by omega), hmem, Mem.zero_of_not_mem hnot]
    rfl
  have hused : usedTotal (bs ++ [⟨r.1, n - 16, true⟩]) = usedTotal bs := by simp [usedTotal]
  have htile : ∀ x, Covers (bs ++ [⟨r.1, n - 16, true⟩]) x ↔ InRuns (h.runs ++ [(r.1, n)]) x := by
    intro x
    rw [covers_append, covers_single, hhas, inRuns_concat, inv.tile]
  have hframes : ∀ x, InRuns (h.runs ++ [(r.1, n)]) x → r.2.used (x / 4096) := by
    intro x hx
    rw [husedFrames]
    rcases inRuns_concat.1 hx with hx | hx
    · exact .inl (inv.frames x hx)
    exact .inr (by omega)
  have howns : GivenOut (bs ++ [⟨r.1, n - 16, true⟩]) live :=
    inv.owns.keep (List.Sublist.refl _) fun _ _ c hc _ _ => mem_append_left _ hc
  have hall : AllGiven (bs ++ [⟨r.1, n - 16, true⟩]) live := fun c hc hu => by
    rcases mem_append.1 hc with hc | hc
    · exact inv.all c hc hu
    · simp [mem_singleton.1 hc] at hu
  have hlastEq : ∀ t : Blk, (bs ++ [(⟨r.1, n - 16, true⟩ : Blk)]).getLast? = some t → r.1 = t.addr := by
    intro t ht
    rw [getLast?_concat] at ht
    rw [← Option.some.inj ht]
  refine ⟨⟨r.1, n - 16, true⟩, rfl, show need ≤ n - 16 by omega, ?_⟩
  rcases eq_nil_or_concat bs with rfl | ⟨pre, t, hbs⟩
  · have hhead : h.head = 0 := inv.head
    simp only [if_pos hhead]
    refine ⟨trivial, hpos, ⟨inv.holds.append hnb hwf hfresh hsame (.inl ⟨rfl, rfl⟩), rfl, hlastEq, ?_,
      htile, hframes, hok, howns, hall⟩, inv.holds.keepsUsed_append (a := r.1) hsame (.inl ⟨rfl, rfl⟩)⟩
    rw [hused]
    exact inv.used
  rw [concat_eq_append] at hbs
  have htail : h.tail = t.addr := inv.tail t (by rw [hbs, getLast?_concat])
  have hne : h.head ≠ 0 := by
    rw [inv.head, hbs, headAddr_append]
    cases pre with
    | nil => exact Nat.ne_of_gt (inv.holds.pos t (by rw [hbs]; simp))
    | cons c pre => exact Nat.ne_of_gt (inv.holds.pos c (by rw [hbs]; simp))
  simp only [if_neg hne, htail]
  refine ⟨trivial, hpos, ⟨inv.holds.append hnb hwf hfresh hsame (.inr ⟨pre, t, hbs, rfl⟩), ?_,
    hlastEq, ?_, htile, hframes, hok, howns, hall⟩,
    inv.holds.keepsUsed_append hsame (.inr ⟨pre, t, hbs, rfl⟩)⟩
  · show h.head = _
    rw [inv.head, hbs, headAddr_append, headAddr_append, headAddr_append]
    rfl
  rw [hused]
  exact inv.used

/-! ## `kmalloc` -/

theorem roundSize_spec (h : n ≤ 2147483648) :
    n ≤ roundSize n ∧ roundSize n ≤ 2147483648 ∧ 0 < roundSize n ∧ roundSize n % 8 = 0 := by
  unfold roundSize align8 add32
  split <;> omega

/-- **`kmalloc`**: it returns `0` and leaves the heap as it is, or gives out a pointer to as many
bytes as the rounded request. The payloads in use stay. -/
theorem HeapInv.kmalloc (inv : HeapInv h bs live) (hn : n ≤ 2147483648) :
    (Heap.kmalloc h n).1 = 0 ∧ (Heap.kmalloc h n).2 = h ∨
    (Heap.kmalloc h n).1 ≠ 0 ∧ KeepsUsed bs h.mem (Heap.kmalloc h n).2.mem ∧ ∃ bs', ∀ req ≤ roundSize n,
        HeapInv (Heap.kmalloc h n).2 bs' (((Heap.kmalloc h n).1, req) :: live) := by
  obtain ⟨-, hmax, hpos, hmod⟩ := roundSize_spec hn
  simp only [Heap.kmalloc]
  have hfit := Links.firstFit_cases (n := roundSize n) inv.holds.links inv.holds.pos
    maxBlocks inv.holds.length_le
  rw [← inv.head] at hfit
  rcases hfit with hnone | ⟨pre, b, post, rfl, hfree, hsize, hfound⟩
  · rw [hnone, if_neg (by simp)]
    rcases inv.grow hmax hmod with hfail | ⟨nb, hfree, hsize, haddr, hnb, hinv, hkeep⟩
    · rw [hfail]
      exact .inl ⟨rfl, rfl⟩
    generalize Heap.grow h (roundSize n) = g at *
    rw [if_neg (by omega), haddr]
    have hmid : HeapInv g.2 (bs ++ [nb] ++ []) live := by rw [append_nil]; exact hinv
    obtain ⟨hptr, -, hkeep'⟩ := hmid.useBlock hfree hsize hpos hmod le_rfl
    rw [hptr]
    refine .inr ⟨by omega, ?_, _, fun req hreq => (hmid.useBlock hfree hsize hpos hmod hreq).2.1⟩
    intro c hc hcu i hi
    exact (hkeep' c (by simp [hc]) hcu i hi).trans (hkeep c hc hcu i hi)
  have hb := inv.holds.pos b (by simp)
  rw [hfound, if_pos (by omega)]
  have hlist : pre ++ b :: post = pre ++ [b] ++ post := by simp
  rw [hlist] at inv ⊢
  obtain ⟨hptr, -, hkeep⟩ := inv.useBlock hfree hsize hpos hmod le_rfl
  rw [hptr]
  exact .inr ⟨by omega, hkeep, _, fun req hreq => (inv.useBlock hfree hsize hpos hmod hreq).2.1⟩

/-! ## `kfree` -/

theorem kfree_eq {ptr : Nat} (hp : ptr ≠ 0) : Heap.kfree h ptr =
      { mm := { h.mm with mem := blk.release h.mem (sub32 ptr 16) }
        head := h.head
        tail := if blk.Merges (blk.setFree h.mem (sub32 ptr 16) 1) (sub32 ptr 16) ∧
            h.tail = blk.next (blk.setFree h.mem (sub32 ptr 16) 1) (sub32 ptr 16)
          then sub32 ptr 16 else h.tail
        usedBytes := if h.usedBytes ≥ blk.size h.mem (sub32 ptr 16)
          then sub32 h.usedBytes (blk.size h.mem (sub32 ptr 16)) else h.usedBytes
        runs := h.runs } := by
  unfold Heap.kfree
  simp only [if_neg hp, size_setFree]
  by_cases hm : blk.Merges (blk.setFree h.mem (sub32 ptr 16) 1) (sub32 ptr 16)
  · have hm' := hm
    unfold HdrFields.Merges at hm'
    rw [size_setFree] at hm'
    rw [if_pos hm']
    simp only [hm, release, size_setFree, if_true, true_and]
    rfl
  have hm' := hm
  unfold HdrFields.Merges at hm'
  rw [size_setFree] at hm'
  rw [if_neg hm']
  simp only [hm, release, if_false, false_and]
  rfl

theorem getLast?_concat_mid (as q : List Blk) (c u : Blk) : (as ++ c :: q.concat u).getLast? = some u := by
  rw [concat_eq_append, ← cons_append, ← append_assoc, getLast?_concat]

/-- The tail stays the last block when a block is given back. -/
theorem HeapInv.freed_tail (inv : HeapInv h (pre ++ [b] ++ post) live) (t : Blk)
    (ht : (pre ++ freed b post).getLast? = some t) :
    (if blk.Merges (blk.setFree h.mem b.addr 1) b.addr ∧
        h.tail = blk.next (blk.setFree h.mem b.addr 1) b.addr then b.addr else h.tail) = t.addr := by
  have htail := inv.tail
  rcases inv.holds.release_eq with ⟨hlone, hlist, -⟩ | ⟨c, rest, hmerge, hnext, rfl, hadj, hlist, -⟩
  · rw [if_neg fun h => hlone h.1]
    rw [hlist] at ht
    rcases eq_nil_or_concat post with rfl | ⟨q, u, rfl⟩
    · rw [htail b (by simp)]
      simp at ht
      rw [← ht]
    have hu : h.tail = u.addr := htail u (by
      rw [append_assoc, singleton_append, getLast?_concat_mid])
    rw [getLast?_concat_mid] at ht
    rw [hu, Option.some.inj ht]
  rw [hlist] at ht
  rw [hnext]
  rcases eq_nil_or_concat rest with rfl | ⟨q, u, rfl⟩
  · have hc : h.tail = c.addr := htail c (by simp)
    rw [if_pos ⟨hmerge, hc⟩]
    simp at ht
    rw [← ht]
  have hu : h.tail = u.addr := htail u (getLast?_concat_mid _ q c u)
  -- the last block is behind the one that was merged
  have hne : u.addr ≠ c.addr := by
    have happ := (pairwise_append.1 inv.holds.apart).2.1
    have hcu := (pairwise_cons.1 happ).1 u (by simp)
    unfold Blk.Apart Blk.stop at hcu
    omega
  rw [getLast?_concat_mid] at ht
  rw [hu, if_neg fun h => hne h.2, Option.some.inj ht]

/-- **`kfree`**: the block is free and merged with a free block behind it; only its header
changes. -/
theorem HeapInv.kfree (inv : HeapInv h (pre ++ [b] ++ post) live) (hused : b.free = false) :
    HeapInv (Heap.kfree h (b.addr + 16)) (pre ++ freed b post) (dropPtr (b.addr + 16) live) ∧
    ∀ x, x < b.addr ∨ b.addr + 16 ≤ x → (Heap.kfree h (b.addr + 16)).mem x = h.mem x := by
  obtain ⟨hat, hwf, -⟩ := inv.holds.at_mid
  have hstop := hwf.stop
  unfold Blk.stop at hstop
  have hblk : sub32 (b.addr + 16) 16 = b.addr := by
    unfold sub32
    omega
  obtain ⟨hholds, hframe⟩ := inv.holds.release
  rw [kfree_eq (by omega), hblk, hat.size]
  refine ⟨⟨hholds, ?_, ?_, ?_, ?_, inv.frames, inv.pmm, ?_, inv.all.release inv.holds.apart⟩, hframe⟩
  · show h.head = _
    rw [inv.head, append_assoc, headAddr_append, headAddr_append, headAddr_append, freed_headAddr]
    rfl
  · exact inv.freed_tail
  · have htotal := inv.holds.usedTotal_lt
    have hsum := inv.used
    have hb : usedTotal [b] = b.size := by simp [usedTotal, hused]
    rw [usedTotal_append, usedTotal_append, hb] at hsum htotal
    show (if h.usedBytes ≥ b.size then sub32 h.usedBytes b.size else h.usedBytes) = _
    rw [if_pos (by omega), usedTotal_append, usedTotal_freed, hsum]
    unfold sub32
    omega
  · intro x
    rw [covers_append, covers_freed, ← inv.tile, covers_append, covers_append, covers_single, or_assoc]
  exact inv.owns.release filter_sublist not_mem_dropPtr

/-! ## `krealloc` -/

theorem align8_spec (h : n ≤ 2147483648) : n ≤ align8 n ∧ align8 n ≤ roundSize n := by
  unfold roundSize align8 add32
  split <;> omega

/-- **`krealloc`**: it fails and changes nothing, or the pointer it returns stands for the old one,
with the old contents as far as both requests reach. -/
theorem HeapInv.krealloc (inv : HeapInv h bs live) {e : Nat × Nat} (he : e ∈ live)
    (hn : n ≤ 2147483648) :
    (∃ bs', HeapInv (Heap.krealloc h e.1 n).2 bs' (swapPtr e.1 (Heap.krealloc h e.1 n).1 n live)) ∧
    ((Heap.krealloc h e.1 n).1 ≠ 0 → ∀ i < min e.2 n,
      (Heap.krealloc h e.1 n).2.mem ((Heap.krealloc h e.1 n).1 + i) = h.mem (e.1 + i)) := by
  obtain ⟨pre, b, post, hbs, hused, haddr, hsize, hsub, hread⟩ := inv.owns.block_mid inv.holds he
  obtain ⟨hle, hround⟩ := align8_spec hn
  have hmem : b ∈ bs := by rw [hbs]; simp
  unfold Heap.krealloc
  simp only [hsub, hread]
  rw [if_neg (by omega)]
  by_cases hfits : align8 n ≤ b.size
  · rw [if_pos hfits]
    refine ⟨⟨bs, ?_⟩, fun _ i _ => rfl⟩
    rw [swapPtr, if_neg (by simp only; omega)]
    refine { inv with owns := ?_, all := inv.all.resize _ }
    rw [haddr]
    exact inv.owns.resize hmem hused (by omega)
  rw [if_neg hfits]
  rcases inv.kmalloc hn with ⟨hzero, hsame⟩ | ⟨hne, hkeep, bs', hinv⟩
  · rw [if_pos hzero, hsame]
    exact ⟨⟨bs, by rw [swapPtr, if_pos rfl]; exact inv⟩, fun h => absurd rfl h⟩
  rw [if_neg hne]
  generalize Heap.kmalloc h n = r at *
  have hnew := hinv n (roundSize_spec hn).1
  -- the new block has room for all of the old payload
  obtain ⟨d, hd, -, hda, hds⟩ := (hinv (roundSize n) le_rfl).owns.block _ mem_cons_self
  have hcopied : HeapInv (r.2.setMem (r.2.mem.copy r.1 e.1 b.size)) bs' ((r.1, n) :: live) := { hnew with
      holds := hnew.holds.setPayload hd (by omega) fun x hx =>
        Mem.copy_of_not_mem (by omega) }
  obtain ⟨pre', c, post', hlist, hcused, hcaddr, hcsize, -, -⟩ :=
    hcopied.owns.block_mid hcopied.holds (mem_cons_of_mem _ he)
  have hdiff := hnew.owns.head_ne e he
  have hcopied' := hcopied
  rw [hlist] at hcopied'
  obtain ⟨hfreed, hframe⟩ := hcopied'.kfree hcused
  rw [← hcaddr] at hfreed hframe
  refine ⟨⟨pre' ++ freed c post', ?_⟩, fun _ i hi => ?_⟩
  · rw [dropPtr_keep hdiff.symm] at hfreed
    rw [swapPtr, if_neg hne]
    exact hfreed
  have hc : c ∈ bs' := by rw [hlist]; simp
  have hhdr := hcopied.owns.header hcopied.holds.apart _ mem_cons_self c hc
  rw [hframe _ (by omega)]
  show r.2.mem.copy r.1 e.1 b.size (r.1 + i) = _
  rw [Mem.copy, if_pos (by omega)]
  have hk := hkeep b hmem hused i (by omega)
  rw [← haddr] at hk
  rw [Nat.add_sub_cancel_left]
  exact hk

end Calls

end Embedded.Kernel.Heap
