import Embedded.Lib.Mem
import Mathlib.Order.Interval.Finset.Nat
import Mathlib.Algebra.Ring.Nat

/-! # Heaps made of linked blocks

A heap as first-fit allocators keep it: blocks with a 16-byte header in front of the payload, the
headers threaded into a list by a `next` word. `Links` says that a memory holds such a list,
`Holds` that in addition the blocks are well formed and lie apart. Every edit an allocator makes
replaces a short stretch of the list by another one that starts at the same address, so
`Holds.replace` is the one rule the proofs about an allocator need; `carve` is the edit that takes
memory out of a free block. -/

namespace Embedded

open List

variable {a b c : Blk} {n p : Nat} {m m' : Mem}

variable {nxt x : Nat}

/-- `x` rounded up to a multiple of 8, with the wrap of the 32-bit addition. -/
def align8 (x : Nat) : Nat := add32 x 7 / 8 * 8

/-! ## Blocks -/

/-- A block: where its header starts, how many payload bytes follow the header, whether it is
free. -/
structure Blk where
  addr : Nat
  size : Nat
  free : Bool
  deriving DecidableEq, Repr

namespace Blk

/-- The first address behind the block. -/
def stop (b : Blk) : Nat := b.addr + 16 + b.size

/-- The address `x` belongs to the block, header included. -/
def Has (b : Blk) (x : Nat) : Prop := b.addr ≤ x ∧ x < b.stop

def Apart (a b : Blk) : Prop := a.stop ≤ b.addr ∨ b.stop ≤ a.addr

/-- Aligned, not empty, not at the null pointer, inside the 32-bit space. -/
structure Wf (b : Blk) : Prop where
  pos : 0 < b.addr
  room : 0 < b.size
  addr : b.addr % 8 = 0
  size : b.size % 8 = 0
  stop : b.stop ≤ 4294967296

theorem apart_iff : a.Apart b ↔ ∀ x, a.Has x → ¬ b.Has x := by
  unfold Apart Has stop
  constructor
  · intro h x hx
    omega
  intro h
  have ha := h a.addr
  have hb := h b.addr
  omega

theorem Apart.symm (h : a.Apart b) : b.Apart a := h.elim .inr .inl

instance : Std.Symm Blk.Apart := ⟨fun _ _ h => h.symm⟩

theorem has_addr (b : Blk) {i : Nat} (hi : i < 16) : b.Has (b.addr + i) := by
  unfold Has stop
  omega

end Blk

/-- Some block of the list has the address. -/
def Covers (bs : List Blk) (x : Nat) : Prop := ∃ b ∈ bs, b.Has x

variable {as bs : List Blk}

theorem covers_append : Covers (as ++ bs) x ↔ Covers as x ∨ Covers bs x := by
  simp only [Covers, mem_append, or_and_right, exists_or]

variable {b : Blk}

theorem covers_single : Covers [b] x ↔ b.Has x := by simp [Covers]

theorem covers_cons : Covers (b :: bs) x ↔ b.Has x ∨ Covers bs x := by simp [Covers]

/-- Blocks that lie apart have no address in common with the rest of their list. -/
theorem not_covers_of_pairwise (h : (as ++ bs).Pairwise Blk.Apart) (hx : Covers as x) : ¬ Covers bs x := by
  rintro ⟨b, hb, hbx⟩
  obtain ⟨a, ha, hax⟩ := hx
  exact Blk.apart_iff.1 ((pairwise_append.1 h).2.2 a ha b hb) x hax hbx

theorem Blk.eq_of_addr (hapart : bs.Pairwise Blk.Apart) (hb : b ∈ bs)
    (hc : c ∈ bs) (h : b.addr = c.addr) : b = c := by
  by_contra hne
  have happ := hapart.forall hb hc hne
  unfold Blk.Apart Blk.stop at happ
  omega

/-! ## Headers in memory -/

/-- Where the three words of a header stand inside its 16 bytes. -/
structure HdrFields where
  sizeAt : Nat
  nextAt : Nat
  freeAt : Nat
  inside : sizeAt + 4 ≤ 16 ∧ nextAt + 4 ≤ 16 ∧ freeAt + 4 ≤ 16
  size_next : sizeAt + 4 ≤ nextAt ∨ nextAt + 4 ≤ sizeAt
  size_free : sizeAt + 4 ≤ freeAt ∨ freeAt + 4 ≤ sizeAt
  next_free : nextAt + 4 ≤ freeAt ∨ freeAt + 4 ≤ nextAt

namespace HdrFields

variable (f : HdrFields)

def size (m : Mem) (a : Nat) : Nat := m.r32 (a + f.sizeAt)

def next (m : Mem) (a : Nat) : Nat := m.r32 (a + f.nextAt)

def free (m : Mem) (a : Nat) : Nat := m.r32 (a + f.freeAt)

def setSize (m : Mem) (a v : Nat) : Mem := m.w32 (a + f.sizeAt) v

def setNext (m : Mem) (a v : Nat) : Mem := m.w32 (a + f.nextAt) v

def setFree (m : Mem) (a v : Nat) : Mem := m.w32 (a + f.freeAt) v

/-- The memory holds the header of `b`, with `nxt` as its successor. -/
structure At (m : Mem) (b : Blk) (nxt : Nat) : Prop where
  size : f.size m b.addr = b.size
  next : f.next m b.addr = nxt
  free : f.free m b.addr ≠ 0 ↔ b.free = true

/-- The list of blocks from address `a` on, read from memory. -/
def walk (m : Mem) : Nat → Nat → List Blk
  | 0, _ => []
  | fuel + 1, a =>
    if a = 0 then []
    else ⟨a, f.size m a, f.free m a != 0⟩ :: walk m fuel (f.next m a)

/-- The address of the first free block of at least `n` bytes from address `a` on, or `0`. -/
def firstFit (m : Mem) (n : Nat) : Nat → Nat → Nat
  | 0, _ => 0
  | fuel + 1, a =>
    if a = 0 then 0
    else if f.free m a ≠ 0 ∧ f.size m a ≥ n then a
    else firstFit m n fuel (f.next m a)

/-- The address of the last block of the list from address `a` on, or `prev` when it is empty. -/
def lastFrom (m : Mem) : Nat → Nat → Nat → Nat
  | 0, prev, _ => prev
  | fuel + 1, prev, a => if a = 0 then prev else lastFrom m fuel a (f.next m a)

/-- The successor of the block at `a` is free and lies right behind it. -/
def Merges (m : Mem) (a : Nat) : Prop :=
  f.next m a ≠ 0 ∧ f.free m (f.next m a) ≠ 0 ∧ f.next m a = add32 (add32 a 16) (f.size m a)

instance (m : Mem) (a : Nat) : Decidable (f.Merges m a) := inferInstanceAs (Decidable (_ ∧ _ ∧ _))

/-- Mark the block at `a` free and merge it with a free block right behind it. -/
def release (m : Mem) (a : Nat) : Mem :=
  let m := f.setFree m a 1
  let n := f.next m a
  if f.Merges m a then
    let m' := f.setSize m a (add32 (f.size m a) (add32 16 (f.size m n)))
    f.setNext m' a (f.next m' n)
  else m

section Access

variable {f} {m m' : Mem} {a v : Nat}

theorem At.congr (h : f.At m b nxt) (hm : ∀ i < 16, m' (b.addr + i) = m (b.addr + i)) : f.At m' b nxt := by
  have hin := f.inside
  have hword : ∀ o, o + 4 ≤ 16 → m'.r32 (b.addr + o) = m.r32 (b.addr + o) := by
    intro o ho
    refine Mem.r32_congr fun i hi => ?_
    rw [add_assoc]
    exact hm (o + i) (by omega)
  refine ⟨?_, ?_, ?_⟩
  · rw [← h.size]; exact hword _ hin.1
  · rw [← h.next]; exact hword _ hin.2.1
  rw [← h.free]
  show m'.r32 (b.addr + f.freeAt) ≠ 0 ↔ m.r32 (b.addr + f.freeAt) ≠ 0
  rw [hword _ hin.2.2]

section

variable (h : x < a ∨ a + 16 ≤ x)
include h

theorem setSize_of_ne : f.setSize m a v x = m x := Mem.w32_of_ne (by have := f.inside; omega)

theorem setNext_of_ne : f.setNext m a v x = m x := Mem.w32_of_ne (by have := f.inside; omega)

theorem setFree_of_ne : f.setFree m a v x = m x := Mem.w32_of_ne (by have := f.inside; omega)

end

theorem size_setSize (hv : v < 4294967296) : f.size (f.setSize m a v) a = v := Mem.r32_w32_self hv

theorem next_setNext (hv : v < 4294967296) : f.next (f.setNext m a v) a = v := Mem.r32_w32_self hv

theorem free_setFree (hv : v < 4294967296) : f.free (f.setFree m a v) a = v := Mem.r32_w32_self hv

@[simp] theorem size_setNext : f.size (f.setNext m a v) a = f.size m a :=
  Mem.r32_w32_of_ne (by have := f.size_next; omega)

@[simp] theorem size_setFree : f.size (f.setFree m a v) a = f.size m a :=
  Mem.r32_w32_of_ne (by have := f.size_free; omega)

@[simp] theorem next_setSize : f.next (f.setSize m a v) a = f.next m a :=
  Mem.r32_w32_of_ne (by have := f.size_next; omega)

@[simp] theorem next_setFree : f.next (f.setFree m a v) a = f.next m a :=
  Mem.r32_w32_of_ne (by have := f.next_free; omega)

@[simp] theorem free_setSize : f.free (f.setSize m a v) a = f.free m a :=
  Mem.r32_w32_of_ne (by have := f.size_free; omega)

@[simp] theorem free_setNext : f.free (f.setNext m a v) a = f.free m a :=
  Mem.r32_w32_of_ne (by have := f.next_free; omega)

section

variable (h : f.At m b nxt) (hv : v < 4294967296)
include h hv

/-- A header keeps its block under a write to its `next` word. -/
theorem At.setNext : f.At (f.setNext m b.addr v) b v :=
  ⟨by rw [size_setNext]; exact h.size, next_setNext hv, by rw [free_setNext]; exact h.free⟩

theorem At.setFree : f.At (f.setFree m b.addr v) { b with free := v != 0 } nxt :=
  ⟨by rw [size_setFree]; exact h.size, by rw [next_setFree]; exact h.next, by rw [free_setFree hv]; simp⟩

theorem At.setSize : f.At (f.setSize m b.addr v) { b with size := v } nxt :=
  ⟨size_setSize hv, by rw [next_setSize]; exact h.next, by rw [free_setSize]; exact h.free⟩

end

section

variable {s v : Nat} (hs : s < 4294967296) (hv : v < 4294967296) (hn : nxt < 4294967296)
include hs hv hn

/-- A header written word by word. -/
theorem at_setNext_setFree_setSize :
    f.At (f.setNext (f.setFree (f.setSize m a s) a v) a nxt) ⟨a, s, v != 0⟩ nxt := by
  refine ⟨?_, next_setNext hn, ?_⟩
  · rw [size_setNext, size_setFree, size_setSize hs]
  rw [free_setNext, free_setFree hv]
  simp

theorem at_setFree_setNext_setSize :
    f.At (f.setFree (f.setNext (f.setSize m a s) a nxt) a v) ⟨a, s, v != 0⟩ nxt := by
  refine ⟨?_, ?_, ?_⟩
  · rw [size_setFree, size_setNext, size_setSize hs]
  · rw [next_setFree, next_setNext hn]
  rw [free_setFree hv]
  simp

end

end Access

end HdrFields

open HdrFields

/-! ## Lists in memory -/

/-- The address a list starts at; `last` when it is empty. -/
def headAddr (last : Nat) : List Blk → Nat
  | [] => last
  | b :: _ => b.addr

@[simp] theorem headAddr_cons (last : Nat) (b : Blk) (bs : List Blk) : headAddr last (b :: bs) = b.addr := rfl

theorem headAddr_append (last : Nat) (as bs : List Blk) :
    headAddr last (as ++ bs) = headAddr (headAddr last bs) as := by
  cases as <;> rfl

/-- The memory holds the headers of the list, each linked to the next and the last one to `last`. -/
def Links (f : HdrFields) (m : Mem) (last : Nat) : List Blk → Prop
  | [] => True
  | b :: bs => f.At m b (headAddr last bs) ∧ Links f m last bs

section Links

variable {f : HdrFields} {m m' : Mem} {last : Nat}

theorem links_append : Links f m last (as ++ bs) ↔ Links f m (headAddr last bs) as ∧ Links f m last bs := by
  induction as with
  | nil => simp [Links]
  | cons a as ih => simp only [cons_append, Links, ih, headAddr_append, and_assoc]

theorem Links.congr (h : Links f m last bs)
    (hm : ∀ b ∈ bs, ∀ i < 16, m' (b.addr + i) = m (b.addr + i)) : Links f m' last bs := by
  induction bs with
  | nil => trivial
  | cons b bs ih =>
    exact ⟨h.1.congr (hm b mem_cons_self), ih h.2 (forall_mem_cons.1 hm).2⟩

theorem Links.walk_eq (h : Links f m 0 bs) (hpos : ∀ b ∈ bs, 0 < b.addr) :
    ∀ fuel, bs.length ≤ fuel → f.walk m fuel (headAddr 0 bs) = bs := by
  induction bs with
  | nil =>
    intro fuel _
    cases fuel <;> simp [walk, headAddr]
  | cons b bs ih => ?_
  intro fuel hlen
  obtain ⟨hat, hrest⟩ := h
  have hb := hpos b mem_cons_self
  cases fuel with
  | zero => simp at hlen
  | succ fuel => ?_
  rw [headAddr_cons, walk, if_neg (by omega), hat.next,
    ih hrest (forall_mem_cons.1 hpos).2 fuel (by simpa using hlen),
    hat.size]
  have hfree : (f.free m b.addr != 0) = b.free := by
    rw [Bool.eq_iff_iff, bne_iff_ne]
    exact hat.free
  rw [hfree]

/-- The scan finds the first block that fits, or nothing when none does. -/
theorem Links.firstFit_cases (h : Links f m 0 bs) (hpos : ∀ b ∈ bs, 0 < b.addr) :
    ∀ fuel, bs.length ≤ fuel → f.firstFit m n fuel (headAddr 0 bs) = 0 ∨
      ∃ pre b post, bs = pre ++ b :: post ∧ b.free = true ∧ n ≤ b.size ∧
        f.firstFit m n fuel (headAddr 0 bs) = b.addr := by
  induction bs with
  | nil =>
    intro fuel _
    left
    cases fuel <;> simp [firstFit, headAddr]
  | cons b bs ih => ?_
  intro fuel hlen
  obtain ⟨hat, hrest⟩ := h
  have hb := hpos b mem_cons_self
  cases fuel with
  | zero => simp at hlen
  | succ fuel => ?_
  rw [headAddr_cons, firstFit, if_neg (by omega), hat.size, hat.next]
  split
  · next hfit =>
    exact .inr ⟨[], b, bs, rfl, hat.free.1 hfit.1, hfit.2, rfl⟩
  rcases ih hrest (forall_mem_cons.1 hpos).2 fuel
    (by simpa using hlen) with h0 | ⟨pre, c, post, rfl, hfree, hsize, heq⟩
  · exact .inl h0
  · exact .inr ⟨b :: pre, c, post, rfl, hfree, hsize, heq⟩

theorem Links.lastFrom_eq {t : Blk} (h : Links f m 0 (bs ++ [t])) (hpos : ∀ b ∈ bs ++ [t], 0 < b.addr) :
    ∀ fuel prev, bs.length < fuel → f.lastFrom m fuel prev (headAddr 0 (bs ++ [t])) = t.addr := by
  induction bs with
  | nil =>
    intro fuel prev hlen
    have ht := hpos t mem_cons_self
    cases fuel with
    | zero => simp at hlen
    | succ fuel =>
      have hat : f.At m t 0 := h.1
      rw [nil_append, headAddr_cons, lastFrom, if_neg (by omega), hat.next]
      cases fuel <;> simp [lastFrom]
  | cons b bs ih => ?_
  intro fuel prev hlen
  obtain ⟨hat, hrest⟩ := h
  have hb := hpos b mem_cons_self
  cases fuel with
  | zero => simp at hlen
  | succ fuel =>
    rw [cons_append, headAddr_cons, lastFrom, if_neg (by omega), hat.next]
    exact ih hrest (forall_mem_cons.1 hpos).2 fuel _ (by simpa using hlen)

end Links

/-! ## Heaps -/

/-- The memory holds the heap `bs`: linked, well formed and pairwise apart. -/
structure Holds (f : HdrFields) (m : Mem) (bs : List Blk) : Prop where
  links : Links f m 0 bs
  apart : bs.Pairwise Blk.Apart
  wf : ∀ b ∈ bs, b.Wf

namespace Holds

variable {f : HdrFields} {m m' : Mem} {bs pre old new post : List Blk}

theorem nil : Holds f m [] := ⟨trivial, List.Pairwise.nil, forall_mem_nil _⟩

theorem pos (h : Holds f m bs) : ∀ b ∈ bs, 0 < b.addr := fun b hb => (h.wf b hb).pos

theorem at_mid (h : Holds f m (pre ++ [b] ++ post)) :
    f.At m b (headAddr 0 post) ∧ b.Wf ∧ headAddr 0 post < 4294967296 := by
  have hlinks := h.links
  rw [append_assoc, links_append, links_append] at hlinks
  refine ⟨hlinks.2.1.1, h.wf b (by simp), ?_⟩
  cases post with
  | nil => decide
  | cons c post => ?_
  have hstop := (h.wf c (by simp)).stop
  unfold Blk.stop at hstop
  rw [headAddr_cons]
  omega

/-- A stretch in the middle shares no address with the others. -/
theorem clear (h : Holds f m (pre ++ old ++ post)) (hx : Covers old x) : ¬ Covers (pre ++ post) x := by
  have happ := h.apart
  rw [append_assoc, pairwise_append] at happ
  intro hpp
  rcases covers_append.1 hpp with ⟨c, hc, hcx⟩ | hpost
  · obtain ⟨b, hb, hbx⟩ := hx
    exact Blk.apart_iff.1 (happ.2.2 c hc b (mem_append_left _ hb)) x hcx hbx
  exact not_covers_of_pairwise happ.2.1 hx hpost

theorem clear_mid (h : Holds f m (pre ++ [b] ++ post)) (hx : b.Has x) : ¬ Covers (pre ++ post) x :=
  h.clear (covers_single.2 hx)

theorem congr (h : Holds f m bs) (hm : ∀ b ∈ bs, ∀ i < 16, m' (b.addr + i) = m (b.addr + i)) :
    Holds f m' bs :=
  ⟨h.links.congr hm, h.apart, h.wf⟩

theorem setPayload (h : Holds f m bs) (hb : b ∈ bs) (hn : n ≤ b.size)
    (hm : ∀ x, ¬ (b.addr + 16 ≤ x ∧ x < b.addr + 16 + n) → m' x = m x) : Holds f m' bs := by
  refine h.congr fun c hc i hi => hm _ ?_
  by_cases hbc : c = b
  · subst hbc
    omega
  have happ := h.apart.forall hc hb hbc
  unfold Blk.Apart Blk.stop at happ
  omega

/-- **The edit rule**: a stretch of the list may be replaced by another one that starts at the same
address, is linked to what follows, and keeps clear of the other blocks, whose bytes stay. -/
theorem replace (h : Holds f m (pre ++ old ++ post)) (hhead : ∀ last, headAddr last old = headAddr last new)
    (hnew : Links f m' (headAddr 0 post) new) (happ : new.Pairwise Blk.Apart)
    (hwf : ∀ b ∈ new, b.Wf) (hclear : ∀ x, Covers new x → ¬ Covers (pre ++ post) x)
    (hmem : ∀ x, Covers (pre ++ post) x → m' x = m x) : Holds f m' (pre ++ new ++ post) := by
  obtain ⟨hlinks, hpair, hwfs⟩ := h
  rw [append_assoc, links_append, links_append] at hlinks
  obtain ⟨hpre, -, hpost⟩ := hlinks
  rw [append_assoc, pairwise_append, pairwise_append] at hpair
  obtain ⟨appre, ⟨-, appost, -⟩, hprepost⟩ := hpair
  have hsame : ∀ b ∈ pre ++ post, ∀ i < 16, m' (b.addr + i) = m (b.addr + i) :=
    fun b hb i hi => hmem _ ⟨b, hb, b.has_addr hi⟩
  have hcross : ∀ b ∈ new, ∀ c ∈ pre ++ post, b.Apart c := by
    intro b hb c hc
    rw [Blk.apart_iff]
    exact fun x hx hcx => hclear x ⟨b, hb, hx⟩ ⟨c, hc, hcx⟩
  refine ⟨?_, ?_, ?_⟩
  · rw [append_assoc, links_append, links_append]
    refine ⟨?_, hnew, hpost.congr fun b hb => hsame b (mem_append_right _ hb)⟩
    rw [headAddr_append, ← hhead, ← headAddr_append]
    exact hpre.congr fun b hb => hsame b (mem_append_left _ hb)
  · rw [append_assoc, pairwise_append, pairwise_append]
    refine ⟨appre, ⟨happ, appost, fun b hb c hc =>
      hcross b hb c (mem_append_right _ hc)⟩, fun c hc b hb => ?_⟩
    rcases mem_append.1 hb with hb | hb
    · exact (hcross b hb c (mem_append_left _ hc)).symm
    exact hprepost c hc b (mem_append_right _ hb)
  rw [forall_mem_append, forall_mem_append] at hwfs ⊢
  exact ⟨⟨hwfs.1.1, hwf⟩, hwfs.2⟩

/-- A block in fresh memory is linked behind the last one. -/
theorem append (h : Holds f m bs) {m1 : Mem} {nb : Blk} (hnb : f.At m1 nb 0) (hwf : nb.Wf)
    (hfresh : ∀ x, nb.Has x → ¬ Covers bs x) (hsame : ∀ x, Covers bs x → m1 x = m x)
    (hlink : (bs = [] ∧ m' = m1) ∨ ∃ pre t, bs = pre ++ [t] ∧ m' = f.setNext m1 t.addr nb.addr) :
    Holds f m' (bs ++ [nb]) := by
  rcases hlink with ⟨rfl, rfl⟩ | ⟨pre, t, rfl, rfl⟩
  · exact ⟨⟨hnb, trivial⟩, pairwise_singleton .., by simpa using hwf⟩
  have hold : Holds f m (pre ++ [t] ++ []) := by rw [append_nil]; exact h
  have happ : t.Apart nb := Blk.apart_iff.2 fun x hx hnx => hfresh x hnx ⟨t, by simp, hx⟩
  have hnew : f.At (f.setNext m1 t.addr nb.addr) nb 0 := hnb.congr fun i hi =>
    setNext_of_ne (by unfold Blk.Apart Blk.stop at happ; omega)
  have ht : f.At (f.setNext m1 t.addr nb.addr) t nb.addr :=
    (hold.at_mid.1.congr fun i hi => hsame _ ⟨t, by simp, t.has_addr hi⟩).setNext
      (by have := hwf.stop; unfold Blk.stop at this; omega)
  have hedit := @replace f m _ pre [t] [t, nb] [] hold (fun _ => rfl) ⟨ht, hnew, trivial⟩ ?_ ?_ ?_ ?_
  · simpa using hedit
  · rw [pairwise_pair]
    exact happ
  · exact forall_mem_cons.2 ⟨h.wf t (by simp), forall_mem_singleton.2 hwf⟩
  · intro x hx hpx
    rcases covers_cons.1 hx with hx | hx
    · exact hold.clear_mid hx hpx
    rw [append_nil] at hpx
    exact hfresh x (covers_single.1 hx) (covers_append.2 (.inl hpx))
  intro x hx
  have hnt : ¬ t.Has x := fun htx => hold.clear_mid htx hx
  rw [append_nil] at hx
  unfold Blk.Has Blk.stop at hnt
  exact (setNext_of_ne (by omega)).trans (hsame x (covers_append.2 (.inl hx)))

end Holds

/-- The addresses of a heap, counted. -/
theorem sum_le_of_apart (h : bs.Pairwise Blk.Apart)
    (hle : ∀ b ∈ bs, b.stop ≤ n) : (bs.map fun b => 16 + b.size).sum ≤ n := by
  -- the blocks as disjoint intervals inside `[0, n)`
  have hcard : ∀ bs : List Blk, bs.Pairwise Blk.Apart → ∃ s : Finset Nat, (∀ x, x ∈ s ↔ Covers bs x) ∧
        s.card = (bs.map fun b => 16 + b.size).sum := by
    intro bs
    induction bs with
    | nil => intro _; exact ⟨∅, by simp [Covers], rfl⟩
    | cons b bs ih => ?_
    intro hpair
    obtain ⟨s, hs, hc⟩ := ih (pairwise_cons.1 hpair).2
    refine ⟨Finset.Ico b.addr b.stop ∪ s, ?_, ?_⟩
    · intro x
      rw [Finset.mem_union, Finset.mem_Ico, hs, covers_cons]
      rfl
    rw [Finset.card_union_of_disjoint, Nat.card_Ico, hc, map_cons, sum_cons]
    · unfold Blk.stop
      omega
    rw [Finset.disjoint_left]
    intro x hx hxs
    have hbx : Covers [b] x := covers_single.2 (Finset.mem_Ico.1 hx)
    exact not_covers_of_pairwise hpair hbx ((hs x).1 hxs)
  obtain ⟨s, hs, hc⟩ := hcard bs h
  rw [← hc]
  have hsub : s ⊆ Finset.range n := ?_
  · exact le_trans (Finset.card_le_card hsub) (Finset.card_range n).le
  intro x hx
  obtain ⟨b, hb, hbx⟩ := (hs x).1 hx
  have := hle b hb
  rw [Finset.mem_range]
  unfold Blk.Has at hbx
  omega

variable {f : HdrFields}

/-! ## Taking memory out of a free block -/

/-- The blocks that stand in the place of `b` when `n` bytes of it are taken: the taken block and,
when at least `least` bytes are left over, a free one made of them. -/
def carve (least n : Nat) (b : Blk) : List Blk :=
  if least ≤ b.size - n then [⟨b.addr, n, false⟩, ⟨b.addr + 16 + n, b.size - n - 16, true⟩]
  else [⟨b.addr, b.size, false⟩]

section Carve

variable {least n : Nat} {b : Blk}

theorem carve_headAddr (last : Nat) : headAddr last [b] = headAddr last (carve least n b) := by
  unfold carve
  split <;> rfl

theorem covers_carve (hleast : 16 ≤ least) (hn : n ≤ b.size) : Covers (carve least n b) x ↔ b.Has x := by
  unfold carve
  split
  · rw [covers_cons, covers_single]
    simp only [Blk.Has, Blk.stop]
    omega
  rw [covers_single]
  rfl

theorem carve_apart : (carve least n b).Pairwise Blk.Apart := by
  unfold carve
  split
  · simp [Blk.Apart, Blk.stop]
  · simp

theorem carve_wf (hb : b.Wf) (hleast : 16 < least) (hn : n ≤ b.size) (hpos : 0 < n)
    (hmod : n % 8 = 0) : ∀ c ∈ carve least n b, c.Wf := by
  obtain ⟨haddr0, hroom, haddr, hsize, hstop⟩ := hb
  unfold Blk.stop at hstop
  unfold carve
  intro c hc
  split at hc
  · simp only [mem_cons, not_mem_nil, or_false] at hc
    rcases hc with rfl | rfl
    · exact ⟨haddr0, hpos, haddr, hmod, by simp only [Blk.stop]; omega⟩
    exact ⟨by simp only; omega, by simp only; omega, by simp only; omega,
      by simp only; omega, by simp only [Blk.stop]; omega⟩
  obtain rfl := mem_singleton.1 hc
  exact ⟨haddr0, hroom, haddr, hsize, hstop⟩

variable {pre post : List Blk}

theorem covers_carve_mid (hleast : 16 ≤ least) (hn : n ≤ b.size) :
    Covers (pre ++ carve least n b ++ post) x ↔ Covers (pre ++ [b] ++ post) x := by
  rw [covers_append, covers_append, covers_carve hleast hn, covers_append, covers_append, covers_single]

theorem carve_given (hn : n ≤ b.size) :
    ∃ c ∈ carve least n b, c.free = false ∧ c.addr = b.addr ∧ n ≤ c.size := by
  unfold carve
  split
  · exact ⟨⟨b.addr, n, false⟩, by simp, rfl, rfl, le_refl n⟩
  · exact ⟨⟨b.addr, b.size, false⟩, by simp, rfl, rfl, hn⟩

theorem mem_carve_of_used (hfree : b.free = true)
    (hc : c ∈ pre ++ [b] ++ post) (hused : c.free = false) : c ∈ pre ++ carve least n b ++ post := by
  have hne : c ≠ b := fun h => by simp [h, hfree] at hused
  have hother : c ∈ pre ∨ c ∈ post := by simpa [hne] using hc
  exact mem_append.2 (hother.imp_left (mem_append_left _))

/-- A heap in which a block was carved, the rest of memory untouched. -/
theorem Holds.carve
    (h : Holds f m (pre ++ [b] ++ post)) (hlinks : Links f m' (headAddr 0 post) (carve least n b))
    (hout : ∀ x, ¬ b.Has x → m' x = m x) (hleast : 16 < least) (hn : n ≤ b.size) (hpos : 0 < n)
    (hmod : n % 8 = 0) : Holds f m' (pre ++ Embedded.carve least n b ++ post) :=
  h.replace carve_headAddr hlinks carve_apart (carve_wf h.at_mid.2.1 hleast hn hpos hmod)
    (fun _ hx => h.clear_mid ((covers_carve (le_of_lt hleast) hn).1 hx))
    fun x hx => hout x fun hbx => h.clear_mid hbx hx

end Carve

/-! ## Giving a block back -/

/-- The list from `b` on when `b` is given back: it takes in a free block right behind it. -/
def freed (b : Blk) : List Blk → List Blk
  | [] => [⟨b.addr, b.size, true⟩]
  | c :: post =>
    if c.free = true ∧ c.addr = b.stop then ⟨b.addr, b.size + 16 + c.size, true⟩ :: post
    else ⟨b.addr, b.size, true⟩ :: c :: post

section Freed

variable {f : HdrFields} {m : Mem} {b c : Blk} {pre post : List Blk}

/-- Either nothing is merged, or the block behind goes into this one. -/
theorem freed_cases (b : Blk) (post : List Blk) : freed b post = ⟨b.addr, b.size, true⟩ :: post ∨
      ∃ c rest, post = c :: rest ∧ c.free = true ∧ c.addr = b.stop ∧
        freed b post = ⟨b.addr, b.size + 16 + c.size, true⟩ :: rest := by
  cases post with
  | nil => exact .inl rfl
  | cons c rest =>
    by_cases h : c.free = true ∧ c.addr = b.stop
    · exact .inr ⟨c, rest, rfl, h.1, h.2, if_pos h⟩
    exact .inl (if_neg h)

theorem covers_freed : Covers (freed b post) x ↔ b.Has x ∨ Covers post x := by
  rcases freed_cases b post with h | ⟨c, rest, rfl, -, hadj, h⟩
  · rw [h, covers_cons]
    rfl
  rw [h, covers_cons, covers_cons, ← or_assoc]
  refine or_congr_left ?_
  unfold Blk.Has Blk.stop at *
  simp only
  omega

theorem freed_headAddr (last : Nat) : headAddr last (freed b post) = b.addr := by
  rcases freed_cases b post with h | ⟨c, rest, rfl, -, hadj, h⟩ <;> rw [h, headAddr_cons]

variable (h : Holds f m (pre ++ [b] ++ post))
include h

/-- Marking a block free touches nothing but its header. -/
theorem Holds.setFree_mid : Holds f (f.setFree m b.addr 1) (pre ++ [⟨b.addr, b.size, true⟩] ++ post) := by
  obtain ⟨hat, hwf, -⟩ := h.at_mid
  have hhas : ∀ x, Covers [⟨b.addr, b.size, true⟩] x → b.Has x :=
    fun x hx => (covers_single.1 hx : Blk.Has ⟨b.addr, b.size, true⟩ x)
  refine h.replace (fun _ => rfl) ⟨hat.setFree (by omega), trivial⟩ (pairwise_singleton ..) ?_
    (fun x hx => h.clear_mid (hhas x hx)) fun x hx => ?_
  · intro c hc
    obtain rfl := mem_singleton.1 hc
    exact ⟨hwf.pos, hwf.room, hwf.addr, hwf.size, hwf.stop⟩
  have hout : ¬ b.Has x := fun hbx => h.clear_mid hbx hx
  unfold Blk.Has Blk.stop at hout
  exact setFree_of_ne (by omega)

omit h in
/-- The merge of a free block with the free block right behind it. -/
theorem Holds.merge (h : Holds f m (pre ++ [b] ++ c :: post)) (hadj : c.addr = b.stop) :
    Holds f (f.setNext (f.setSize m b.addr (b.size + 16 + c.size)) b.addr (headAddr 0 post))
      (pre ++ [⟨b.addr, b.size + 16 + c.size, b.free⟩] ++ post) := by
  have hlist : pre ++ [b] ++ c :: post = pre ++ [b, c] ++ post := by simp
  have hlist' : pre ++ [b] ++ c :: post = (pre ++ [b]) ++ [c] ++ post := by simp
  obtain ⟨hat, hbwf, -⟩ := h.at_mid
  have hc : Holds f m ((pre ++ [b]) ++ [c] ++ post) := by rw [← hlist']; exact h
  obtain ⟨-, hcwf, hnext⟩ := hc.at_mid
  have hstop := hcwf.stop
  unfold Blk.stop at hadj hstop
  have hhas : ∀ x, Covers [⟨b.addr, b.size + 16 + c.size, b.free⟩] x → Covers [b, c] x := by
    intro x
    rw [covers_single, covers_cons, covers_single]
    simp only [Blk.Has, Blk.stop]
    omega
  rw [hlist] at h
  refine h.replace (fun _ => rfl) ⟨?_, trivial⟩ (pairwise_singleton ..) ?_
    (fun x hx => h.clear (hhas x hx)) fun x hx => ?_
  · exact (hat.setSize (show b.size + 16 + c.size < 4294967296 by
      omega)).setNext hnext
  · intro d hd
    obtain rfl := mem_singleton.1 hd
    have h1 := hbwf.size
    have h2 := hcwf.size
    exact ⟨hbwf.pos, show 0 < b.size + 16 + c.size by omega, hbwf.addr,
      show (b.size + 16 + c.size) % 8 = 0 by omega,
      show b.addr + 16 + (b.size + 16 + c.size) ≤ 4294967296 by omega⟩
  have hout : ¬ b.Has x := fun hbx => h.clear (covers_cons.2 (.inl hbx)) hx
  unfold Blk.Has Blk.stop at hout
  rw [setNext_of_ne (by omega), setSize_of_ne (by omega)]

/-- What `release` does, in terms of the list the memory holds. -/
theorem Holds.release_eq :
    (¬ f.Merges (f.setFree m b.addr 1) b.addr ∧ freed b post = ⟨b.addr, b.size, true⟩ :: post ∧
      f.release m b.addr = f.setFree m b.addr 1) ∨
    ∃ c rest, f.Merges (f.setFree m b.addr 1) b.addr ∧
      f.next (f.setFree m b.addr 1) b.addr = c.addr ∧ post = c :: rest ∧ c.addr = b.stop ∧
      freed b post = ⟨b.addr, b.size + 16 + c.size, true⟩ :: rest ∧
      f.release m b.addr = f.setNext
        (f.setSize (f.setFree m b.addr 1) b.addr (b.size + 16 + c.size)) b.addr (headAddr 0 rest) := by
  have hmark := h.setFree_mid
  obtain ⟨hat, hwf, -⟩ := hmark.at_mid
  have hstop : b.addr + 16 + b.size ≤ 4294967296 := hwf.stop
  have hsize : f.size (f.setFree m b.addr 1) b.addr = b.size := hat.size
  have hnext : f.next (f.setFree m b.addr 1) b.addr = headAddr 0 post := hat.next
  unfold release
  simp only [hsize, hnext]
  cases post with
  | nil =>
    have hlast : ¬ f.Merges (f.setFree m b.addr 1) b.addr := fun hn => hn.1 hnext
    exact .inl ⟨hlast, rfl, if_neg hlast⟩
  | cons c rest => ?_
  have hlist : pre ++ [⟨b.addr, b.size, true⟩] ++ c :: rest =
      (pre ++ [⟨b.addr, b.size, true⟩]) ++ [c] ++ rest := by simp
  rw [hlist] at hmark
  obtain ⟨hcat, hcwf, -⟩ := hmark.at_mid
  have hcpos := hcwf.pos
  have hcstop := hcwf.stop
  unfold Blk.stop at hcstop
  rw [headAddr_cons] at hnext ⊢
  have hcond : f.Merges (f.setFree m b.addr 1) b.addr ↔ c.free = true ∧ c.addr = b.stop := by
    rw [HdrFields.Merges, hnext, hsize, hcat.free, add32, add32, Nat.mod_add_mod, Blk.stop]
    constructor
    · rintro ⟨-, hfree, hadj⟩
      exact ⟨hfree, by omega⟩
    rintro ⟨hfree, hadj⟩
    exact ⟨by omega, hfree, by omega⟩
  by_cases hmerge : c.free = true ∧ c.addr = b.stop
  · right
    refine ⟨c, rest, hcond.2 hmerge, rfl, rfl, hmerge.2, if_pos hmerge, ?_⟩
    rw [if_pos (hcond.2 hmerge), hcat.size]
    have hadj := hmerge.2
    unfold Blk.stop at hadj
    have hsum : add32 b.size (add32 16 c.size) = b.size + 16 + c.size := by
      unfold add32
      omega
    rw [hsum]
    -- the header behind is read after the size was written, and does not see it
    have hkeep : f.next (f.setSize (f.setFree m b.addr 1) b.addr (b.size + 16 + c.size)) c.addr =
        headAddr 0 rest := (hcat.congr fun i hi => setSize_of_ne (by omega)).next
    rw [hkeep]
  left
  have hlone : ¬ f.Merges (f.setFree m b.addr 1) b.addr := fun hn => hmerge (hcond.1 hn)
  exact ⟨hlone, if_neg hmerge, if_neg hlone⟩

/-- **Giving a block back**: the memory holds the list with the block freed, and only its header
has changed. -/
theorem Holds.release : Holds f (f.release m b.addr) (pre ++ freed b post) ∧
      ∀ x, x < b.addr ∨ b.addr + 16 ≤ x → f.release m b.addr x = m x := by
  have hmark := h.setFree_mid
  rcases h.release_eq with ⟨-, hlist, heq⟩ | ⟨c, rest, -, -, rfl, hadj, hlist, heq⟩
  · rw [hlist, heq]
    refine ⟨?_, fun x hx => setFree_of_ne hx⟩
    simpa using hmark
  rw [hlist, heq]
  refine ⟨?_, fun x hx => ?_⟩
  · simpa using hmark.merge hadj
  · rw [setNext_of_ne hx, setSize_of_ne hx, setFree_of_ne hx]

end Freed

/-! ## The blocks in use and their owners -/

/-- The payload bytes of the blocks in use. -/
def usedTotal (bs : List Blk) : Nat := ((bs.filter fun b => !b.free).map Blk.size).sum

theorem usedTotal_append (as bs : List Blk) : usedTotal (as ++ bs) = usedTotal as + usedTotal bs := by
  simp [usedTotal]

section

variable {m : Mem} (h : Holds f m bs)
include h

/-- The payload bytes in use and the headers fit into the address space. -/
theorem Holds.total_le : usedTotal bs + 16 * bs.length ≤ 4294967296 := by
  refine le_trans ?_ (sum_le_of_apart h.apart fun b hb => (h.wf b hb).stop)
  clear h
  induction bs with
  | nil => exact le_rfl
  | cons b bs ih => ?_
  have hsplit := usedTotal_append [b] bs
  have hone : usedTotal [b] ≤ b.size := by
    cases hf : b.free <;> simp [usedTotal, hf]
  rw [singleton_append] at hsplit
  rw [hsplit, length_cons, map_cons, sum_cons]
  omega

theorem Holds.length_le : bs.length ≤ 268435456 := by
  have := h.total_le
  omega

theorem Holds.usedTotal_lt : usedTotal bs < 4294967296 := by
  have hle := h.total_le
  cases bs with
  | nil => decide
  | cons b bs =>
    rw [length_cons] at hle
    omega

end

/-- Giving a block back takes its bytes out of the total. -/
theorem usedTotal_freed (b : Blk) (post : List Blk) : usedTotal (freed b post) = usedTotal post := by
  rcases freed_cases b post with h | ⟨c, rest, rfl, hfree, -, h⟩
  · rw [h]
    simp [usedTotal]
  rw [h]
  simp [usedTotal, hfree]

/-- The payloads of the blocks in use have not changed from `m` to `m'`. -/
def KeepsUsed (bs : List Blk) (m m' : Mem) : Prop :=
  ∀ b ∈ bs, b.free = false → ∀ i < b.size, m' (b.addr + 16 + i) = m (b.addr + 16 + i)

theorem Holds.keepsUsed {pre post : List Blk}
    (h : Holds f m (pre ++ [b] ++ post)) (hfree : b.free = true)
    (hout : ∀ x, ¬ b.Has x → m' x = m x) : KeepsUsed (pre ++ [b] ++ post) m m' := by
  intro c hc hused i hi
  have hne : c ≠ b := fun h => by simp [h, hfree] at hused
  have hother : c ∈ pre ++ post := by simpa [hne] using hc
  refine hout _ fun hbx => h.clear_mid hbx ⟨c, hother, ?_⟩
  unfold Blk.Has Blk.stop
  omega

/-- So does linking a block behind the last one. -/
theorem Holds.keepsUsed_append {m1 : Mem} {a : Nat}
    (h : Holds f m bs) (hsame : ∀ x, Covers bs x → m1 x = m x)
    (hlink : (bs = [] ∧ m' = m1) ∨ ∃ pre t, bs = pre ++ [t] ∧ m' = f.setNext m1 t.addr a) :
    KeepsUsed bs m m' := by
  intro c hc _ i hi
  have hcx : Covers bs (c.addr + 16 + i) := ⟨c, hc, by unfold Blk.Has Blk.stop; omega⟩
  rcases hlink with ⟨rfl, -⟩ | ⟨pre, t, rfl, rfl⟩
  · cases hc
  rw [setNext_of_ne, hsame _ hcx]
  by_cases hct : c = t
  · subst hct
    omega
  have happ := h.apart.forall hc (by simp) hct
  unfold Blk.Apart Blk.stop at happ
  omega

/-- Each of the pointers `live`, given out for a request of so many bytes, is the payload of a block
in use, and no two are the same. -/
structure GivenOut (bs : List Blk) (live : List (Nat × Nat)) : Prop where
  nodup : (live.map Prod.fst).Nodup
  block : ∀ e ∈ live, ∃ b ∈ bs, b.free = false ∧ b.addr + 16 = e.1 ∧ e.2 ≤ b.size

/-- The bytes behind the pointers have not changed from `m` to `m'`. -/
def KeepsLive (live : List (Nat × Nat)) (m m' : Mem) : Prop :=
  ∀ e ∈ live, ∀ i < e.2, m' (e.1 + i) = m (e.1 + i)

/-- The pointers left when `p` is given back. -/
def dropPtr (p : Nat) (live : List (Nat × Nat)) : List (Nat × Nat) := live.filter fun e => e.1 != p

/-- The pointers after a call that returned `q` for a request of `n` bytes in place of `p`. -/
def swapPtr (p q n : Nat) (live : List (Nat × Nat)) : List (Nat × Nat) :=
  if q = 0 then live else (q, n) :: dropPtr p live

variable {live : List (Nat × Nat)}

theorem dropPtr_keep {q : Nat} (h : q ≠ p) : dropPtr p ((q, n) :: live) = (q, n) :: dropPtr p live := by
  simp [dropPtr, h]

theorem dropPtr_of_ne (h : ∀ e ∈ live, e.1 ≠ p) : dropPtr p live = live := by
  rw [dropPtr, filter_eq_self]
  intro e he
  simpa using h e he

theorem not_mem_dropPtr : ∀ e ∈ dropPtr p live, e.1 ≠ p := by
  intro e he
  simpa using (mem_filter.1 he).2

namespace GivenOut

variable {bs bs' pre old new post : List Blk} {live : List (Nat × Nat)}

theorem nil : GivenOut bs [] := ⟨nodup_nil, forall_mem_nil _⟩

variable (h : GivenOut bs live)
include h

theorem keep {live' : List (Nat × Nat)} (hsub : live'.Sublist live)
    (hkeep : ∀ e ∈ live', ∀ b ∈ bs, b.free = false → b.addr + 16 = e.1 → b ∈ bs') :
    GivenOut bs' live' := by
  refine ⟨h.nodup.sublist (hsub.map _), fun e he => ?_⟩
  obtain ⟨b, hb, hused, haddr, hsize⟩ := h.block e (hsub.subset he)
  exact ⟨b, hkeep e he b hb hused haddr, hused, haddr, hsize⟩

/-- A pointer nobody has is given out for a block in use. -/
theorem give (hb : b ∈ bs) (hused : b.free = false)
    (hn : n ≤ b.size) (hnew : b.addr + 16 ∉ live.map Prod.fst) :
    GivenOut bs ((b.addr + 16, n) :: live) := by
  refine ⟨by rw [map_cons, nodup_cons]; exact ⟨hnew, h.nodup⟩, ?_⟩
  exact forall_mem_cons.2 ⟨⟨b, hb, hused, rfl, hn⟩, h.block⟩

/-- A pointer that is live is the payload of no free block. -/
theorem not_free (hapart : bs.Pairwise Blk.Apart) (hb : b ∈ bs)
    (hfree : b.free = true) : b.addr + 16 ∉ live.map Prod.fst := by
  intro hmem
  obtain ⟨e, he, heq⟩ := mem_map.1 hmem
  obtain ⟨c, hc, hused, haddr, -⟩ := h.block e he
  obtain rfl := Blk.eq_of_addr hapart hc hb (by omega)
  rw [hfree] at hused
  simp at hused

omit h in
/-- A free block is carved for a request of `req` bytes. -/
theorem carve {least n req : Nat} (h : GivenOut (pre ++ [b] ++ post) live)
    (hapart : (pre ++ [b] ++ post).Pairwise Blk.Apart) (hfree : b.free = true) (hn : n ≤ b.size)
    (hreq : req ≤ n) :
    GivenOut (pre ++ Embedded.carve least n b ++ post) ((b.addr + 16, req) :: live) := by
  obtain ⟨c, hc, hused, haddr, hsize⟩ := @carve_given least n b hn
  have hstay : GivenOut (pre ++ Embedded.carve least n b ++ post) live :=
    h.keep (List.Sublist.refl live) fun e _ d hd hdu _ => mem_carve_of_used hfree hd hdu
  have hmem : b ∈ pre ++ [b] ++ post := by simp
  have hnew := h.not_free hapart hmem hfree
  rw [← haddr] at hnew ⊢
  exact hstay.give (by simp [hc]) hused (le_trans hreq hsize) hnew

omit h in
/-- A block is given back: its pointer is gone, the others stay. -/
theorem release (h : GivenOut (pre ++ [b] ++ post) live) {live' : List (Nat × Nat)}
    (hsub : live'.Sublist live) (hgone : ∀ e ∈ live', e.1 ≠ b.addr + 16) :
    GivenOut (pre ++ freed b post) live' := by
  refine h.keep hsub fun e he c hc hused haddr => ?_
  have hne : c ≠ b := by
    rintro rfl
    exact hgone e he haddr.symm
  simp only [mem_append, mem_singleton] at hc ⊢
  rcases hc with (hc | hc) | hc
  · exact .inl hc
  · exact absurd hc hne
  right
  rcases freed_cases b post with h | ⟨d, rest, rfl, hfree, -, h⟩
  · rw [h]
    exact mem_cons_of_mem _ hc
  rw [h]
  rcases mem_cons.1 hc with rfl | hc
  · rw [hfree] at hused
    simp at hused
  exact mem_cons_of_mem _ hc

/-- The block of a live pointer, in its place in the list and as the memory has it. -/
theorem block_mid (hholds : Holds f m bs) {e : Nat × Nat} (he : e ∈ live) :
    ∃ pre b post, bs = pre ++ [b] ++ post ∧ b.free = false ∧ e.1 = b.addr + 16 ∧ e.2 ≤ b.size ∧
      sub32 e.1 16 = b.addr ∧ f.size m b.addr = b.size := by
  obtain ⟨b, hb, hused, haddr, hsize⟩ := h.block e he
  obtain ⟨pre, post, rfl⟩ := append_of_mem hb
  have hlist : pre ++ b :: post = pre ++ [b] ++ post := by simp
  rw [hlist] at hholds
  obtain ⟨hat, hwf, -⟩ := hholds.at_mid
  have hstop := hwf.stop
  unfold Blk.stop at hstop
  refine ⟨pre, b, post, hlist, hused, haddr.symm, hsize, ?_, hat.size⟩
  rw [← haddr, sub32]
  omega

theorem resize (hb : b ∈ bs) (hused : b.free = false)
    (hn : n ≤ b.size) : GivenOut bs ((b.addr + 16, n) :: dropPtr (b.addr + 16) live) := by
  have hdrop : GivenOut bs (dropPtr (b.addr + 16) live) := h.keep filter_sublist fun _ _ c hc _ _ => hc
  refine hdrop.give hb hused hn fun hin => ?_
  obtain ⟨d, hd, heq⟩ := mem_map.1 hin
  have hne := (mem_filter.1 hd).2
  simp [heq] at hne

/-- Payloads in use that stay are contents of live pointers that stay. -/
theorem keepsLive (hk : KeepsUsed bs m m') : KeepsLive live m m' := by
  intro e he i hi
  obtain ⟨b, hb, hused, haddr, hsize⟩ := h.block e he
  rw [← haddr]
  exact hk b hb hused i (by omega)

omit h in
theorem head_ne {q n : Nat} (h : GivenOut bs ((q, n) :: live)) : ∀ e ∈ live, e.1 ≠ q := by
  have hnodup := h.nodup
  rw [map_cons, nodup_cons] at hnodup
  intro e he heq
  have hin : e.1 ∈ live.map Prod.fst := mem_map_of_mem he
  rw [heq] at hin
  exact hnodup.1 hin

theorem ne_zero : ∀ e ∈ live, e.1 ≠ 0 := by
  intro e he
  obtain ⟨b, -, -, haddr, -⟩ := h.block e he
  omega

theorem pairwise (hapart : bs.Pairwise Blk.Apart) :
    live.Pairwise fun e e' => e.1 + e.2 ≤ e'.1 ∨ e'.1 + e'.2 ≤ e.1 := by
  have hne : live.Pairwise fun e e' => e.1 ≠ e'.1 := pairwise_map.1 h.nodup
  refine hne.imp_of_mem fun {e e'} he he' hpq => ?_
  obtain ⟨b, hb, -, haddr, hsize⟩ := h.block e he
  obtain ⟨c, hc, -, haddr', hsize'⟩ := h.block e' he'
  have happ := hapart.forall hb hc (by rintro rfl; omega)
  unfold Blk.Apart Blk.stop at happ
  omega

theorem header (hapart : bs.Pairwise Blk.Apart) :
    ∀ e ∈ live, ∀ b ∈ bs, e.1 + e.2 ≤ b.addr ∨ b.addr + 16 ≤ e.1 := by
  intro e he b hb
  obtain ⟨c, hc, -, haddr, hsize⟩ := h.block e he
  by_cases hbc : c = b
  · subst hbc
    omega
  have happ := hapart.forall hc hb hbc
  unfold Blk.Apart Blk.stop at happ
  omega

end GivenOut

/-- Every block in use is the block of a live pointer. -/
def AllGiven (bs : List Blk) (live : List (Nat × Nat)) : Prop :=
  ∀ b ∈ bs, b.free = false → b.addr + 16 ∈ live.map Prod.fst

namespace AllGiven

variable {pre post bs : List Blk}

theorem carve {least req : Nat} (h : AllGiven (pre ++ [b] ++ post) live) :
    AllGiven (pre ++ Embedded.carve least n b ++ post) ((b.addr + 16, req) :: live) := by
  intro c hc hused
  rw [mem_append, mem_append] at hc
  rcases hc with (hc | hc) | hc
  · exact mem_cons_of_mem _ (h c (by simp [hc]) hused)
  · unfold Embedded.carve at hc
    split at hc <;> simp at hc <;> rcases hc with rfl | rfl <;> simp at hused ⊢
  · exact mem_cons_of_mem _ (h c (by simp [hc]) hused)

theorem drop (h : AllGiven bs live) {q : Nat} {c : Blk} (hc : c ∈ bs) (hused : c.free = false)
    (hne : c.addr + 16 ≠ q) : c.addr + 16 ∈ (dropPtr q live).map Prod.fst := by
  obtain ⟨e, he, heq⟩ := mem_map.1 (h c hc hused)
  exact mem_map.2 ⟨e, mem_filter.2 ⟨he, by simpa [heq] using hne⟩, heq⟩

theorem release (h : AllGiven (pre ++ [b] ++ post) live) (hapart : (pre ++ [b] ++ post).Pairwise Blk.Apart) :
    AllGiven (pre ++ freed b post) (dropPtr (b.addr + 16) live) := by
  intro c hc hused
  have hother : c ∈ pre ∨ c ∈ post := by
    rcases mem_append.1 hc with hc | hc
    · exact .inl hc
    rcases freed_cases b post with h | ⟨d, rest, rfl, -, -, h⟩
    · rw [h] at hc
      rcases mem_cons.1 hc with rfl | hc
      · simp at hused
      · exact .inr hc
    · rw [h] at hc
      rcases mem_cons.1 hc with rfl | hc
      · simp at hused
      · exact .inr (mem_cons_of_mem _ hc)
  refine h.drop (by rcases hother with hc | hc <;> simp [hc]) hused fun heq => ?_
  rw [append_assoc, pairwise_append] at hapart
  obtain ⟨-, hrest, hpre⟩ := hapart
  have happ : c.Apart b ∨ b.Apart c := hother.imp (fun hc => hpre c hc b (by simp))
    fun hc => (pairwise_cons.1 hrest).1 c hc
  unfold Blk.Apart Blk.stop at happ
  omega

theorem resize (h : AllGiven bs live) (q : Nat) : AllGiven bs ((q, n) :: dropPtr q live) := by
  intro c hc hused
  by_cases hq : c.addr + 16 = q
  · simp [hq]
  · exact mem_cons_of_mem _ (h.drop hc hused hq)

end AllGiven

end Embedded
