import Embedded.Lib.BlockList
import Embedded.Lib.Run
import Embedded.Kernel.Mmap

/-! # The user heap (`libc/src/malloc.c`, `libc/src/sbrk.c`)

The allocator of user programs: blocks in one linked list, grown by moving the program break. The
break belongs to the kernel; `brk` is its system call as a program sees it (`sysBrk_brk` says that
the kernel's own `sys_brk` answers that way). Whether the kernel has pages left is not up to the
program, so every call that may grow the heap takes the answer as an argument. -/

namespace Embedded.Libc

open List HdrFields

/-- The break of a process and the limits `sys_brk` keeps it in. -/
structure Brk where
  start : Nat
  ceiling : Nat
  cur : Nat

/-- `brk(2)`; `room` says whether the kernel finds the pages to grow. -/
def brk (k : Brk) (addr : Nat) (room : Bool) : Nat × Brk :=
  if addr < k.start then (k.cur, k)
  else if addr ≥ k.ceiling then (k.cur, k)
  else if pageUp addr > pageUp k.cur ∧ room = false then (k.cur, k)
  else (addr, { k with cur := addr })

/-- The break of the current process, as the kernel keeps it. -/
def brkOf (k : Kernel.KState) : Brk := ⟨k.proc.brkStart, k.proc.brkCeiling, k.proc.brk⟩

/-- The kernel's `sys_brk` does what `brk` does for some answer of the page allocator. -/
theorem sysBrk_brk (k : Kernel.KState) (addr : Nat) :
    ∃ room, (Kernel.sysBrk k addr).1 = (brk (brkOf k) addr room).1 ∧
      brkOf (Kernel.sysBrk k addr).2 = (brk (brkOf k) addr room).2 := by
  simp only [Kernel.sysBrk]
  generalize Kernel.mapPages k.proc.l1Pa false k.mm []
    (Kernel.pagesBetween (pageUp k.proc.brk) (pageUp addr)) = g
  refine ⟨g.1, ?_⟩
  by_cases hlow : addr < k.proc.brkStart
  · simp [brk, brkOf, hlow]
  by_cases hhigh : addr ≥ k.proc.brkCeiling
  · simp [brk, brkOf, hlow, hhigh]
  by_cases hfail : pageUp addr > pageUp k.proc.brk ∧ g.1 = false
  · rw [if_neg hlow, if_neg hhigh, if_pos hfail, brk, brkOf, if_neg hlow, if_neg hhigh, if_pos hfail]
    exact ⟨rfl, rfl⟩
  rw [if_neg hlow, if_neg hhigh, if_neg hfail, brk, brkOf, if_neg hlow, if_neg hhigh, if_neg hfail]
  simp [brkOf, Kernel.KState.proc, Kernel.KState.setProc]

theorem size_before_next : 0 + 4 ≤ 4 ∨ 4 + 4 ≤ 0 := by decide

theorem size_before_free : 0 + 4 ≤ 8 ∨ 8 + 4 ≤ 0 := by decide

/-- `block_t`. -/
def block : HdrFields where
  sizeAt := 0
  nextAt := 4
  freeAt := 8
  inside := by decide
  size_next := size_before_next
  size_free := size_before_free
  next_free := by decide

/-- The memory of the process, the statics of `malloc.c` and `sbrk.c`, and the break. -/
structure LHeap where
  mem : Mem
  head : Nat := 0
  curBrk : Nat := 0
  sys : Brk

/-- More rounds than a list of blocks in the 32-bit space can have. -/
def maxBlocks : Nat := 268435456

/-- `(void *)-1`. -/
def sbrkFail : Nat := 0xFFFFFFFF

/-- `sbrk`, the increment as a word. -/
def sbrk (h : LHeap) (incr : Nat) (room : Bool) : Nat × LHeap :=
  let h :=
    if h.curBrk = 0 then
      let q := brk h.sys 0 room
      { h with curBrk := q.1, sys := q.2 }
    else h
  let old := h.curBrk
  if incr = 0 then (old, h)
  else
    let want := add32 old incr
    let r := brk h.sys want room
    if r.1 < want then (sbrkFail, { h with sys := r.2 })
    else (old, { h with curBrk := r.1, sys := r.2 })

/-- `grow`. -/
def grow (h : LHeap) (need : Nat) (room : Bool) : Nat × LHeap :=
  let want := add32 (align8 need) 16
  let r := sbrk h want room
  if r.1 = sbrkFail then (0, r.2)
  else
    let m := block.setSize r.2.mem r.1 (align8 need)
    let m := block.setNext m r.1 0
    let m := block.setFree m r.1 0
    (r.1, { r.2 with mem := m })

/-- What `malloc` does with the free block it has found: split it and mark it. -/
def useBlock (m : Mem) (b n : Nat) : Mem :=
  let m :=
    if block.size m b ≥ add32 (add32 n 16) 8 then
      let rest := add32 (add32 b 16) n
      let m := block.setSize m rest (sub32 (sub32 (block.size m b) n) 16)
      let m := block.setNext m rest (block.next m b)
      let m := block.setFree m rest 1
      let m := block.setSize m b n
      block.setNext m b rest
    else m
  block.setFree m b 0

/-- `malloc`. -/
def malloc (h : LHeap) (n : Nat) (room : Bool) : Nat × LHeap :=
  if n = 0 then (0, h)
  else
    let n := align8 n
    let b := block.firstFit h.mem n maxBlocks h.head
    if b ≠ 0 then (add32 b 16, { h with mem := useBlock h.mem b n })
    else
      let prev := block.lastFrom h.mem maxBlocks 0 h.head
      let r := grow h n room
      let nb := r.1
      if nb = 0 then (0, r.2)
      else if prev ≠ 0 then (add32 nb 16, { r.2 with mem := block.setNext r.2.mem prev nb })
      else (add32 nb 16, { r.2 with head := nb })

/-- `free`. -/
def free (h : LHeap) (p : Nat) : LHeap :=
  if p = 0 then h
  else
    let b := sub32 p 16
    let m := block.setFree h.mem b 1
    let n := block.next m b
    if n ≠ 0 ∧ block.free m n ≠ 0 ∧ add32 (add32 b 16) (block.size m b) = n then
      let m := block.setSize m b (add32 (block.size m b) (add32 16 (block.size m n)))
      { h with mem := block.setNext m b (block.next m (block.next m b)) }
    else { h with mem := m }

/-- `calloc`. -/
def calloc (h : LHeap) (nmemb size : Nat) (room : Bool) : Nat × LHeap :=
  let total := nmemb * size % 4294967296
  if nmemb ≠ 0 ∧ total / nmemb ≠ size then (0, h)
  else
    let r := malloc h total room
    if r.1 ≠ 0 then (r.1, { r.2 with mem := r.2.mem.zero r.1 total }) else r

/-- `realloc`. -/
def realloc (h : LHeap) (p n : Nat) (room : Bool) : Nat × LHeap :=
  if p = 0 then malloc h n room
  else if n = 0 then (0, free h p)
  else
    let b := sub32 p 16
    if block.size h.mem b ≥ n then (p, h)
    else
      let r := malloc h n room
      if r.1 = 0 then (0, r.2)
      else
        (r.1, free { r.2 with mem := r.2.mem.copy r.1 p (block.size r.2.mem b) } p)

/-- The blocks of the heap, in list order. -/
def LHeap.blocks (h : LHeap) : List Blk := block.walk h.mem maxBlocks h.head

/-! ## The heap as a list of blocks -/

/-- A break as `exec` sets it up and `malloc` moves it. -/
structure Brk.Ok (k : Brk) : Prop where
  pos : 0 < k.start
  le : k.start ≤ k.cur
  ceiling : k.cur ≤ k.ceiling
  max : k.ceiling ≤ 0x38000000
  aligned : k.cur % 8 = 0

/-- The heap is the list `bs` below the break, the pointers `live` are given out. -/
structure LInv (h : LHeap) (bs : List Blk) (live : List (Nat × Nat)) : Prop where
  holds : Holds block h.mem bs
  head : h.head = headAddr 0 bs
  sys : h.sys.Ok
  cur : h.curBrk = 0 ∨ h.curBrk = h.sys.cur
  below : ∀ b ∈ bs, b.stop ≤ h.sys.cur
  owns : GivenOut bs live

/-- The request, rounded and with its header, fits above the break without wrapping. -/
def Fits (h : LHeap) (n : Nat) : Prop := h.sys.cur + (n + 7) / 8 * 8 + 16 < 4294967296

instance (h : LHeap) (n : Nat) : Decidable (Fits h n) := inferInstanceAs (Decidable (_ < _))

section Calls

variable {h : LHeap} {bs pre post : List Blk} {b : Blk} {live : List (Nat × Nat)} {n : Nat}
  {room : Bool}

theorem LInv.blocks_eq (inv : LInv h bs live) : h.blocks = bs := by
  rw [LHeap.blocks, inv.head]
  exact inv.holds.links.walk_eq inv.holds.pos _ inv.holds.length_le

theorem align8_of_fits (hfit : Fits h n) (hpos : 0 < n) :
    align8 n = (n + 7) / 8 * 8 ∧ n ≤ align8 n ∧ 0 < align8 n ∧ align8 n % 8 = 0 ∧
      h.sys.cur + align8 n + 16 < 4294967296 := by
  unfold Fits at hfit
  have heq : align8 n = (n + 7) / 8 * 8 := by
    unfold align8 add32
    omega
  rw [heq]
  omega

/-- **`sbrk`**: the break stays where it is and the call fails, or it moves up by the increment and
the call returns where it was. -/
theorem sbrk_cases (hsys : h.sys.Ok) (hcur : h.curBrk = 0 ∨ h.curBrk = h.sys.cur) {incr : Nat}
    (hincr : 0 < incr) (hwrap : h.sys.cur + incr < 4294967296) :
    (sbrk h incr room = (sbrkFail, { h with curBrk := h.sys.cur })) ∨
    (h.sys.cur + incr < h.sys.ceiling ∧ sbrk h incr room = (h.sys.cur,
      { h with curBrk := h.sys.cur + incr, sys := { h.sys with cur := h.sys.cur + incr } })) := by
  obtain ⟨hpos, hle, hceil, hmax, -⟩ := hsys
  have hquery : brk h.sys 0 room = (h.sys.cur, h.sys) := if_pos hpos
  have hload : (if h.curBrk = 0 then { h with curBrk := h.sys.cur, sys := h.sys } else h) =
      { h with curBrk := h.sys.cur } := by
    split
    · rfl
    next hne =>
    rw [← hcur.resolve_left hne]
  have hwant : add32 h.sys.cur incr = h.sys.cur + incr := Nat.mod_eq_of_lt hwrap
  unfold sbrk
  simp only [hquery, hload, hwant, if_neg (show incr ≠ 0 by omega)]
  unfold brk
  rw [if_neg (show ¬ h.sys.cur + incr < h.sys.start by omega)]
  by_cases hhigh : h.sys.cur + incr ≥ h.sys.ceiling
  · left
    rw [if_pos hhigh]
    simp only [if_pos (show h.sys.cur < h.sys.cur + incr by omega)]
  rw [if_neg hhigh]
  by_cases hroom : pageUp (h.sys.cur + incr) > pageUp h.sys.cur ∧ room = false
  · left
    rw [if_pos hroom]
    simp only [if_pos (show h.sys.cur < h.sys.cur + incr by omega)]
  right
  rw [if_neg hroom]
  simp only [if_neg (show ¬ h.sys.cur + incr < h.sys.cur + incr by omega)]
  exact ⟨by omega, trivial⟩

/-- **Using a block**: it is carved, the rest of memory stays. -/
theorem useBlock_spec {m : Mem} {nxt : Nat} (hat : block.At m b nxt) (hb : b.stop ≤ 0x38000000)
    (hnxt : nxt < 4294967296) (hn : n ≤ b.size) :
    Links block (useBlock m b.addr n) nxt (carve 24 n b) ∧ ∀ x, ¬ b.Has x → useBlock m b.addr n x = m x := by
  unfold Blk.stop at hb
  have hneed : add32 (add32 n 16) 8 = n + 24 := by
    unfold add32
    omega
  have hplace : add32 (add32 b.addr 16) n = (b.addr + 16 + n) % 4294967296 := by
    unfold add32
    omega
  unfold useBlock
  simp only [hat.size, hneed]
  by_cases hlarge : b.size ≥ n + 24
  · have hcarve : carve 24 n b = [⟨b.addr, n, false⟩, ⟨b.addr + 16 + n, b.size - n - 16, true⟩] :=
      if_pos (by omega)
    have hrest : sub32 (sub32 b.size n) 16 = b.size - n - 16 := by
      unfold sub32
      omega
    rw [if_pos hlarge, hcarve, hrest, hplace, Nat.mod_eq_of_lt (by omega)]
    generalize hr : b.addr + 16 + n = r
    -- the header of the rest is written first; it lies in the payload of the block
    have hnext : block.next (block.setSize m r (b.size - n - 16)) b.addr = nxt :=
      (hat.congr fun i hi => setSize_of_ne (by omega)).next
    rw [hnext]
    have hfirst : block.At (block.setFree (block.setNext (block.setSize m r (b.size - n - 16)) r nxt)
        r 1) b nxt := by
      refine hat.congr fun i hi => ?_
      rw [setFree_of_ne (by omega), setNext_of_ne (by omega), setSize_of_ne (by omega)]
    have hsecond : block.At (block.setFree (block.setNext (block.setSize m r (b.size - n - 16)) r nxt)
        r 1) ⟨r, b.size - n - 16, true⟩ nxt :=
      at_setFree_setNext_setSize (by omega) (by omega) hnxt
    refine ⟨⟨?_, ?_, trivial⟩, fun x hx => ?_⟩
    · exact ((hfirst.setSize (by omega)).setNext (by omega)).setFree (by omega)
    · refine hsecond.congr fun i hi => ?_
      have hfar : r + i < b.addr ∨ b.addr + 16 ≤ r + i := by omega
      rw [setFree_of_ne hfar, setNext_of_ne hfar, setSize_of_ne hfar]
    unfold Blk.Has Blk.stop at hx
    rw [setFree_of_ne (by omega), setNext_of_ne (by omega),
      setSize_of_ne (by omega), setFree_of_ne (by omega),
      setNext_of_ne (by omega), setSize_of_ne (by omega)]
  have hcarve : carve 24 n b = [⟨b.addr, b.size, false⟩] := if_neg (by omega)
  rw [if_neg hlarge, hcarve]
  refine ⟨⟨hat.setFree (by omega), trivial⟩, fun x hx => ?_⟩
  unfold Blk.Has Blk.stop at hx
  exact setFree_of_ne (by omega)

variable (inv : LInv h bs live)
include inv

/-- Blocks with no new addresses stay below the break. -/
theorem LInv.below_of_covers {bs' : List Blk}
    (hcov : ∀ x, Covers bs' x → Covers bs x) : ∀ c ∈ bs', c.stop ≤ h.sys.cur := by
  intro c hc
  obtain ⟨d, hd, hdx⟩ := hcov (c.stop - 1) ⟨c, hc, by unfold Blk.Has Blk.stop; omega⟩
  have hbelow := inv.below d hd
  unfold Blk.Has at hdx
  omega

omit inv in
theorem LInv.useBlock (inv : LInv h (pre ++ [b] ++ post) live) (hfree : b.free = true)
    (hn : n ≤ b.size) (hpos : 0 < n) (hmod : n % 8 = 0) {req : Nat} (hreq : req ≤ n) :
    LInv { h with mem := Libc.useBlock h.mem b.addr n } (pre ++ carve 24 n b ++ post)
      ((b.addr + 16, req) :: live) ∧
    KeepsUsed (pre ++ [b] ++ post) h.mem (Libc.useBlock h.mem b.addr n) := by
  obtain ⟨hat, -, hnext⟩ := inv.holds.at_mid
  have hlow : b.stop ≤ 0x38000000 := le_trans (inv.below b (by simp)) (le_trans inv.sys.ceiling inv.sys.max)
  obtain ⟨hlinks, hout⟩ := useBlock_spec hat hlow hnext hn
  refine ⟨⟨inv.holds.carve hlinks hout (by omega) hn hpos hmod, ?_, inv.sys, inv.cur, ?_,
    inv.owns.carve inv.holds.apart hfree hn hreq⟩, inv.holds.keepsUsed hfree hout⟩
  · show h.head = _
    rw [inv.head, headAddr_append, headAddr_append, carve_headAddr, headAddr_append, headAddr_append]
  exact inv.below_of_covers fun x hx => (covers_carve_mid (by omega) hn).1 hx

/-- **Growing**: nothing but the cached break changes, or a block in use stands at the old break and
ends at the new one. -/
theorem grow_cases (hwrap : h.sys.cur + n + 16 < 4294967296) (hmod : n % 8 = 0) :
    (grow h n room = (0, { h with curBrk := h.sys.cur })) ∨
    ∃ m', grow h n room = (h.sys.cur, ⟨m', h.head, h.sys.cur + (n + 16),
        { h.sys with cur := h.sys.cur + (n + 16) }⟩) ∧
      h.sys.cur + (n + 16) < h.sys.ceiling ∧
      block.At m' ⟨h.sys.cur, n, false⟩ 0 ∧
      ∀ x, x < h.sys.cur → m' x = h.mem x := by
  have halign : align8 n = n := by
    unfold align8 add32
    omega
  have hwant : add32 n 16 = n + 16 := by
    unfold add32
    omega
  unfold grow
  simp only [halign, hwant]
  rcases @sbrk_cases h room inv.sys inv.cur (n + 16) (by omega) (by omega) with hfail | ⟨hlt, hmoved⟩
  · left
    rw [hfail]
    rfl
  right
  rw [hmoved]
  have hok : h.sys.cur ≠ sbrkFail := by
    unfold sbrkFail
    omega
  simp only [if_neg hok]
  refine ⟨_, rfl, hlt, ?_, fun x hx => ?_⟩
  · exact at_setFree_setNext_setSize (by omega) (by omega) (by omega)
  · rw [setFree_of_ne (by omega), setNext_of_ne (by omega), setSize_of_ne (by omega)]

/-- The block `grow` made is linked behind the last one: the heap after `malloc` had to grow it. -/
theorem LInv.append {m1 m' : Mem} {head : Nat} (hmod : n % 8 = 0) (hpos : 0 < n)
    (hceil : h.sys.cur + (n + 16) < h.sys.ceiling)
    (hnb : block.At m1 ⟨h.sys.cur, n, false⟩ 0) (hsame : ∀ x, x < h.sys.cur → m1 x = h.mem x)
    (hlink : (bs = [] ∧ m' = m1 ∧ head = h.sys.cur) ∨
      ∃ pre t, bs = pre ++ [t] ∧ m' = block.setNext m1 t.addr h.sys.cur ∧ head = h.head)
    {req : Nat} (hreq : req ≤ n) :
    LInv ⟨m', head, h.sys.cur + (n + 16), { h.sys with cur := h.sys.cur + (n + 16) }⟩
      (bs ++ [⟨h.sys.cur, n, false⟩]) ((h.sys.cur + 16, req) :: live) ∧
    KeepsUsed bs h.mem m' := by
  obtain ⟨hstart, hle, hcur, hmax, hcur8⟩ := inv.sys
  have hlow : ∀ x, Covers bs x → x < h.sys.cur := by
    rintro x ⟨c, hc, hcx⟩
    have hbelow := inv.below c hc
    unfold Blk.Has at hcx
    omega
  have hwf : Blk.Wf ⟨h.sys.cur, n, false⟩ :=
    ⟨show 0 < h.sys.cur by omega, hpos, hcur8, hmod, show h.sys.cur + 16 + n ≤ 4294967296 by omega⟩
  have hfresh : ∀ x, Blk.Has ⟨h.sys.cur, n, false⟩ x → ¬ Covers bs x := by
    intro x hx hbx
    have hxlow := hlow x hbx
    have hxhigh : h.sys.cur ≤ x := hx.1
    omega
  have hold : ∀ x, Covers bs x → m1 x = h.mem x := fun x hx => hsame x (hlow x hx)
  have hlink' : (bs = [] ∧ m' = m1) ∨ ∃ pre t, bs = pre ++ [t] ∧ m' = block.setNext m1 t.addr h.sys.cur :=
    hlink.imp (fun hn => ⟨hn.1, hn.2.1⟩) fun ⟨pre, t, hbs, hm, _⟩ => ⟨pre, t, hbs, hm⟩
  refine ⟨⟨inv.holds.append hnb hwf hfresh hold hlink', ?_, ?_, .inr rfl, ?_, ?_⟩,
    inv.holds.keepsUsed_append hold hlink'⟩
  · show head = _
    rcases hlink with ⟨rfl, -, rfl⟩ | ⟨pre, t, hbs, -, rfl⟩
    · rfl
    rw [inv.head, hbs, headAddr_append, headAddr_append, headAddr_append]
    rfl
  · exact ⟨hstart, show h.sys.start ≤ h.sys.cur + (n + 16) by omega, le_of_lt hceil, hmax,
      show (h.sys.cur + (n + 16)) % 8 = 0 by omega⟩
  · intro c hc
    show c.stop ≤ h.sys.cur + (n + 16)
    rcases mem_append.1 hc with hc | hc
    · exact le_trans (inv.below c hc) (by omega)
    obtain rfl := mem_singleton.1 hc
    show h.sys.cur + 16 + n ≤ _
    omega
  have hold : GivenOut (bs ++ [⟨h.sys.cur, n, false⟩]) live :=
    inv.owns.keep (List.Sublist.refl _) fun _ _ c hc _ _ => mem_append_left _ hc
  refine hold.give (b := ⟨h.sys.cur, n, false⟩) (by simp) rfl hreq fun hin => ?_
  obtain ⟨e, he, heq⟩ := mem_map.1 hin
  obtain ⟨c, hc, -, haddr, -⟩ := inv.owns.block e he
  have hclow := inv.below c hc
  unfold Blk.stop at hclow
  simp only at heq
  omega

/-- **`malloc`**: it returns NULL and leaves the heap as it is, or gives out a pointer to as many
bytes as the rounded request. The blocks in use and their payloads stay. -/
theorem LInv.malloc (hpos : 0 < n) (hfit : Fits h n) :
    ((Libc.malloc h n room).1 = 0 ∧ (Libc.malloc h n room).2.mem = h.mem ∧
      LInv (Libc.malloc h n room).2 bs live) ∨
    ((Libc.malloc h n room).1 ≠ 0 ∧ KeepsUsed bs h.mem (Libc.malloc h n room).2.mem ∧
      ∃ bs', (∀ c ∈ bs, c.free = false → c ∈ bs') ∧ ∀ req ≤ align8 n,
        LInv (Libc.malloc h n room).2 bs' (((Libc.malloc h n room).1, req) :: live)) := by
  obtain ⟨-, hle, hpos8, hmod, hwrap⟩ := align8_of_fits hfit hpos
  unfold Libc.malloc
  rw [if_neg (by omega)]
  generalize align8 n = n' at *
  simp only
  have hfound := Links.firstFit_cases (n := n') inv.holds.links inv.holds.pos maxBlocks inv.holds.length_le
  rw [← inv.head] at hfound
  rcases hfound with hnone | ⟨pre, b, post, rfl, hfree, hsize, hfound⟩
  · rw [hnone, if_neg (by simp)]
    rcases grow_cases inv hwrap hmod with hfail | ⟨m1, hgrow, hceil, hnb, hsame⟩
    · rw [hfail]
      exact .inl ⟨rfl, rfl, { inv with cur := .inr rfl }⟩
    have hcur : 0 < h.sys.cur := lt_of_lt_of_le inv.sys.pos inv.sys.le
    have hptr : add32 h.sys.cur 16 = h.sys.cur + 16 := Nat.mod_eq_of_lt (by omega)
    rw [hgrow, hptr]
    simp only [if_neg (show h.sys.cur ≠ 0 by omega)]
    right
    rcases eq_nil_or_concat bs with rfl | ⟨pre, t, hbs⟩
    · have hhead : h.head = 0 := inv.head
      have hprev : block.lastFrom h.mem maxBlocks 0 h.head = 0 := by
        rw [hhead]
        rfl
      rw [hprev, if_neg (by simp)]
      have happend := fun req hreq => @LInv.append h [] live n' inv m1 m1 h.sys.cur hmod hpos8 hceil
        hnb hsame (.inl ⟨rfl, rfl, rfl⟩) req hreq
      exact ⟨by simp only; omega, (happend 0 (by omega)).2, _,
        fun c hc _ => mem_append_left _ hc, fun req hreq => (happend req hreq).1⟩
    rw [concat_eq_append] at hbs
    have ht := inv.holds.pos t (by rw [hbs]; simp)
    have hprev : block.lastFrom h.mem maxBlocks 0 h.head = t.addr := by
      rw [inv.head, hbs]
      refine Links.lastFrom_eq (hbs ▸ inv.holds.links) (hbs ▸ inv.holds.pos) _ _ ?_
      have hlen := inv.holds.length_le
      rw [hbs, length_append] at hlen
      exact hlen
    rw [hprev, if_pos (by omega)]
    have happend := fun req hreq => @LInv.append h bs live n' inv m1 _ h.head hmod hpos8 hceil
      hnb hsame (.inr ⟨pre, t, hbs, rfl, rfl⟩) req hreq
    exact ⟨by simp only; omega, (happend 0 (by omega)).2, _,
      fun c hc _ => mem_append_left _ hc, fun req hreq => (happend req hreq).1⟩
  have hb := inv.holds.wf b (by simp)
  have hbpos := hb.pos
  have hstop := hb.stop
  unfold Blk.stop at hstop
  have hptr : add32 b.addr 16 = b.addr + 16 := Nat.mod_eq_of_lt (by omega)
  rw [hfound, if_pos (by omega), hptr]
  have hlist : pre ++ b :: post = pre ++ [b] ++ post := by simp
  rw [hlist] at inv ⊢
  exact .inr ⟨by simp only; omega, (inv.useBlock hfree hsize hpos8 hmod le_rfl).2, _,
    fun c hc hcu => mem_carve_of_used hfree hc hcu,
    fun req hreq => (inv.useBlock hfree hsize hpos8 hmod hreq).1⟩

/-! ## `free`, `calloc` and `realloc` -/

omit inv in
theorem free_eq {p : Nat} (hp : p ≠ 0) : free h p = { h with mem := block.release h.mem (sub32 p 16) } := by
  unfold free
  simp only [if_neg hp, release, next_setSize]
  by_cases hm : block.Merges (block.setFree h.mem (sub32 p 16) 1) (sub32 p 16)
  · rw [if_pos hm, if_pos ⟨hm.1, hm.2.1, hm.2.2.symm⟩]
  · rw [if_neg hm, if_neg fun hn => hm ⟨hn.1, hn.2.1, hn.2.2.symm⟩]

/-- **`free`**: the pointer is given back, the bytes behind the others stay. -/
theorem LInv.free {e : Nat × Nat} (he : e ∈ live) : (∃ bs', LInv (Libc.free h e.1) bs' (dropPtr e.1 live)) ∧
      KeepsLive live h.mem (Libc.free h e.1).mem := by
  obtain ⟨pre, b, post, rfl, hused, haddr, hsize, hsub, -⟩ := inv.owns.block_mid inv.holds he
  obtain ⟨hholds, hframe⟩ := inv.holds.release
  rw [free_eq (by omega), hsub, haddr]
  refine ⟨⟨pre ++ freed b post, hholds, ?_, inv.sys, inv.cur, ?_, ?_⟩, fun d hd i hi => ?_⟩
  · show h.head = _
    rw [inv.head, append_assoc, headAddr_append, headAddr_append, headAddr_append, freed_headAddr]
    rfl
  · refine inv.below_of_covers fun x hx => ?_
    rw [covers_append, covers_freed] at hx
    rw [covers_append, covers_append, covers_single, or_assoc]
    exact hx
  · exact inv.owns.release filter_sublist not_mem_dropPtr
  have hhdr := inv.owns.header inv.holds.apart d hd b (by simp)
  exact hframe _ (by omega)

/-- The rest of the heap does not see a write into the payload of a pointer. -/
theorem LInv.setPayload {b : Blk} (hb : b ∈ bs) (hn : n ≤ b.size) {m' : Mem}
    (hm : ∀ x, ¬ (b.addr + 16 ≤ x ∧ x < b.addr + 16 + n) → m' x = h.mem x) :
    LInv { h with mem := m' } bs live ∧
      ∀ d ∈ live, d.1 ≠ b.addr + 16 → ∀ i < d.2, m' (d.1 + i) = h.mem (d.1 + i) := by
  refine ⟨{ inv with holds := inv.holds.setPayload hb hn hm }, fun d hd hne i hi => hm _ ?_⟩
  obtain ⟨c, hc, -, haddr, hsize⟩ := inv.owns.block d hd
  have happ := inv.holds.apart.forall hc hb (by rintro rfl; omega)
  unfold Blk.Apart Blk.stop at happ
  omega

/-- **`calloc`**: as `malloc` for the product, if that is a word. -/
theorem LInv.calloc {nmemb size : Nat} (hfit : nmemb * size < 4294967296 → Fits h (nmemb * size)) :
    (∃ bs', LInv (Libc.calloc h nmemb size room).2 bs' (if (Libc.calloc h nmemb size room).1 = 0 then live
        else ((Libc.calloc h nmemb size room).1, nmemb * size) :: live)) ∧
    KeepsLive live h.mem (Libc.calloc h nmemb size room).2.mem := by
  unfold Libc.calloc
  by_cases hover : nmemb ≠ 0 ∧ nmemb * size % 4294967296 / nmemb ≠ size
  · rw [if_pos hover]
    exact ⟨⟨bs, inv⟩, fun _ _ _ _ => rfl⟩
  rw [if_neg hover]
  -- the check lets exactly the products through that are words
  have hword : nmemb * size < 4294967296 := by
    by_contra hbig
    have hne : nmemb ≠ 0 := by
      rintro rfl
      simp at hbig
    have hdiv : nmemb * size % 4294967296 / nmemb = size := by
      by_contra hd
      exact hover ⟨hne, hd⟩
    have hmul := Nat.div_mul_le_self (nmemb * size % 4294967296) nmemb
    rw [hdiv, mul_comm] at hmul
    omega
  rw [Nat.mod_eq_of_lt hword]
  have hfit := hfit hword
  generalize nmemb * size = n at *
  rcases Nat.eq_zero_or_pos n with rfl | hpos
  · have hnull : Libc.malloc h 0 room = (0, h) := if_pos rfl
    rw [hnull]
    exact ⟨⟨bs, inv⟩, fun _ _ _ _ => rfl⟩
  rcases LInv.malloc inv hpos hfit with ⟨hzero, hmem, hinv⟩ | ⟨hne, hkeep, bs', -, hinv⟩
  · rw [if_neg (by simpa using hzero), if_pos hzero]
    exact ⟨⟨bs, hinv⟩, fun e _ i _ => by rw [hmem]⟩
  rw [if_pos hne]
  simp only [if_neg hne]
  generalize Libc.malloc h n room = r at *
  have hle := (align8_of_fits hfit hpos).2.1
  have hnew := hinv n hle
  obtain ⟨b, hb, -, haddr, hroom⟩ := hnew.owns.block _ mem_cons_self
  obtain ⟨hcleared, hothers⟩ := hnew.setPayload hb hroom fun x hx =>
    @Mem.zero_of_not_mem r.2.mem r.1 n x (by omega)
  refine ⟨⟨bs', hcleared⟩, fun e he i hi => ?_⟩
  have hdiff := hnew.owns.head_ne e he
  rw [← haddr] at hdiff
  exact (hothers e (mem_cons_of_mem _ he) hdiff i hi).trans (inv.owns.keepsLive hkeep e he i hi)

/-- **`realloc`** of a live pointer to a size that is not `0`: it fails and changes nothing, or the
pointer it returns stands for the old one, with the old contents as far as both requests reach. -/
theorem LInv.realloc {e : Nat × Nat} (he : e ∈ live) (hpos : 0 < n) (hfit : Fits h n) :
    (∃ bs', LInv (Libc.realloc h e.1 n room).2 bs' (swapPtr e.1 (Libc.realloc h e.1 n room).1 n live)) ∧
    KeepsLive live h.mem (Libc.realloc h e.1 n room).2.mem ∧
    ((Libc.realloc h e.1 n room).1 ≠ 0 → ∀ i < min e.2 n,
      (Libc.realloc h e.1 n room).2.mem ((Libc.realloc h e.1 n room).1 + i) = h.mem (e.1 + i)) := by
  obtain ⟨pre, b, post, hbs, hused, haddr, hsize, hsub, hread⟩ := inv.owns.block_mid inv.holds he
  have hmem : b ∈ bs := by rw [hbs]; simp
  unfold Libc.realloc
  simp only [hsub, hread]
  rw [if_neg (by omega), if_neg (by omega)]
  by_cases hbig : b.size ≥ n
  · rw [if_pos hbig]
    refine ⟨⟨bs, ?_⟩, fun _ _ _ _ => rfl, fun _ i _ => rfl⟩
    rw [swapPtr, if_neg (by simp only; omega)]
    refine { inv with owns := ?_ }
    rw [haddr]
    exact inv.owns.resize hmem hused (by omega)
  rw [if_neg hbig]
  rcases LInv.malloc inv hpos hfit with ⟨hzero, hsame, hinv⟩ | ⟨hne, hkeep, bs', hstay, hinv⟩
  · rw [if_pos hzero]
    refine ⟨⟨bs, by rw [swapPtr, if_pos rfl]; exact hinv⟩, fun d _ i _ => ?_, fun h => absurd rfl h⟩
    simp only [hsame]
  rw [if_neg hne]
  generalize Libc.malloc h n room = r at *
  have hround := (align8_of_fits hfit hpos).2.1
  have hnew := hinv n hround
  have hdiff := hnew.owns.head_ne e he
  -- the old block is still there, with the size it had
  have hbmem := hstay b hmem hused
  have hread' : block.size r.2.mem b.addr = b.size := by
    obtain ⟨pre', post', rfl⟩ := append_of_mem hbmem
    have hlist : pre' ++ b :: post' = pre' ++ [b] ++ post' := by simp
    rw [hlist] at hnew
    exact hnew.holds.at_mid.1.size
  -- the new one has room for all of it
  obtain ⟨c, hc, -, hcaddr, hcroom⟩ := (hinv (align8 n) le_rfl).owns.block _ mem_cons_self
  rw [hread']
  obtain ⟨hcopied, hothers⟩ := hnew.setPayload hc (by omega) fun x hx =>
    @Mem.copy_of_not_mem r.2.mem r.1 e.1 b.size x (by omega)
  obtain ⟨⟨bs'', hfreed⟩, hkept⟩ := hcopied.free (mem_cons_of_mem _ he)
  rw [dropPtr_keep hdiff.symm] at hfreed
  refine ⟨⟨bs'', by rw [swapPtr, if_neg hne]; exact hfreed⟩, fun d hd i hi => ?_, fun _ i hi => ?_⟩
  · have hdr := hnew.owns.head_ne d hd
    rw [← hcaddr] at hdr
    calc (Libc.free _ e.1).mem (d.1 + i)
        = r.2.mem.copy r.1 e.1 b.size (d.1 + i) := hkept d (mem_cons_of_mem _ hd) i hi
      _ = r.2.mem (d.1 + i) := hothers d (mem_cons_of_mem _ hd) hdr i hi
      _ = h.mem (d.1 + i) := inv.owns.keepsLive hkeep d hd i hi
  calc (Libc.free _ e.1).mem (r.1 + i) = r.2.mem.copy r.1 e.1 b.size (r.1 + i) := hkept _ mem_cons_self i (by
        omega)
    _ = r.2.mem (e.1 + i) := by rw [Mem.copy, if_pos (by omega), Nat.add_sub_cancel_left]
    _ = h.mem (e.1 + i) := inv.owns.keepsLive hkeep e he i (by omega)

end Calls

end Embedded.Libc
