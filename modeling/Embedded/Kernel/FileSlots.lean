import Embedded.Kernel.Isolation

/-! # The page slots of reads and writes, and seeks

The loops of `ramfs_read` and `ramfs_write` go through the slots of a file page by page. A write
computes the pages it needs in 32 bits: just below 4 GiB the number wraps to 0, and the loop stores
through slots that the file does not have. -/

namespace Embedded.Kernel

variable {k : KState} {fs : Fs} {live : Set Nat} {p off n : Nat}

/-- The rounds of the loops for `n` bytes from `off` on: how many bytes are done, and how many the
    round copies. -/
def chunks (off n : Nat) : Nat → Nat → List (Nat × Nat)
  | 0, _ => []
  | fuel + 1, done =>
    if done < n then
      let chunk := min (4096 - (off + done) % 4096) (n - done)
      (done, chunk) :: chunks off n fuel (done + chunk)
    else []

/-- The page index that each round uses. -/
def slots (off n : Nat) : List Nat := (chunks off n n 0).map fun c => (off + c.1) / 4096

/-- Where the round `c` of a loop from `off` on loads or stores. -/
def Fs.slotAddr (fs : Fs) (p off : Nat) (c : Nat × Nat) : Nat :=
  (fs.inodes p).pages ((off + c.1) / 4096) + (off + c.1) % 4096

theorem readLoop_chunks (mem : Mem) (p off n : Nat) : ∀ fuel done,
    readLoop mem (fs.inodes p).pages off n fuel done =
      (chunks off n fuel done).flatMap fun c => mem.read (fs.slotAddr p off c) c.2
  | 0, _ => rfl
  | fuel + 1, done => by
    simp only [readLoop, chunks]
    split
    · rw [readLoop_chunks mem p off n fuel]
      rfl
    · rfl

theorem writeLoop_chunks (p off : Nat) (src : Bytes) : ∀ fuel done mem,
    writeLoop (fs.inodes p).pages off src fuel done mem = (chunks off src.length fuel done).foldl
      (fun mem c => mem.write (fs.slotAddr p off c) ((src.drop c.1).take c.2)) mem
  | 0, _, _ => rfl
  | fuel + 1, done, mem => by
    simp only [writeLoop, chunks]
    split
    · rw [writeLoop_chunks p off src fuel]
      rfl
    · rfl

/-- The rounds go through the pages of all the bytes. -/
theorem forall_chunks {P : Nat → Prop} (off n : Nat) : ∀ fuel done, n ≤ done + fuel →
    ((∀ c ∈ chunks off n fuel done, P ((off + c.1) / 4096)) ↔
      ∀ pos, off + done ≤ pos → pos < off + n → P (pos / 4096))
  | 0, done, h => by simp only [chunks]; exact iff_of_true (by simp) fun pos _ _ => by omega
  | fuel + 1, done, h => by
    simp only [chunks]
    split
    · next hlt =>
      rw [List.forall_mem_cons, forall_chunks off n fuel _ (by omega)]
      refine ⟨fun ⟨h1, h2⟩ pos ha hb => ?_, fun h =>
        ⟨h _ (Nat.le_refl _) (by omega), fun pos _ => h pos (by omega)⟩⟩
      -- a byte of this round is in the page of its first
      by_cases hc : pos / 4096 = (off + done) / 4096
      · rwa [hc]
      · exact h2 pos (by omega) hb
    · exact iff_of_true (by simp) fun pos _ _ => by omega

/-- Slot `i` is one of the pages of the file, and its frame is allocated. -/
def Fs.ownsSlot (fs : Fs) (p i : Nat) : Prop :=
  i < (fs.inodes p).npages ∧ fs.mm.used ((fs.inodes p).pages i / 4096)

/-- The slots of `n` bytes are the file's exactly when the bytes lie in its pages. -/
theorem slots_owned_iff (inv : FsInv fs live) (ht : (fs.inodes p).type = .reg) (hn : n ≠ 0) :
    (∀ i ∈ slots off n, fs.ownsSlot p i) ↔ off + n ≤ (fs.inodes p).npages * 4096 := by
  rw [slots, List.forall_mem_map, forall_chunks (P := fs.ownsSlot p) off n n 0 (by omega)]
  constructor
  · intro h
    have := (h (off + n - 1) (by omega) (by omega)).1
    omega
  · intro h pos _ hpos
    have hlt : pos / 4096 < (fs.inodes p).npages := by omega
    exact ⟨hlt, (inv.owns.alloc (p, pos / 4096) _ ⟨ht, hlt, rfl⟩).1⟩

/-- A page count that wraps to 0 changes nothing. -/
theorem ensurePages_zero (fs : Fs) (p : Nat) : (ensurePages fs p 0).1 = 0 ∧
    ((ensurePages fs p 0).2.inodes p).npages = (fs.inodes p).npages := by
  simp [ensurePages, growSlots, fillPages, Fs.setInode]

/-- A read takes the bytes it returns from the slots of as many bytes, and they are the file's. -/
theorem ramfsRead_slots (inv : FsInv fs live) (ht : (fs.inodes p).type = .reg) (off n : Nat) :
    let r := ramfsRead fs p off n
    r.2 = ((chunks off r.1.toNat r.1.toNat 0).flatMap fun c => fs.mm.mem.read (fs.slotAddr p off c) c.2) ∧
    ∀ i ∈ slots off r.1.toNat, fs.ownsSlot p i := by
  have hsize := inv.sizes p ht
  simp only [ramfsRead, ht, ne_eq, not_true_eq_false, if_false]
  split
  · simp [chunks, slots]
  simp only [Int.toNat_natCast]
  refine ⟨readLoop_chunks .., ?_⟩
  generalize hm : (if n > (fs.inodes p).size - off then (fs.inodes p).size - off else n) = m
  rcases Nat.eq_zero_or_pos m with rfl | hpos
  · simp [chunks, slots]
  · refine (slots_owned_iff inv ht (by omega)).2 ?_
    split at hm <;> omega

/-- A write that succeeds stores its bytes through the slots of the file as it is then. -/
theorem ramfsWrite_stores (p off : Nat) (src : Bytes) (h : 0 ≤ (ramfsWrite fs p off src).1) :
    let r := ramfsWrite fs p off src
    r.2.mm.mem = (chunks off src.length src.length 0).foldl
      (fun mem c => mem.write (r.2.slotAddr p off c) ((src.drop c.1).take c.2))
      (ensurePages fs p (add32 (off + src.length) 4095 / 4096)).2.mm.mem := by
  unfold ramfsWrite at h ⊢
  split at h
  · simp at h
  split at h
  · simp at h
  next hreg hlen =>
  simp only [if_neg hreg, if_neg hlen] at h ⊢
  split at h
  · simp at h
  next hret =>
  simp only [if_neg hret]
  rw [writeLoop_chunks]
  split
  · simp [Fs.setInode, Fs.slotAddr]
  · rfl

/-- When the slots of a write that succeeds are the file's. -/
theorem ramfsWrite_slots_iff (inv : FsInv fs live) (ht : (fs.inodes p).type = .reg) (off : Nat)
    (src : Bytes) :
    (0 ≤ (ramfsWrite fs p off src).1 →
      ∀ i ∈ slots off src.length, (ramfsWrite fs p off src).2.ownsSlot p i) ↔
    src = [] ∨ off + src.length ≤ 0xFFFFF000 ∨ 0xFFFFFFFF < off + src.length ∨
      off + src.length ≤ (fs.inodes p).npages * 4096 := by
  have he := ensurePages_step (.refl inv) p (add32 (off + src.length) 4095 / 4096)
  have hok := ensurePages_ok fs p (add32 (off + src.length) 4095 / 4096)
  rw [← List.length_eq_zero_iff]
  by_cases hn : src.length = 0
  · simp [hn, slots, chunks]
  unfold ramfsWrite
  simp only [ht, ne_eq, not_true_eq_false, if_false]
  split
  · exact iff_of_true (by simp) (by omega)
  have hwrap : 0xFFFFF000 < off + src.length → _ := fun hw => by
    have hzero := ensurePages_zero fs p
    rwa [← show add32 (off + src.length) 4095 / 4096 = 0 by unfold add32; omega] at hzero
  generalize ensurePages fs p (add32 (off + src.length) 4095 / 4096) = r at he hok hwrap ⊢
  obtain ⟨ret, fs1⟩ := r
  simp only at he hok hwrap ⊢
  split
  · next hret =>
    have : ¬ 0xFFFFF000 < off + src.length := fun hw => hret (hwrap hw).1
    exact iff_of_true (by simp) (by omega)
  next hret =>
  obtain ⟨hnp, hty, -⟩ := hok (by simpa using hret)
  simp only [Int.natCast_nonneg, forall_const]
  -- after `ensure_pages` only the size of the file changes
  refine Iff.trans (forall₂_congr fun i _ => (?_ : _ ↔ fs1.ownsSlot p i)) ?_
  · split <;> simp [Fs.ownsSlot, Fs.setInode, Mm.used]
  rw [slots_owned_iff he.inv (hty.trans ht) hn]
  by_cases hw : 0xFFFFF000 < off + src.length
  · rw [(hwrap hw).2]
    omega
  · rw [add32, Nat.mod_eq_of_lt (by omega)] at hnp
    omega

/-- **The slots of a read or write are pages of the file**, in every state and at every offset, but
    for a write that ends in the last page below 4 GiB and behind the file's pages. -/
theorem slots_in_range_iff (h : ReachedIf Event.fits k) (ht : (k.inodes p).type = .reg) (off n : Nat)
    (src : Bytes) :
    (let r := ramfsRead k.toFs p off n
     r.2 = ((chunks off r.1.toNat r.1.toNat 0).flatMap fun c => k.mm.mem.read (k.slotAddr p off c) c.2) ∧
     ∀ i ∈ slots off r.1.toNat, k.ownsSlot p i) ∧
    let r := ramfsWrite k.toFs p off src
    (0 ≤ r.1 → r.2.mm.mem = (chunks off src.length src.length 0).foldl
      (fun mem c => mem.write (r.2.slotAddr p off c) ((src.drop c.1).take c.2))
      (ensurePages k.toFs p (add32 (off + src.length) 4095 / 4096)).2.mm.mem) ∧
    ((0 ≤ r.1 → ∀ i ∈ slots off src.length, r.2.ownsSlot p i) ↔
      src = [] ∨ off + src.length ≤ 0xFFFFF000 ∨ 0xFFFFFFFF < off + src.length ∨
        off + src.length ≤ (k.inodes p).npages * 4096) :=
  have inv := (reached_kinv h).fs
  ⟨ramfsRead_slots inv ht off n, ramfsWrite_stores p off src, ramfsWrite_slots_iff inv ht off src⟩

theorem slots_in_range_iff_init : (tiny.inodes 2).type = .reg ∧
    slots 80 (ramfsRead tiny.toFs 2 80 100).1.toNat = [0] ∧
    ∀ i ∈ slots 80 (ramfsRead tiny.toFs 2 80 100).1.toNat, tiny.ownsSlot 2 i := by
  have ht : (tiny.inodes 2).type = .reg := by decide +kernel
  exact ⟨ht, by decide +kernel, (slots_in_range_iff (.init tiny_booted) ht 80 100 []).1.2⟩

/-- `/init` opened, and two seeks. -/
def seekRun : List Event :=
  [.syscall {} (.openat (-100) [47, 105, 110, 105, 116] 2 0), .syscall {} (.lseek 0 0x7FFFFFFF 0),
    .syscall {} (.lseek 0 0x7FFFFFFF 1)]

/-- A byte written after them is stored through a slot far behind the file's one page. -/
theorem write_after_seeks_out_of_range :
    (fdFile (runFrom next tiny seekRun) 0).map (fun x => (x.2.inode, x.2.off)) = some (2, 0xFFFFFFFE) ∧
    (ramfsWrite (runFrom next tiny seekRun).toFs 2 0xFFFFFFFE [1]).1 = 1 ∧
    ∃ i ∈ slots 0xFFFFFFFE 1,
      ¬ (ramfsWrite (runFrom next tiny seekRun).toFs 2 0xFFFFFFFE [1]).2.ownsSlot 2 i := by
  unfold Fs.ownsSlot Mm.used
  decide +kernel

/-! ## Seeking -/

section Seek

variable {fd whence base : Int} {f : File}

/-- The 64-bit displacement that the two words of `llseek` are. -/
def displacement (hi lo : UInt32) : Int := toInt32 hi.toNat * 4294967296 + lo.toNat

/-- What `sys_llseek` stores in `*result_uptr` when it succeeds, under a high word of 0: `res[0]` and
    the new `f->off` are both `(uint32_t)np`. -/
def llseekResult (k : KState) (fd : Int) (offHi offLo : Nat) (whence : Int) : Option Nat :=
  let r := sysLlseek k fd offHi offLo whence
  if r.1 < 0 then none else (fdFile r.2 fd).map fun x => x.2.off

/-- The call fails and changes nothing, or the offset is moved by the displacement, and reported. -/
def SeeksExactly (k : KState) (fd : Int) (hi lo : UInt32) (whence : Int) : Prop :=
  let r := sysLlseek k fd hi.toNat lo.toNat whence
  r.1 < 0 ∧ r.2 = k ∨
  ∃ x ∈ fdFile k fd, ∃ base ∈ seekBase k x.2 whence, ∃ off, r.1 = 0 ∧
    r.2 = k.setFile x.1 (some { x.2 with off := off }) ∧
    llseekResult k fd hi.toNat lo.toNat whence = some off ∧ (off : Int) = base + displacement hi lo

theorem seekBase_range (h : f.off < 4294967296 ∧ (k.inodes f.inode).size < 4294967296)
    (hb : seekBase k f whence = some base) : 0 ≤ base ∧ base < 4294967296 := by
  unfold seekBase at hb
  split_ifs at hb <;> cases hb <;> omega

theorem fdFile_setFile (h : fdFile k fd = some (p, f)) (f' : File) :
    fdFile (k.setFile p (some f')) fd = some (p, f') := by
  unfold fdFile at h ⊢
  rw [show fdGet (k.setFile p (some f')) fd = fdGet k fd from rfl]
  split at h
  · cases h
  · obtain ⟨g, -, hg⟩ := Option.map_eq_some_iff.1 h
    cases hg
    simp [KState.setFile]

/-- **Seeks by 64 bits are exact** where the call is refused (a bad descriptor or `whence`, a high
    word that is no sign, a negative sum with the low word) and where the exact offset has 32 bits:
    only the low word is added. -/
theorem llseek_exact_iff (hfile : ∀ x ∈ fdFile k fd, x.2.off < 4294967296 ∧
      (k.inodes x.2.inode).size < 4294967296) (hi lo : UInt32) (whence : Int) :
    SeeksExactly k fd hi lo whence ↔ (hi ≠ 0 ∧ hi ≠ 0xFFFFFFFF) ∨
      ∀ x ∈ fdFile k fd, ∀ base ∈ seekBase k x.2 whence, base + toInt32 lo.toNat < 0 ∨
        0 ≤ base + displacement hi lo ∧ base + displacement hi lo < 4294967296 := by
  have hhi := hi.toNat_lt
  have hlo := lo.toNat_lt
  have hword : hi.toNat ≠ 0 ∧ hi.toNat ≠ 0xFFFFFFFF ↔ hi ≠ 0 ∧ hi ≠ 0xFFFFFFFF := by
    rw [Ne, Ne, Ne, Ne, ← UInt32.toNat_inj, ← UInt32.toNat_inj]
    rfl
  unfold SeeksExactly llseekResult sysLlseek
  rw [← hword]
  rcases Option.eq_none_or_eq_some (fdFile k fd) with hfd | ⟨⟨p, f⟩, hfd⟩
  · simp [hfd]
  simp only [hfd, seekTo, Option.mem_some_iff, exists_eq_left', forall_eq']
  by_cases hw : hi.toNat ≠ 0 ∧ hi.toNat ≠ 0xFFFFFFFF
  · simp [hw]
  rcases Option.eq_none_or_eq_some (seekBase k f whence) with hb | ⟨base, hb⟩
  · simp [hw, hb]
  obtain ⟨h0, h1⟩ := seekBase_range (hfile _ hfd) hb
  simp only [hb, Option.mem_some_iff, exists_eq_left', forall_eq', hw, false_or]
  by_cases hneg : base + toInt32 lo.toNat < 0
  · simp [hneg]
  simp only [lt_irrefl, if_false, false_and, false_or, fdFile_setFile hfd, Option.map_some, hneg]
  constructor
  · rintro ⟨off, -, -, hoff, heq⟩
    cases hoff
    rw [← heq, toReg]
    omega
  · rintro ⟨hpos, hlt⟩
    refine ⟨_, trivial, rfl, rfl, ?_⟩
    unfold displacement toReg toInt32 at *
    split_ifs at * <;> omega

/-- `/init`, opened as descriptor 0. -/
def opened : KState := next tiny (.syscall {} (.openat (-100) [47, 105, 110, 105, 116] 2 0))

theorem llseek_exact_iff_init : SeeksExactly opened 0 0 7 0 := by
  rw [llseek_exact_iff (by decide +kernel)]
  decide +kernel

/-- A displacement of `5 - 2 ^ 32` from the start moves to 5. -/
theorem llseek_drops_high_word : ¬ SeeksExactly opened 0 0xFFFFFFFF 5 0 := by
  rintro (⟨h, -⟩ | ⟨x, -, base, hb, off, -, -, -, h⟩)
  · exact absurd h (by decide +kernel)
  have hd : displacement 0xFFFFFFFF 5 = -4294967291 := by decide
  cases (hb : some 0 = some base)
  omega

end Seek

end Embedded.Kernel
