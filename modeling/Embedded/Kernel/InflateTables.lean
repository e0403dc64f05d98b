import Embedded.Kernel.Inflate
import Embedded.Lib.Canonical

/-! # The reader and the Huffman tables of the inflater

`Bitr.rem` is what a reader has still to give, and `bits` takes its front. `huff_build` makes the
table of the canonical code with the given lengths (`Tabled`), and `huff_decode` with it takes a code
word and returns its symbol. -/

namespace Embedded.Kernel.Inflate

open Canonical Function

variable {b : Bitr} {n s : Nat} {rest : List Bool} {h : Huff}

/-! ## The reader -/

/-- The bits that are left. -/
def Bitr.rem (b : Bitr) : List Bool := lsb b.bitcnt b.bitbuf ++ bitsOf (b.src.drop b.pos)

/-- The reader between two calls: less than a byte is buffered. -/
structure Bitr.Ok (b : Bitr) : Prop where
  buf : b.bitbuf < 2 ^ b.bitcnt
  cnt : b.bitcnt < 8
  noerr : b.err = false
  le : b.rem.length ≤ 8 * b.src.length

theorem Bitr.rem_length (b : Bitr) : b.rem.length = b.bitcnt + 8 * (b.src.length - b.pos) := by
  rw [Bitr.rem, List.length_append, lsb_length, bitsOf_length, List.length_drop]

theorem buffer_byte {buf cnt : Nat} {c : UInt8} (hbuf : buf < 2 ^ cnt) (hcnt : cnt ≤ 24) :
    buf ||| (c.toNat <<< cnt) % 4294967296 = buf + 2 ^ cnt * c.toNat := by
  have hc : c.toNat < 2 ^ 8 := c.toNat_lt
  have hlt : c.toNat <<< cnt < 4294967296 := by
    rw [Nat.shiftLeft_eq]
    calc c.toNat * 2 ^ cnt < 2 ^ 8 * 2 ^ cnt := Nat.mul_lt_mul_of_pos_right hc (Nat.two_pow_pos _)
      _ = 2 ^ (8 + cnt) := (Nat.pow_add 2 8 cnt).symm
      _ ≤ 2 ^ 32 := Nat.pow_le_pow_right (by decide) (by omega)
  rw [Nat.mod_eq_of_lt hlt, Nat.or_comm, ← Nat.shiftLeft_add_eq_or_of_lt hbuf, Nat.shiftLeft_eq,
    mul_comm, add_comm]

/-- With enough bits left, the loop of `bits` buffers them. -/
theorem refill_spec {n f : Nat} {b : Bitr} (hbuf : b.bitbuf < 2 ^ b.bitcnt) (hn : n ≤ 24)
    (hcnt : b.bitcnt < n + 8) (hf : n ≤ b.bitcnt + 8 * f) (hlen : n ≤ b.rem.length) :
    ∃ b', refill n f b = (true, b') ∧ b'.rem = b.rem ∧ b'.bitbuf < 2 ^ b'.bitcnt ∧
      n ≤ b'.bitcnt ∧ b'.bitcnt < n + 8 ∧ b'.src = b.src ∧ b'.err = b.err := by
  induction f generalizing b with
  | zero =>
    refine ⟨b, ?_, rfl, hbuf, by omega, hcnt, rfl, rfl⟩
    rw [refill, decide_eq_true (by omega)]
  | succ f ih => ?_
  rw [refill]
  by_cases hle : n ≤ b.bitcnt
  · rw [if_pos hle]
    exact ⟨b, rfl, rfl, hbuf, hle, hcnt, rfl, rfl⟩
  rw [if_neg hle]
  have hpos : b.pos < b.src.length := by
    rw [Bitr.rem_length] at hlen
    omega
  rw [List.getElem?_eq_getElem hpos]
  simp only
  generalize hc : b.src[b.pos] = c
  have hdrop : b.src.drop b.pos = c :: b.src.drop (b.pos + 1) := by rw [← hc, List.getElem_cons_drop]
  rw [buffer_byte hbuf (by omega)]
  have hrem : Bitr.rem ⟨b.src, b.pos + 1, b.bitbuf + 2 ^ b.bitcnt * c.toNat, b.bitcnt + 8,
      b.err⟩ = b.rem := by
    unfold Bitr.rem
    simp only
    rw [lsb_add_shift hbuf, hdrop, bitsOf_cons, List.append_assoc]
  obtain ⟨b', h1, h2, h3, h4, h5, h6, h7⟩ :=
    @ih ⟨b.src, b.pos + 1, b.bitbuf + 2 ^ b.bitcnt * c.toNat, b.bitcnt + 8, b.err⟩ (by
      have hc8 : c.toNat < 2 ^ 8 := c.toNat_lt
      rw [Nat.pow_add]
      calc b.bitbuf + 2 ^ b.bitcnt * c.toNat < 2 ^ b.bitcnt + 2 ^ b.bitcnt * c.toNat := by omega
        _ = 2 ^ b.bitcnt * (c.toNat + 1) := by ring
        _ ≤ 2 ^ b.bitcnt * 2 ^ 8 := Nat.mul_le_mul_left _ hc8)
      (by show b.bitcnt + 8 < n + 8; omega) (by show n ≤ b.bitcnt + 8 + 8 * f; omega)
      (by rw [hrem]; exact hlen)
  exact ⟨b', h1, h2.trans hrem, h3, h4, h5, h6, h7⟩

/-- `bits` takes the number at the front of what is left. -/
theorem bits_spec (hb : b.Ok) {v : Nat} (hn : n ≤ 24) (hv : v < 2 ^ n) (hrem : b.rem = lsb n v ++ rest) :
    ∃ b', bits b n = (v, b') ∧ b'.Ok ∧ b'.rem = rest ∧ b'.src = b.src := by
  have hlen : n ≤ b.rem.length := by
    rw [hrem, List.length_append, lsb_length]
    omega
  obtain ⟨b1, h1, h2, h3, h4, h5, h6, h7⟩ :=
    @refill_spec n 3 b hb.buf hn (by have := hb.cnt; omega) (by omega) hlen
  unfold bits
  rw [h1]
  simp only
  -- the buffer is the number and what follows it
  have hsplit : lsb n b1.bitbuf ++ (lsb (b1.bitcnt - n) (b1.bitbuf / 2 ^ n) ++
      bitsOf (b1.src.drop b1.pos)) = lsb n v ++ rest := by
    rw [← List.append_assoc, ← lsb_split h4, ← hrem, ← h2]
    rfl
  obtain ⟨hlow, hhigh⟩ := List.append_inj hsplit (by rw [lsb_length, lsb_length])
  have hval : b1.bitbuf % 2 ^ n = v := by rw [lsb_inj hlow, Nat.mod_eq_of_lt hv]
  rw [hval]
  refine ⟨_, rfl, ⟨?_, ?_, h7.trans hb.noerr, ?_⟩, hhigh, h6⟩
  · show b1.bitbuf / 2 ^ n < 2 ^ (b1.bitcnt - n)
    rw [Nat.div_lt_iff_lt_mul (Nat.two_pow_pos n), ← Nat.pow_add, Nat.sub_add_cancel h4]
    exact h3
  · show b1.bitcnt - n < 8
    omega
  have hle := hb.le
  rw [hrem, List.length_append] at hle
  have hlast : Bitr.rem ⟨b1.src, b1.pos, b1.bitbuf / 2 ^ n, b1.bitcnt - n, b1.err⟩ = rest := hhigh
  rw [hlast]
  rw [h6]
  omega

/-! ## The tables -/

theorem countLoop_eq (ls : List Nat) (l : Nat) : countLoop ls l = ls.count l := by
  suffices h : ∀ c : Nat → Nat, (ls.foldl (fun c l => update c l (c l + 1)) c) l = c l + ls.count l by
    rw [countLoop, h, zero_add]
  induction ls with
  | nil => exact fun c => rfl
  | cons x rest ih => ?_
  intro c
  rw [List.foldl_cons, ih, List.count_cons]
  by_cases hx : x = l
  · subst hx
    rw [update_self, if_pos (beq_self_eq_true x)]
    omega
  rw [update_of_ne (Ne.symm hx), if_neg (by simpa using hx), add_zero]

variable {ls : List Nat}

theorem countLoop_count {l : Nat} (hl : l ≠ 0) : countLoop ls l = count ls l := by
  rw [countLoop_eq, count, if_neg hl]

theorem leftLoop_fits (hfit : Fits ls) (n l : Nat) : ∃ left, leftLoop (countLoop ls) n (l + 1)
      ((2 ^ l : Nat) - ((first ls l + count ls l : Nat) : Int)) = some left := by
  induction n generalizing l with
  | zero => exact ⟨_, rfl⟩
  | succ n ih => ?_
  rw [leftLoop, countLoop_count (Nat.succ_ne_zero l)]
  have hnext : 2 * ((2 ^ l : Nat) - ((first ls l + count ls l : Nat) : Int)) - count ls (l + 1) =
      (2 ^ (l + 1) : Nat) - ((first ls (l + 1) + count ls (l + 1) : Nat) : Int) := by
    rw [first, Nat.pow_succ']
    push_cast
    ring
  have hle := hfit (l + 1)
  simp only [hnext]
  rw [if_neg (by omega)]
  exact ih (l + 1)

theorem offsAt_index (l : Nat) : offsAt (countLoop ls) (l + 1) = index ls (l + 1) := by
  induction l with
  | zero => rfl
  | succ l ih =>
    rw [offsAt, ih, countLoop_count (Nat.succ_ne_zero l)]
    rfl

theorem rank_lt_rank {t : Nat} (hst : s < t) (hs : s < ls.length) (hlen : len ls s = len ls t) :
    rank ls s < rank ls t := by
  unfold rank
  have hsplit : ls.take t = ls.take s ++ (ls.drop s).take (t - s) := by
    rw [← List.take_add, Nat.add_sub_cancel' (le_of_lt hst)]
  have hget : ls[s] = len ls t := by
    rw [← hlen]
    exact List.getElem_eq_getD 0
  have hdrop : (ls.drop s).take (t - s) = ls[s] :: (ls.drop (s + 1)).take (t - s - 1) := by
    rw [← List.getElem_cons_drop hs, show t - s = (t - s - 1) + 1 by omega, List.take_succ_cons]
    rfl
  rw [hsplit, List.count_append, hlen, hdrop, hget, List.count_cons_self]
  omega

/-- The loop that sorts the symbols puts each one behind those that come before it. -/
theorem symbolLoop_spec (pre rest : List Nat) (hls : ls = pre ++ rest) (offs symbol : Nat → Nat)
    (hoffs : ∀ l, l ≠ 0 → offs l = index ls l + pre.count l)
    (hsym : ∀ t, t < pre.length → HasWord ls t → symbol (index ls (len ls t) + rank ls t) = t) :
    ∀ t, HasWord ls t → symbolLoop pre.length rest offs symbol (index ls (len ls t) + rank ls t) = t := by
  induction rest generalizing pre offs symbol with
  | nil =>
    intro t ht
    rw [List.append_nil] at hls
    exact hsym t (hls ▸ ht.1) ht
  | cons l rest ih => ?_
  have hls' : ls = (pre ++ [l]) ++ rest := by rw [List.append_assoc]; exact hls
  have hl : len ls pre.length = l := by
    rw [len, hls, List.getD_eq_getElem?_getD, List.getElem?_append_right le_rfl, Nat.sub_self]
    rfl
  have hlength : (pre ++ [l]).length = pre.length + 1 := by
    rw [List.length_append, List.length_singleton]
  rw [symbolLoop]
  split
  next hne =>
    have hrank : rank ls pre.length = pre.count l := by rw [rank, hl, hls, List.take_left]
    have hhas : HasWord ls pre.length := by
      refine ⟨?_, by rw [hl]; exact hne⟩
      rw [hls, List.length_append, List.length_cons]
      omega
    have := ih (pre ++ [l]) hls' (update offs l (offs l + 1)) (update symbol (offs l) pre.length) ?_ ?_
    · rw [hlength] at this
      exact this
    · intro m hm
      by_cases hml : m = l
      · subst hml
        rw [update_self, hoffs m hm, List.count_append, List.count_singleton_self]
        omega
      rw [update_of_ne hml, hoffs m hm, List.count_append,
        List.count_singleton, if_neg (by simpa using Ne.symm hml), add_zero]
    intro t ht hw
    by_cases htl : t = pre.length
    · subst htl
      rw [hl, hrank, ← hoffs l hne, update_self]
    have hlt : t < pre.length := by omega
    rw [update_of_ne, hsym t hlt hw]
    -- an earlier symbol has another place
    rw [hoffs l hne]
    intro heq
    have hcount : pre.count l < count ls l := by
      have := rank_lt hhas
      rw [hl, hrank] at this
      exact this
    have hlen : len ls t = l := index_inj (rank_lt hw) hcount heq
    have hrk := rank_lt_rank hlt hw.1 (hlen.trans hl.symm)
    rw [hlen] at heq
    omega
  next hz =>
  have hz' : l = 0 := not_not.1 hz
  have := ih (pre ++ [l]) hls' offs symbol ?_ ?_
  · rw [hlength] at this
    exact this
  · intro m hm
    rw [hoffs m hm, List.count_append, List.count_singleton,
      if_neg (by simpa [hz'] using Ne.symm hm), add_zero]
  intro t ht hw
  refine hsym t ?_ hw
  rcases lt_or_ge t pre.length with hlt | hge
  · exact hlt
  obtain rfl : t = pre.length := by omega
  exact absurd (hl.trans hz') hw.2

/-- The table is that of the canonical code with lengths `ls`. -/
structure Tabled (h : Huff) (ls : List Nat) : Prop where
  count : ∀ l, l ≠ 0 → h.count l = Canonical.count ls l
  symbol : ∀ t, HasWord ls t → h.symbol (index ls (len ls t) + rank ls t) = t

theorem huffBuild_spec (hfit : Fits ls) : ∃ h, huffBuild ls = some h ∧ Tabled h ls := by
  unfold huffBuild
  by_cases hzero : countLoop ls 0 = ls.length
  · refine ⟨⟨countLoop ls, fun _ => 0⟩, by simp only [hzero, if_true],
      fun l hl => countLoop_count hl, fun t ht => ?_⟩
    -- all lengths are zero
    rw [countLoop_eq, List.count_eq_length] at hzero
    have hlt := ht.1
    have hget : ls[t] = len ls t := List.getElem_eq_getD 0
    exact absurd (hget.symm.trans (hzero _ (List.getElem_mem hlt)).symm) ht.2
  obtain ⟨left, hleft⟩ := leftLoop_fits hfit maxBits 0
  have hone : ((2 ^ 0 : Nat) - ((first ls 0 + Canonical.count ls 0 : Nat) : Int)) = 1 := rfl
  rw [hone] at hleft
  refine ⟨⟨countLoop ls, symbolLoop 0 ls (offsAt (countLoop ls)) fun _ => 0⟩, ?_,
    fun l hl => countLoop_count hl, ?_⟩
  · simp only [if_neg hzero, hleft]
  refine symbolLoop_spec [] ls rfl _ _ (fun l hl => ?_) fun t ht => absurd ht (Nat.not_lt_zero _)
  obtain ⟨m, rfl⟩ := Nat.exists_eq_succ_of_ne_zero hl
  exact offsAt_index m

/-! ## Decoding a symbol -/

theorem div_pow_succ (v k : Nat) : 2 * (v / 2 ^ (k + 1)) + v / 2 ^ k % 2 = v / 2 ^ k := by
  rw [pow_succ, ← Nat.div_div_eq_div_mul]
  omega

/-- From the `k`-th bit of a code word on, the loop finds its symbol. -/
theorem decodeLoop_spec {h : Huff} (ht : Tabled h ls) {s : Nat} (hs : HasWord ls s)
    {n k : Nat} (hk : k < len ls s) (hn : len ls s ≤ k + n) {b : Bitr} (hb : b.Ok)
    {rest : List Bool} (hrem : b.rem = msb (len ls s - k) (code ls s) ++ rest) :
    ∃ b', decodeLoop h n (k + 1) (2 * (code ls s / 2 ^ (len ls s - k))) (first ls (k + 1))
        (index ls (k + 1)) b = (some s, b') ∧ b'.Ok ∧ b'.rem = rest ∧ b'.src = b.src := by
  induction n generalizing k b with
  | zero => omega
  | succ n ih => ?_
  obtain ⟨d, hd⟩ : ∃ d, len ls s - k = d + 1 := ⟨len ls s - k - 1, by omega⟩
  have hbit : b.rem = lsb 1 (code ls s / 2 ^ d % 2) ++ (msb d (code ls s) ++ rest) := by
    rw [hrem, hd, msb, List.cons_append, lsb, lsb, Nat.mod_mod]
    rfl
  have hlt : code ls s / 2 ^ d % 2 < 2 ^ 1 := Nat.mod_lt _ (by decide)
  obtain ⟨b1, h1, hb1, hrem1, hsrc1⟩ := bits_spec hb (by omega) hlt hbit
  rw [decodeLoop, h1]
  simp only
  rw [hd, div_pow_succ, ht.count (k + 1) (by omega)]
  by_cases hlast : k + 1 = len ls s
  · -- the last bit: the code is in the range of its length
    obtain rfl : d = 0 := by omega
    rw [Nat.pow_zero, Nat.div_one, hlast]
    have hrank := rank_lt hs
    have hcode : code ls s = first ls (len ls s) + rank ls s := rfl
    rw [if_pos (by omega), hcode, Nat.add_sub_cancel_left, ht.symbol s hs]
    exact ⟨b1, rfl, hb1, hrem1, hsrc1⟩
  -- an earlier one: the shorter codes are below
  have hle := @le_code_div ls s (k + 1) (by omega)
  rw [show len ls s - (k + 1) = d by omega] at hle
  rw [if_neg (by omega)]
  have hrec := @ih (k + 1) (by omega) (by omega) b1 hb1
    (by rw [show len ls s - (k + 1) = d by omega]; exact hrem1)
  rw [show len ls s - (k + 1) = d by omega, hsrc1] at hrec
  exact hrec

theorem huffDecode_spec (ht : Tabled h ls) (hfit : Fits ls)
    (hs : HasWord ls s) (hmax : len ls s ≤ 15) (hb : b.Ok) (hrem : b.rem = word ls s ++ rest) :
    ∃ b', huffDecode b h = (some s, b') ∧ b'.Ok ∧ b'.rem = rest ∧ b'.src = b.src := by
  have hpos : 0 < len ls s := Nat.pos_of_ne_zero hs.2
  have hrun := decodeLoop_spec ht hs hpos (by simpa [maxBits] using hmax) hb hrem
  rw [Nat.sub_zero, Nat.div_eq_of_lt (code_lt hfit hs)] at hrun
  exact hrun

end Embedded.Kernel.Inflate
