import Embedded.Lib.Word

/-! # Byte-addressed memory

A flat memory and the accesses the kernel makes to it: single bytes, little-endian 32-bit words,
filling and copying ranges. The lemmas say which accesses do not see which writes; they are stated
per 4 KB frame, because that is the grain at which memory is owned. -/

namespace Embedded

variable {a v x b n : Nat}

/-- A flat byte-addressed memory. -/
abbrev Mem := Nat → UInt8

namespace Mem

/-- Load the little-endian word at `a`. -/
def r32 (m : Mem) (a : Nat) : Nat :=
  (m a).toNat + 256 * (m (a + 1)).toNat + 65536 * (m (a + 2)).toNat
    + 16777216 * (m (a + 3)).toNat

/-- Store the byte `v` at `a`. -/
def w8 (m : Mem) (a : Nat) (v : UInt8) : Mem :=
  fun x => if x = a then v else m x

/-- Store the word `v` at `a`, little-endian. -/
def w32 (m : Mem) (a v : Nat) : Mem :=
  fun x =>
    if x = a then UInt8.ofNat v
    else if x = a + 1 then UInt8.ofNat (v / 256)
    else if x = a + 2 then UInt8.ofNat (v / 65536)
    else if x = a + 3 then UInt8.ofNat (v / 16777216)
    else m x

/-- Zero the `n` bytes from `a` on. -/
def zero (m : Mem) (a n : Nat) : Mem :=
  fun x => if a ≤ x ∧ x < a + n then 0 else m x

/-- Copy `n` bytes from `src` to `dst` (the ranges do not overlap). -/
def copy (m : Mem) (dst src n : Nat) : Mem :=
  fun x => if dst ≤ x ∧ x < dst + n then m (src + (x - dst)) else m x

/-- Store the bytes `bs` from `a` on. -/
def write (m : Mem) (a : Nat) (bs : List UInt8) : Mem :=
  fun x => if a ≤ x then (bs[x - a]?).getD (m x) else m x

/-- Load `n` bytes from `a` on. -/
def read (m : Mem) (a n : Nat) : List UInt8 :=
  (List.range n).map (fun i => m (a + i))

theorem r32_congr {m m' : Mem} (h : ∀ i < 4, m' (a + i) = m (a + i)) : m'.r32 a = m.r32 a := by
  have h0 : m' a = m a := h 0 (by omega)
  simp only [r32, h0, h 1 (by omega), h 2 (by omega), h 3 (by omega)]

variable {m : Mem}

theorem r32_w32_self (hv : v < 4294967296) : (m.w32 a v).r32 a = v := by
  have h1 : a + 1 ≠ a := by omega
  have h2 : a + 2 ≠ a := by omega
  have h3 : a + 3 ≠ a := by omega
  have h4 : a + 2 ≠ a + 1 := by omega
  have h5 : a + 3 ≠ a + 1 := by omega
  have h6 : a + 3 ≠ a + 2 := by omega
  simp only [r32, w32, if_true, if_neg h1, if_neg h2, if_neg h3, if_neg h4, if_neg h5, if_neg h6,
    UInt8.toNat_ofNat']
  omega

theorem w32_of_ne (h : x < a ∨ a + 4 ≤ x) : m.w32 a v x = m x := by
  unfold w32
  rw [if_neg (by omega), if_neg (by omega), if_neg (by omega), if_neg (by omega)]

theorem r32_w32_of_ne (h : b + 4 ≤ a ∨ a + 4 ≤ b) : (m.w32 a v).r32 b = m.r32 b :=
  r32_congr fun i _ => w32_of_ne (by omega)

theorem zero_of_not_mem {a n x : Nat} (h : ¬ (a ≤ x ∧ x < a + n)) : m.zero a n x = m x := if_neg h

theorem r32_zero_of_mem (h : a ≤ b) (h' : b + 4 ≤ a + n) : (m.zero a n).r32 b = 0 := by
  have hz : ∀ i < 4, m.zero a n (b + i) = 0 := fun i hi => if_pos (by omega)
  have h0 : m.zero a n b = 0 := hz 0 (by omega)
  simp only [r32, h0, hz 1 (by omega), hz 2 (by omega), hz 3 (by omega)]
  rfl

theorem copy_of_not_mem {dst src n x : Nat} (h : ¬ (dst ≤ x ∧ x < dst + n)) :
    m.copy dst src n x = m x := if_neg h

theorem r32_copy_of_mem {dst src i : Nat} (h : i + 4 ≤ n) :
    (m.copy dst src n).r32 (dst + i) = m.r32 (src + i) := by
  have hc : ∀ j < 4, m.copy dst src n (dst + i + j) = m (src + i + j) := by
    intro j hj
    unfold copy
    rw [if_pos (by omega)]
    congr 1
    omega
  have h0 : m.copy dst src n (dst + i) = m (src + i) := hc 0 (by omega)
  simp only [r32, h0, hc 1 (by omega), hc 2 (by omega), hc 3 (by omega)]

theorem write_of_not_mem {bs : List UInt8}
    (h : ¬ (a ≤ x ∧ x < a + bs.length)) : m.write a bs x = m x := by
  unfold write
  split
  · next hax =>
    have hlen : bs.length ≤ x - a := by omega
    rw [List.getElem?_eq_none hlen]
    rfl
  rfl

end Mem

end Embedded
