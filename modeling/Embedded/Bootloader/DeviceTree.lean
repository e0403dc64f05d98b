import Embedded.Bootloader.Fdt

/-! # Flattened device trees

A device tree is a root with properties and a forest of nodes. A blob describes it if its structure block
spells the tree out, token by token, with names of properties in the strings block. Unused bytes (padding,
`NOP` tokens, what lies behind the strings) may be anything. -/

namespace Embedded.Bootloader

open List

variable {f : Forest} {d' : Mem} {a' i q' : Nat} {t : List UInt8} {b' : Strings}

/-! ## Trees -/

/-- The properties of a node, by name. -/
abbrev Props := List (List UInt8 × List UInt8)

/-- Nodes next to each other, each with the nodes below it. -/
inductive Forest
  | nil
  | node (name : List UInt8) (props : Props) (below : Forest) (next : Forest)

structure Tree where
  name : List UInt8
  props : Props
  children : Forest

/-- Tokens of the structure block. -/
inductive FdtTok
  | begin (name : List UInt8)
  | close
  | prop (name value : List UInt8)

def Props.flat (ps : Props) : List FdtTok := ps.map fun kv => .prop kv.1 kv.2

def Forest.flat : Forest → List FdtTok
  | .nil => []
  | .node name props below next => .begin name :: (props.flat ++ (below.flat ++ .close :: next.flat))

def Tree.flat (t : Tree) : List FdtTok := .begin t.name :: (t.props.flat ++ (t.children.flat ++ [.close]))

def Forest.names : Forest → List (List UInt8)
  | .nil => []
  | .node name _ _ next => name :: next.names

/-- Names are unique among the properties of a node and among nodes next to each other. -/
def Forest.Unique : Forest → Prop
  | .nil => True
  | .node name props below next =>
    (props.map Prod.fst).Nodup ∧ name ∉ next.names ∧ below.Unique ∧ next.Unique

def Tree.Unique (t : Tree) : Prop := (t.props.map Prod.fst).Nodup ∧ t.children.Unique

/-- The properties of the node with this name. -/
def Forest.lookup (name : List UInt8) : Forest → Option Props
  | .nil => none
  | .node n props _ next => if n = name then some props else next.lookup name

scoped instance bytesLawful : LawfulBEq (List UInt8) := inferInstance

/-- The properties with the value of one changed, or with one more in front of the others. -/
def Props.set (ps : Props) (name value : List UInt8) : Props :=
  if name ∈ ps.map Prod.fst then ps.map fun kv => if kv.1 = name then (name, value) else kv
  else (name, value) :: ps

def Forest.setProp (name key value : List UInt8) : Forest → Forest
  | .nil => .nil
  | .node n props below next =>
    if n = name then .node n (props.set key value) below next
    else .node n props below (next.setProp name key value)

/-- The tree with `bootargs` of `/chosen` set. -/
def Tree.setBootargs (t : Tree) (value : List UInt8) : Tree :=
  { t with children := t.children.setProp chosenName bootargsName value }

/-- The value of `bootargs` of `/chosen`. -/
def Tree.bootargs (t : Tree) : Option (List UInt8) :=
  (t.children.lookup chosenName).bind fun ps => ps.lookup bootargsName

/-! ## Blobs -/

def alignUp (n : Nat) : Nat := (n + 3) / 4 * 4

/-- The string lies in memory at `a`, with its terminator. -/
def StrMem (d : Mem) (a : Nat) (s : List UInt8) : Prop := 0 ∉ s ∧ d.read a (s.length + 1) = s ++ [0]

/-- Memory with a strings block of `size` bytes at `strings`. -/
structure Strings where
  mem : Mem
  strings : Nat
  size : Nat

/-- The string lies in the strings block, at this offset. -/
def Strings.has (b : Strings) (off : Nat) (s : List UInt8) : Prop :=
  StrMem b.mem (b.strings + off) s ∧ off + s.length < b.size

/-- The token lies at `p`, and the next one may follow at `q`. -/
def Strings.tokAt (b : Strings) : FdtTok → Nat → Nat → Prop
  | .begin name, p, q =>
    be32 b.mem p = FDT_BEGIN_NODE ∧ StrMem b.mem (p + 4) name ∧ q = p + 4 + alignUp (name.length + 1)
  | .close, p, q => be32 b.mem p = FDT_END_NODE ∧ q = p + 4
  | .prop name value, p, q =>
    be32 b.mem p = FDT_PROP ∧ be32 b.mem (p + 4) = value.length ∧ b.has (be32 b.mem (p + 8)) name ∧
      b.mem.read (p + 12) value.length = value ∧ q = p + 12 + alignUp value.length

/-- The tokens lie from `p` to `q`. -/
inductive Strings.Holds (b : Strings) : Nat → List FdtTok → Nat → Prop
  | nil (p : Nat) : Holds b p [] p
  | nop {p q : Nat} {ts : List FdtTok} : be32 b.mem p = FDT_NOP → Holds b (p + 4) ts q → Holds b p ts q
  | cons {p q r : Nat} {t : FdtTok} {ts : List FdtTok} : b.tokAt t p q → Holds b q ts r → Holds b p (t :: ts) r

/-- The memory reservations from `p` on, 16 bytes each; the one that is zero ends them. -/
inductive Reserves (d : Mem) : Nat → List (List UInt8) → Nat → Prop
  | done {p : Nat} : d.read p 16 = List.replicate 16 0 → Reserves d p [] (p + 16)
  | entry {p q : Nat} {e : List UInt8} {es : List (List UInt8)} : d.read p 16 = e →
      e ≠ List.replicate 16 0 → Reserves d (p + 16) es q → Reserves d p (e :: es) q

def blobStrings (d : Mem) : Strings := ⟨d, hget d H_OFF_STRINGS, hget d H_SIZE_STRINGS⟩

/-- `d` is a blob that describes the tree and the reservations: header, reservations, structure and strings
follow each other, and do not overlap. -/
structure Describes (d : Mem) (rsv : List (List UInt8)) (t : Tree) : Prop where
  magic : hget d 0 = FDT_MAGIC
  version : 17 ≤ hget d 5
  reserves : ∃ q, Reserves d (hget d 4) rsv q ∧ q ≤ hget d H_OFF_STRUCT
  header : 40 ≤ hget d 4
  aligned : hget d 4 % 8 = 0 ∧ hget d H_OFF_STRUCT % 4 = 0
  tokens : ∃ q, (blobStrings d).Holds (hget d H_OFF_STRUCT) t.flat q ∧ be32 d q = FDT_END ∧
    q + 4 = hget d H_OFF_STRUCT + hget d H_SIZE_STRUCT
  strings_after : hget d H_OFF_STRUCT + hget d H_SIZE_STRUCT ≤ hget d H_OFF_STRINGS
  strings_last : hget d H_OFF_STRINGS + hget d H_SIZE_STRINGS ≤ hget d H_TOTALSIZE
  terminated : hget d H_SIZE_STRINGS = 0 ∨ d (hget d H_OFF_STRINGS + hget d H_SIZE_STRINGS - 1) = 0
  unique : t.Unique

/-! ## Trees with a property set -/

theorem Props.flat_append (ps qs : Props) : Props.flat (ps ++ qs) = Props.flat ps ++ Props.flat qs :=
  map_append ..

variable {ps : Props} {d : Mem} {a p q : Nat} {s : List UInt8} {t : FdtTok} {ts : List FdtTok}

variable {name : List UInt8}

theorem Props.set_split (hn : (ps.map Prod.fst).Nodup)
    (h : name ∈ ps.map Prod.fst) : ∃ before value after, ps = before ++ (name, value) :: after ∧
      name ∉ before.map Prod.fst ∧ ps.lookup name = some value ∧
        ∀ v, ps.set name v = before ++ (name, v) :: after := by
  have hset : ∀ v, ps.set name v = ps.map fun kv => if kv.1 = name then (name, v) else kv := fun v => if_pos h
  simp only [hset]
  clear hset
  induction ps with
  | nil => simp at h
  | cons kv ps ih => ?_
  rw [map_cons, nodup_cons] at hn
  by_cases he : kv.1 = name
  · refine ⟨[], kv.2, ps, ?_, by simp, ?_, fun v => ?_⟩
    · rw [nil_append, ← he]
    · rw [← he, lookup_cons_self]
    rw [nil_append, map_cons, if_pos he]
    congr 1
    -- the name does not come again
    conv_rhs => rw [← map_id ps]
    apply map_congr_left
    intro kv' hkv'
    rw [if_neg, id]
    intro he'
    exact hn.1 (by rw [he, ← he']; exact mem_map_of_mem hkv')
  have hmem : name ∈ ps.map Prod.fst := by
    rw [map_cons, mem_cons] at h
    exact h.resolve_left fun h => he h.symm
  obtain ⟨before, value, after, hps, hnot, hlook, hset⟩ := ih hn.2 hmem
  refine ⟨kv :: before, value, after, by rw [hps]; rfl, ?_, ?_, fun v => ?_⟩
  · rw [map_cons, mem_cons, not_or]
    exact ⟨fun h => he h.symm, hnot⟩
  · have hne : (name == kv.1) = false := by simpa using Ne.symm he
    rw [show kv = (kv.1, kv.2) from rfl, lookup_cons, hne]
    exact hlook
  rw [map_cons, if_neg he, hset v]
  rfl

theorem Props.lookup_none (h : name ∉ ps.map Prod.fst) : ps.lookup name = none := by
  rw [lookup_eq_none_iff]
  intro kv hkv
  have hne : name ≠ kv.1 := by
    rintro rfl
    exact h (mem_map_of_mem hkv)
  simpa using hne

theorem Props.set_nodup (h : (ps.map Prod.fst).Nodup) (name value : List UInt8) :
    ((ps.set name value).map Prod.fst).Nodup := by
  by_cases hm : name ∈ ps.map Prod.fst
  · obtain ⟨before, w, after, hps, -, -, hset⟩ := Props.set_split h hm
    rw [hset]
    rw [hps] at h
    simpa using h
  rw [Props.set, if_neg hm, map_cons, nodup_cons]
  exact ⟨hm, h⟩

theorem Forest.setProp_names (f : Forest) (name key value : List UInt8) :
    (f.setProp name key value).names = f.names := by
  induction f with
  | nil => rfl
  | node n props below next _ ih => ?_
  rw [Forest.setProp]
  split
  · rfl
  · rw [Forest.names, ih, Forest.names]

theorem Forest.Unique.setProp (h : f.Unique) (name key value : List UInt8) :
    (f.setProp name key value).Unique := by
  induction f with
  | nil => exact h
  | node n props below next _ ih => ?_
  obtain ⟨hp, hn, hb, hx⟩ := h
  rw [Forest.setProp]
  split
  · exact ⟨Props.set_nodup hp _ _, hn, hb, hx⟩
  · exact ⟨hp, by rw [Forest.setProp_names]; exact hn, hb, ih hx⟩

/-- A forest cut at the node with a given name. -/
theorem Forest.split (hu : f.Unique) (h : f.lookup name = some ps) : ∃ pre below post : Forest,
      f.flat = pre.flat ++ .begin name :: (ps.flat ++ (below.flat ++ .close :: post.flat)) ∧
        name ∉ pre.names ∧ name ∉ post.names ∧ (ps.map Prod.fst).Nodup ∧
          ∀ key v, (f.setProp name key v).flat =
            pre.flat ++ .begin name :: (Props.flat (ps.set key v) ++ (below.flat ++ .close :: post.flat)) := by
  induction f with
  | nil => simp [Forest.lookup] at h
  | node n props below next _ ih => ?_
  obtain ⟨hp, hn, -, hx⟩ := hu
  rw [Forest.lookup] at h
  split at h
  · next he =>
    subst he
    cases h
    refine ⟨.nil, below, next, rfl, by simp [Forest.names], hn, hp, fun key v => ?_⟩
    rw [Forest.setProp, if_pos rfl]
    rfl
  rename_i he
  obtain ⟨pre, below', post, hflat, hpre, hpost, hnd, hset⟩ := ih hx h
  refine ⟨.node n props below pre, below', post, ?_, ?_, hpost, hnd, fun key v => ?_⟩
  · simp [Forest.flat, hflat]
  · rw [Forest.names, mem_cons, not_or]
    exact ⟨fun h => he h.symm, hpre⟩
  rw [Forest.setProp, if_neg he]
  simp [Forest.flat, hset]

/-! ## Reading memory -/

theorem be32_congr (h : ∀ i < 4, d' (a' + i) = d (a + i)) : be32 d' a' = be32 d a := by
  have h0 : d' a' = d a := h 0 (by omega)
  simp only [be32, h0, h 1 (by omega), h 2 (by omega), h 3 (by omega)]

theorem be32_lt (d : Mem) (a : Nat) : be32 d a < 4294967296 := by
  have h0 := (d a).toNat_lt
  have h1 := (d (a + 1)).toNat_lt
  have h2 := (d (a + 2)).toNat_lt
  have h3 := (d (a + 3)).toNat_lt
  unfold be32
  omega

theorem read_congr {n : Nat} (h : ∀ i < n, d' (a' + i) = d (a + i)) : d'.read a' n = d.read a n := by
  apply map_congr_left
  intro i hi
  exact h i (mem_range.1 hi)

theorem read_getElem? {n i : Nat} (h : i < n) : (d.read a n)[i]? = some (d (a + i)) := by
  simp [Mem.read, h]

theorem StrMem.byte (h : StrMem d a s) (hi : i < s.length) : s[i]? = some (d (a + i)) := by
  have := @read_getElem? d a (s.length + 1) i (by omega)
  rwa [h.2, getElem?_append_left hi] at this

theorem StrMem.ne_zero (h : StrMem d a s) (hi : i < s.length) : d (a + i) ≠ 0 := by
  intro h0
  have := h.byte hi
  rw [h0] at this
  exact h.1 (mem_of_getElem? this)

theorem StrMem.zero (h : StrMem d a s) : d (a + s.length) = 0 := by
  have := @read_getElem? d a (s.length + 1) s.length (by omega)
  rw [h.2] at this
  simpa using this.symm

theorem StrMem.length_unique {t : List UInt8} (hs : StrMem d a s) (ht : StrMem d a t) :
    s.length = t.length := by
  rcases Nat.lt_trichotomy s.length t.length with h | h | h
  · exact absurd hs.zero (ht.ne_zero h)
  · exact h
  exact absurd ht.zero (hs.ne_zero h)

theorem StrMem.unique {t : List UInt8} (hs : StrMem d a s) (ht : StrMem d a t) : s = t := by
  have hlen := hs.length_unique ht
  have h := hs.2
  rw [hlen, ht.2] at h
  exact (append_inj_left' h rfl).symm

theorem StrMem.congr {d' : Mem} {a' : Nat} (h : StrMem d a s)
    (hm : ∀ i ≤ s.length, d' (a' + i) = d (a + i)) : StrMem d' a' s :=
  ⟨h.1, (read_congr fun i hi => hm i (by omega)).trans h.2⟩

theorem le_alignUp (n : Nat) : n ≤ alignUp n := by
  unfold alignUp
  omega

/-! ## Tokens in memory -/

section Tokens

variable {b : Strings}

theorem tokAt_lt (h : b.tokAt t p q) : p + 4 ≤ q := by
  cases t with
  | begin name =>
    obtain ⟨-, -, rfl⟩ := h
    omega
  | close =>
    obtain ⟨-, rfl⟩ := h
    omega
  | prop name value =>
    obtain ⟨-, -, -, -, rfl⟩ := h
    omega

theorem Strings.Holds.le (h : b.Holds p ts q) : p ≤ q := by
  induction h with
  | nil p => exact Nat.le_refl p
  | nop _ _ ih => omega
  | cons ht _ ih =>
    have := tokAt_lt ht
    omega

theorem Strings.Holds.append {r : Nat} {us : List FdtTok} (h : b.Holds p ts q) (h' : b.Holds q us r) :
    b.Holds p (ts ++ us) r := by
  induction h with
  | nil p => exact h'
  | nop hn _ ih => exact .nop hn (ih h')
  | cons ht _ ih => exact .cons ht (ih h')

theorem Strings.Holds.split {r : Nat} {us : List FdtTok} (h : b.Holds p (ts ++ us) r) :
    ∃ q, b.Holds p ts q ∧ b.Holds q us r := by
  generalize hl : ts ++ us = l at h
  induction h generalizing ts with
  | nil p =>
    obtain ⟨rfl, rfl⟩ := append_eq_nil_iff.1 hl
    exact ⟨p, .nil p, .nil p⟩
  | nop hn _ ih =>
    obtain ⟨q, h1, h2⟩ := ih hl
    exact ⟨q, .nop hn h1, h2⟩
  | @cons p q r t l ht hrest ih => ?_
  cases ts with
  | nil =>
    subst hl
    exact ⟨p, .nil p, .cons ht hrest⟩
  | cons u ts =>
    obtain ⟨rfl, rfl⟩ := cons.inj hl
    obtain ⟨m, h1, h2⟩ := ih rfl
    exact ⟨m, .cons ht h1, h2⟩

/-- A token lies behind the `NOP`s in front of it. -/
theorem Strings.Holds.head {r : Nat} (h : b.Holds p (t :: ts) r) :
    ∃ m q, b.Holds p [] m ∧ b.tokAt t m q ∧ b.Holds q ts r := by
  generalize hl : t :: ts = l at h
  induction h with
  | nil p => simp at hl
  | nop hn _ ih =>
    obtain ⟨m, q, h1, h2, h3⟩ := ih hl
    exact ⟨m, q, .nop hn h1, h2, h3⟩
  | @cons p q r u l ht hrest ih =>
    obtain ⟨rfl, rfl⟩ := cons.inj hl
    exact ⟨p, q, .nil p, ht, hrest⟩

/-- Tokens whose bytes are moved by `δ`, and whose names are still in the strings block. -/
theorem tokAt_move {δ : Nat} (h : b.tokAt t p q) (hm : ∀ x, p ≤ x → x < q → b'.mem (x + δ) = b.mem x)
    (hs : ∀ off s, b.has off s → b'.has off s) : b'.tokAt t (p + δ) (q + δ) := by
  have hword : ∀ i, p + i + 4 ≤ q → be32 b'.mem (p + δ + i) = be32 b.mem (p + i) := by
    intro i hi
    refine be32_congr fun j hj => ?_
    rw [show p + δ + i + j = p + i + j + δ by omega]
    exact hm _ (by omega) (by omega)
  cases t with
  | begin name =>
    obtain ⟨h1, h2, rfl⟩ := h
    have hal := le_alignUp (name.length + 1)
    refine ⟨(hword 0 (by omega)).trans h1, h2.congr fun i hi => ?_, by omega⟩
    rw [show p + δ + 4 + i = p + 4 + i + δ by omega]
    exact hm _ (by omega) (by omega)
  | close =>
    obtain ⟨h1, rfl⟩ := h
    exact ⟨(hword 0 (by omega)).trans h1, by omega⟩
  | prop name value => ?_
  obtain ⟨h1, h2, h3, h4, rfl⟩ := h
  have hal := le_alignUp value.length
  refine ⟨(hword 0 (by omega)).trans h1, (hword 4 (by omega)).trans h2, ?_, ?_, by omega⟩
  · rw [hword 8 (by omega)]
    exact hs _ _ h3
  refine Eq.trans (read_congr fun i hi => ?_) h4
  rw [show p + δ + 12 + i = p + 12 + i + δ by omega]
  exact hm _ (by omega) (by omega)

theorem Strings.Holds.move {b' : Strings} {δ : Nat} (h : b.Holds p ts q)
    (hm : ∀ x, p ≤ x → x < q → b'.mem (x + δ) = b.mem x)
    (hs : ∀ off s, b.has off s → b'.has off s) : b'.Holds (p + δ) ts (q + δ) := by
  induction h with
  | nil p => exact .nil _
  | @nop p q ts hn hrest ih =>
    have hle := hrest.le
    refine .nop ((be32_congr fun i hi => ?_).trans hn) ?_
    · rw [show p + δ + i = p + i + δ by omega]
      exact hm _ (by omega) (by omega)
    rw [show p + δ + 4 = p + 4 + δ by omega]
    exact ih fun x h1 h2 => hm x (by omega) h2
  | @cons p q r t ts ht hrest ih => ?_
  have hle := hrest.le
  have hlt := tokAt_lt ht
  exact .cons (tokAt_move ht (fun x h1 h2 => hm x h1 (by omega)) hs) (ih fun x h1 h2 => hm x (by omega) h2)

theorem Strings.Holds.stay (h : b.Holds p ts q) (hm : ∀ x, p ≤ x → x < q → b'.mem x = b.mem x)
    (hs : ∀ off s, b.has off s → b'.has off s) : b'.Holds p ts q :=
  @Strings.Holds.move p q ts b b' 0 h hm hs

/-! ## A blob describes one tree -/

theorem tokAt_word (h : b.tokAt t p q) : be32 b.mem p ≠ FDT_NOP ∧ be32 b.mem p ≠ FDT_END := by
  cases t <;> (obtain ⟨h1, -⟩ := h; rw [h1]; decide)

theorem tokAt_unique {t' : FdtTok} (h : b.tokAt t p q) (h' : b.tokAt t' p q') : t = t' ∧ q = q' := by
  cases t with
  | begin name =>
    cases t' with
    | begin name' =>
      obtain ⟨-, h2, rfl⟩ := h
      obtain ⟨-, h2', rfl⟩ := h'
      obtain rfl := h2.unique h2'
      exact ⟨rfl, rfl⟩
    | close | prop name' value' => exact absurd (h.1.symm.trans h'.1) (by decide)
  | close =>
    cases t' with
    | begin name' => exact absurd (h.1.symm.trans h'.1) (by decide)
    | close => exact ⟨rfl, h.2.trans h'.2.symm⟩
    | prop name' value' => exact absurd (h.1.symm.trans h'.1) (by decide)
  | prop name value => ?_
  cases t' with
  | begin name' | close => exact absurd (h.1.symm.trans h'.1) (by decide)
  | prop name' value' => ?_
  obtain ⟨-, h2, h3, h4, rfl⟩ := h
  obtain ⟨-, h2', h3', h4', rfl⟩ := h'
  have hlen : value.length = value'.length := h2.symm.trans h2'
  obtain rfl := h3.1.unique h3'.1
  rw [hlen, h4'] at h4
  rw [h4]
  exact ⟨rfl, rfl⟩

theorem Strings.Holds.unique {ts' : List FdtTok} (h : b.Holds p ts q)
    (he : be32 b.mem q = FDT_END) (h' : b.Holds p ts' q') (he' : be32 b.mem q' = FDT_END) : ts = ts' := by
  induction h generalizing ts' with
  | nil p =>
    cases h' with
    | nil => rfl
    | nop hn _ => exact absurd (hn.symm.trans he) (by decide)
    | cons ht _ => exact absurd he (tokAt_word ht).2
  | nop hn _ ih =>
    cases h' with
    | nil => exact absurd (hn.symm.trans he') (by decide)
    | nop _ hrest => exact ih he hrest
    | cons ht _ => exact absurd hn (tokAt_word ht).1
  | cons ht _ ih => ?_
  cases h' with
  | nil => exact absurd he' (tokAt_word ht).2
  | nop hn _ => exact absurd hn (tokAt_word ht).1
  | cons ht' hrest' =>
    obtain ⟨rfl, rfl⟩ := tokAt_unique ht ht'
    rw [ih he hrest']

end Tokens

end Embedded.Bootloader
