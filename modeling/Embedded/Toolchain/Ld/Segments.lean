import Embedded.Lib.Word

/-! # `ld`: from output sections to program headers

`build_segments` (`script.c`) walks the laid-out output sections in script order and grows the
loadable segments greedily: a section joins the segment before it unless one of five tests opens a
new one. The first segment is extended down over the file headers where there is room, the file
offsets are assigned in a second pass, and `nonalloc_offsets` appends what is not loaded.

`load` is the meaning of the program headers, and `Described` says what they are for: loading by
them puts every section where it was laid out. -/

namespace Embedded.Toolchain.Ld

/-! ## Output sections and segments -/

/-- An output section as `assign_addresses` leaves it: `type == SHT_NOBITS`, the `SHF_*` flags, its
run and load address, its size, and the `sh_addralign` of its input sections. -/
structure OutSec where
  nobits : Bool
  alloc : Bool
  write : Bool
  exec : Bool
  tls : Bool
  vaddr : Nat
  lma : Nat
  size : Nat
  aligns : List Nat
deriving DecidableEq

/-- A statement of the linker script: an output section, or anything else. -/
inductive Stmt where
  | other
  | outsec (discard : Bool) (os : OutSec)

/-- One `PT_LOAD`; `PF_R` is always set, `w` and `x` are `PF_W` and `PF_X`. -/
structure Seg where
  vaddr : Nat
  lma : Nat
  off : Nat
  filesz : Nat
  memsz : Nat
  w : Bool
  x : Bool
deriving DecidableEq

/-- `tls_bss(os)`. -/
def OutSec.tlsBss (os : OutSec) : Bool := os.tls && os.nobits

/-- The sections that go into a `PT_LOAD`. -/
def OutSec.loadable (os : OutSec) : Bool := os.alloc && !os.tlsBss

/-- `alignup(x, a)`, the mask `~(a - 1)` included. -/
def alignup (x a : Nat) : Nat :=
  if 1 < a then
    let y := add32 x (a - 1)
    y - (y &&& (a - 1))
  else x

/-- The largest alignment of the inputs, from 1 on. -/
def OutSec.align (os : OutSec) : Nat := os.aligns.foldl max 1

/-- The output sections the loop looks at. -/
def emitted : List Stmt → List OutSec
  | [] => []
  | .other :: rest => emitted rest
  | .outsec discard os :: rest =>
    if discard || os.size == 0 then emitted rest else os :: emitted rest

/-! ## Growing the segments -/

/-- `segs` and `outsecs`; the number beside a section is its `seg`. -/
structure Build where
  segs : List Seg
  outsecs : List (OutSec × Nat)

/-- `fresh`, for a section behind the segment `g`. -/
def fresh (g : Seg) (os : OutSec) : Bool :=
  let endg := add32 g.vaddr g.memsz
  -- file bytes can't follow a .bss tail
  (!os.nobits && decide (g.filesz < g.memsz))
    -- a different load delta
    || (!os.nobits && decide (sub32 os.lma os.vaddr ≠ sub32 g.lma g.vaddr))
    -- goes backwards
    || decide (os.vaddr < endg)
    -- a page gap
    || decide (pageUp endg < pageDown os.vaddr)
    -- W^X
    || (!g.w && os.write && decide (pageDown (sub32 endg 1) ≠ pageDown os.vaddr))

/-- `(Seg){ .vaddr = os->vaddr, .lma = prog ? os->lma : os->vaddr, .flags = PF_R }`. -/
def newSeg (os : OutSec) : Seg :=
  ⟨os.vaddr, if os.nobits then os.vaddr else os.lma, 0, 0, 0, false, false⟩

/-- The segment `g` with `os` as its last section. -/
def extend (g : Seg) (os : OutSec) : Seg :=
  let memsz := sub32 (add32 os.vaddr os.size) g.vaddr
  { g with
    memsz := memsz
    filesz := if os.nobits then g.filesz else memsz
    w := g.w || os.write
    x := g.x || os.exec }

/-- One round of the loop over the sections. -/
def addSection (b : Build) (os : OutSec) : Build :=
  if os.loadable then
    match b.segs.getLast? with
    | none => ⟨b.segs ++ [extend (newSeg os) os], b.outsecs ++ [(os, b.segs.length)]⟩
    | some g =>
      if fresh g os then
        ⟨b.segs ++ [extend (newSeg os) os], b.outsecs ++ [(os, b.segs.length)]⟩
      else
        ⟨b.segs.dropLast ++ [extend g os], b.outsecs ++ [(os, b.segs.length - 1)]⟩
  else
    -- in no PT_LOAD; a header all the same
    { b with outsecs := b.outsecs ++ [(os, b.segs.length - 1)] }

/-- The loop. -/
def addSections (b : Build) : List OutSec → Build
  | [] => b
  | os :: rest => addSections (addSection b os) rest

/-! ## File offsets -/

/-- Whether the headers fit into the page before the first segment's first section. -/
def headersFit (hdrsz : Nat) (g : Seg) : Bool :=
  decide (g.filesz ≠ 0) && decide (g.lma = g.vaddr) && decide (hdrsz ≤ g.vaddr % 4096)

/-- The first segment, extended down to its page. -/
def mapHeaders (g : Seg) : Seg :=
  let below := g.vaddr % 4096
  { g with
    vaddr := g.vaddr - below
    lma := sub32 g.lma below
    filesz := add32 g.filesz below
    memsz := add32 g.memsz below }

/-- `fend + ((g->vaddr - fend) & (PAGE - 1))`. -/
def segOff (fend : Nat) (g : Seg) : Nat := add32 fend (sub32 g.vaddr fend % 4096)

/-- The offsets of the segments that are not the one with the headers. -/
def placeSegs : Nat → List Seg → List Seg
  | _, [] => []
  | fend, g :: rest =>
    let off := segOff fend g
    { g with off := off } ::
      placeSegs (if g.filesz ≠ 0 then add32 off g.filesz else fend) rest

/-- The segments with the headers mapped, where there is room, and all file offsets. -/
def placeAll (hdrsz : Nat) : List Seg → List Seg
  | [] => []
  | g :: rest =>
    if headersFit hdrsz g then
      { mapHeaders g with off := 0 } :: placeSegs (add32 0 (mapHeaders g).filesz) rest
    else placeSegs hdrsz (g :: rest)

/-- An output section with its `seg` and its `off`. -/
structure Placed where
  sec : OutSec
  seg : Nat
  off : Nat
deriving DecidableEq

/-- The offset of a section in the segment it was given. -/
def placeSec (hdrsz : Nat) (segs : List Seg) (s : OutSec × Nat) : Placed :=
  match segs[s.2]? with
  | some g => ⟨s.1, s.2, add32 g.off (sub32 s.1.vaddr g.vaddr)⟩
  | none => ⟨s.1, s.2, hdrsz⟩

/-- The first loop of `nonalloc_offsets`: the end of the loaded bytes. -/
def loadedEnd : Nat → List Placed → Nat
  | fend, [] => fend
  | fend, p :: rest =>
    let e := add32 p.off p.sec.size
    loadedEnd (if p.sec.alloc && !p.sec.nobits && decide (fend < e) then e else fend) rest

/-- The second loop of `nonalloc_offsets`. -/
def nonallocOffsets : Nat → List Placed → List Placed
  | _, [] => []
  | fend, p :: rest =>
    if p.sec.alloc then p :: nonallocOffsets fend rest
    else
      let off := alignup fend p.sec.align
      { p with off := off } :: nonallocOffsets (add32 off p.sec.size) rest

/-- The loadable segments and the output sections of the link. -/
structure Image where
  segs : List Seg
  secs : List Placed

/-- `build_segments`, up to the program headers that are not `PT_LOAD`. -/
def buildSegments (hdrsz : Nat) (st : List Stmt) : Image :=
  let b := addSections ⟨[], []⟩ (emitted st)
  let segs := placeAll hdrsz b.segs
  let secs := b.outsecs.map (placeSec hdrsz segs)
  ⟨segs, nonallocOffsets (loadedEnd hdrsz secs) secs⟩

/-! ## What the program headers mean -/

/-- The address is one of the section's. -/
def OutSec.covers (s : OutSec) (a : Nat) : Prop := s.vaddr ≤ a ∧ a < s.vaddr + s.size

/-- The address is in the segment's memory. -/
def Seg.holds (g : Seg) (a : Nat) : Prop := g.vaddr ≤ a ∧ a < g.vaddr + g.memsz

/-- One `PT_LOAD`: its file part is copied, the rest of its memory is zero. -/
def loadSeg (file mem : Nat → UInt8) (g : Seg) (a : Nat) : UInt8 :=
  if g.vaddr ≤ a ∧ a < g.vaddr + g.filesz then file (g.off + (a - g.vaddr))
  else if g.vaddr ≤ a ∧ a < g.vaddr + g.memsz then 0
  else mem a

/-- Loading by the program headers, in their order. -/
def load (file : Nat → UInt8) : (Nat → UInt8) → List Seg → Nat → UInt8
  | mem, [] => mem
  | mem, g :: rest => load file (loadSeg file mem g) rest

/-- Two sections share no address. -/
def OutSec.Apart (s t : OutSec) : Prop :=
  s.vaddr + s.size ≤ t.vaddr ∨ t.vaddr + t.size ≤ s.vaddr

instance (s t : OutSec) : Decidable (s.Apart t) := inferInstanceAs (Decidable (_ ∨ _))

/-- The program headers and file offsets describe the layout of the sections `secs`. -/
structure Described (hdrsz : Nat) (secs : List OutSec) (r : Image) : Prop where
  all : r.secs.map Placed.sec = secs
  /-- Every loaded section is in its segment, and in no other. -/
  one : ∀ p ∈ r.secs, p.sec.loadable = true → ∃ g, r.segs[p.seg]? = some g ∧
    (∀ a, p.sec.covers a → g.holds a) ∧
    ∀ k g', r.segs[k]? = some g' → (∃ a, p.sec.covers a ∧ g'.holds a) → k = p.seg
  congruent : ∀ p ∈ r.secs, p.sec.loadable = true → p.off % 4096 = p.sec.vaddr % 4096
  /-- The file ranges of the headers and of the sections are disjoint. -/
  headers : ∀ p ∈ r.secs, p.sec.nobits = false → hdrsz ≤ p.off
  files : r.secs.Pairwise fun p q => p.sec.nobits = false → q.sec.nobits = false →
    p.off + p.sec.size ≤ q.off ∨ q.off + q.sec.size ≤ p.off
  /-- File-backed sections are in the file part. -/
  filePart : ∀ p ∈ r.secs, p.sec.loadable = true → p.sec.nobits = false →
    ∀ g, r.segs[p.seg]? = some g →
      p.off = g.off + (p.sec.vaddr - g.vaddr) ∧
        p.sec.vaddr + p.sec.size ≤ g.vaddr + g.filesz
  /-- Zero-initialised ones begin behind it. -/
  zeroPart : ∀ p ∈ r.secs, p.sec.loadable = true → p.sec.nobits = true →
    ∀ g, r.segs[p.seg]? = some g → g.vaddr + g.filesz ≤ p.sec.vaddr
  /-- Loading reproduces every section at its address. -/
  loads : ∀ p ∈ r.secs, p.sec.loadable = true → ∀ file mem i, i < p.sec.size →
    load file mem r.segs (p.sec.vaddr + i) = if p.sec.nobits then 0 else file (p.off + i)

/-! ## When they do

A section that joins a segment makes the gap in front of it part of the segment, and so does the
page that the headers are mapped to. -/

/-- The gap that `os` closes, if it joins the last segment. -/
def joinGap (b : Build) (os : OutSec) : List (Nat × Nat) :=
  match b.segs.getLast? with
  | some g => if os.loadable && !fresh g os then [(add32 g.vaddr g.memsz, os.vaddr)] else []
  | none => []

/-- The gaps closed in the loop. -/
def joinGaps (b : Build) : List OutSec → List (Nat × Nat)
  | [] => []
  | os :: rest => joinGap b os ++ joinGaps (addSection b os) rest

/-- The page before the first section, if the headers are mapped there. -/
def headerGap (hdrsz : Nat) : List Seg → List (Nat × Nat)
  | [] => []
  | g :: _ => if headersFit hdrsz g then [(pageDown g.vaddr, g.vaddr)] else []

/-- All gaps that are made part of a segment. -/
def gapsOf (hdrsz : Nat) (st : List Stmt) : List (Nat × Nat) :=
  joinGaps ⟨[], []⟩ (emitted st) ++ headerGap hdrsz (addSections ⟨[], []⟩ (emitted st)).segs

/-- No loaded section lies in one of them. -/
def GapsClear (hdrsz : Nat) (st : List Stmt) : Prop :=
  ∀ ab ∈ gapsOf hdrsz st, ∀ s ∈ emitted st, s.loadable = true →
    ab.2 ≤ ab.1 ∨ s.vaddr + s.size ≤ ab.1 ∨ ab.2 ≤ s.vaddr

/-- The output sections do not wrap the address space and do not overlap. -/
structure Laid (st : List Stmt) : Prop where
  fits : ∀ s ∈ emitted st, s.loadable = true → s.vaddr + s.size < 4294967296
  apart : (emitted st).Pairwise fun s t => s.loadable = true → t.loadable = true → s.Apart t

/-- The end of the segments' file parts, laid one behind the other from `fend` on. -/
def filesEnd : Nat → List Seg → Nat
  | fend, [] => fend
  | fend, g :: rest =>
    filesEnd (if g.filesz ≠ 0 then segOff fend g + g.filesz else fend) rest

/-- No file offset of a segment wraps. -/
def SegsFit : Nat → List Seg → Prop
  | _, [] => True
  | fend, g :: rest =>
    (g.filesz ≠ 0 → fend + sub32 g.vaddr fend % 4096 + g.filesz < 4294967296) ∧
      SegsFit (if g.filesz ≠ 0 then segOff fend g + g.filesz else fend) rest

instance SegsFit.dec : (fend : Nat) → (segs : List Seg) → Decidable (SegsFit fend segs)
  | _, [] => inferInstanceAs (Decidable True)
  | fend, g :: rest =>
    have := SegsFit.dec (if g.filesz ≠ 0 then segOff fend g + g.filesz else fend) rest
    inferInstanceAs (Decidable (_ ∧ SegsFit _ rest))

/-- No file offset of a section that is not loaded wraps. -/
def NonallocFit : Nat → List OutSec → Prop
  | _, [] => True
  | fend, os :: rest =>
    if os.alloc then NonallocFit fend rest
    else
      (fend + (os.align - 1) < 4294967296 ∧ alignup fend os.align + os.size < 4294967296) ∧
        NonallocFit (alignup fend os.align + os.size) rest

instance NonallocFit.dec : (fend : Nat) → (secs : List OutSec) → Decidable (NonallocFit fend secs)
  | _, [] => inferInstanceAs (Decidable True)
  | fend, os :: rest =>
    have := NonallocFit.dec fend rest
    have := NonallocFit.dec (alignup fend os.align + os.size) rest
    inferInstanceAs (Decidable (if os.alloc = true then NonallocFit fend rest else
      (_ ∧ _) ∧ NonallocFit (alignup fend os.align + os.size) rest))

/-- The end of the file parts of all segments. -/
def imageEnd (hdrsz : Nat) : List Seg → Nat
  | [] => hdrsz
  | g :: rest =>
    if headersFit hdrsz g then filesEnd (mapHeaders g).filesz rest
    else filesEnd hdrsz (g :: rest)

/-- No file offset of any segment wraps. -/
def ImageFits (hdrsz : Nat) : List Seg → Prop
  | [] => True
  | g :: rest =>
    if headersFit hdrsz g then SegsFit (mapHeaders g).filesz rest else SegsFit hdrsz (g :: rest)

instance ImageFits.dec (hdrsz : Nat) : (segs : List Seg) → Decidable (ImageFits hdrsz segs)
  | [] => inferInstanceAs (Decidable True)
  | g :: rest => inferInstanceAs (Decidable (if headersFit hdrsz g = true then
      SegsFit (mapHeaders g).filesz rest else SegsFit hdrsz (g :: rest)))

/-- The whole file fits into 32-bit offsets. -/
def FileFits (hdrsz : Nat) (st : List Stmt) : Prop :=
  let segs := (addSections ⟨[], []⟩ (emitted st)).segs
  hdrsz < 4294967296 ∧ ImageFits hdrsz segs ∧ NonallocFit (imageEnd hdrsz segs) (emitted st)

instance (hdrsz : Nat) (st : List Stmt) : Decidable (FileFits hdrsz st) :=
  inferInstanceAs (Decidable (_ ∧ _ ∧ _))

instance (hdrsz : Nat) (st : List Stmt) : Decidable (GapsClear hdrsz st) :=
  inferInstanceAs (Decidable (∀ ab ∈ gapsOf hdrsz st, _))

end Embedded.Toolchain.Ld
