import Embedded.Toolchain.Ld.Dynsym
import Mathlib.Data.List.Nodup

/-! # What a lookup finds in the linker's tables

The loader walks the chain that the linker built for the bucket of the name. It ends, and with distinct
names it meets the symbol of that name and no other. -/

namespace Embedded.Libc

open Toolchain.Ld
open List Option DynInput

variable {i q p b : Nat}

/-! ## The hash function and the buckets -/

theorem elfHash_eq (name : CStr) : elfHash name.bytes = Toolchain.Ld.elfHash name := by
  have hloop : ∀ (cs : List UInt8) (h : UInt32), elfHashLoop cs h = cs.foldl hashStep h := by
    intro cs
    induction cs with
    | nil => exact fun h => rfl
    | cons c cs ih => exact fun h => ih (hashStep h c)
  rw [elfHash, hloop]
  rfl

theorem nbucketLoop_pos {named best : Nat} {sizes : List Nat} (hbest : 0 < best)
    (hsizes : ∀ s ∈ sizes, 0 < s) : 0 < nbucketLoop named best sizes := by
  induction sizes generalizing best with
  | nil => exact hbest
  | cons s sizes ih => ?_
  rw [nbucketLoop]
  split
  · exact hbest
  · exact ih (hsizes s mem_cons_self) (forall_mem_cons.1 hsizes).2

theorem hashNbucket_pos (named : Nat) : 0 < hashNbucket named := nbucketLoop_pos (by decide) (by decide)

/-! ## The walk -/

/-- A symbol that answers a lookup of the class. -/
def Sym.answers (s : Sym) (cls : LookupClass) : Bool :=
  !s.imported cls && (s.bind = 1 || s.bind = 2)

section Walk

variable {symtab : List Sym} {strtab : List UInt8} {hash : List Nat} {nbucket base : Nat}
  {name : CStr} {cls : LookupClass}

/-- What is at the entries of a chain: a symbol, a name and the next entry. -/
structure Entry (symtab : List Sym) (strtab : List UInt8) (hash : List Nat) (nbucket : Nat) (t : Chains)
    (named : Nat → CStr) (i : Nat) : Prop where
  next : hash[2 + nbucket + i]? = some (t.chain i)
  sym : ∃ s, symtab[i]? = some s ∧ StrAt strtab (named i) s.name

/-- The symbol at an entry. -/
def symAt (symtab : List Sym) (i : Nat) : Sym := symtab.getD i ⟨0, 0, 0, 0⟩

/-- The loop of `dso_lookup` returns the first symbol of the chain that has the name and answers. -/
theorem dsoLoop_isPath {t : Chains} {named : Nat → CStr} {is : List Nat} {fuel i : Nat}
    (hpath : t.IsPath i is)
    (hentry : ∀ j ∈ is, Entry symtab strtab hash nbucket t named j) (hfuel : is.length < fuel) :
    dsoLoop symtab strtab hash nbucket base name.bytes cls fuel i =
      some (match is.find? fun j => (symAt symtab j).answers cls && decide (named j = name) with
        | some j => add32 (symAt symtab j).value base
        | none => 0) := by
  induction is generalizing i fuel with
  | nil =>
    obtain _ | fuel := fuel
    · omega
    have hzero : i = 0 := hpath
    rw [dsoLoop, if_pos hzero]
    rfl
  | cons j is ih => ?_
  obtain _ | fuel := fuel
  · omega
  rw [length_cons] at hfuel
  obtain ⟨rfl, hne, hrest⟩ := hpath
  obtain ⟨hnext, s, hs, rest, hstr⟩ := hentry i mem_cons_self
  have hsym : symAt symtab i = s := by rw [symAt, getD_eq_getElem?_getD, hs, getD_some]
  have hcmp : strEq (strtab.drop s.name) name.bytes = some (decide (named i = name)) := by
    rw [hstr, strEq_append (named i).no_nul name.no_nul]
    congr 1
    rw [decide_eq_decide]
    constructor
    · intro h
      cases hn : named i
      cases name
      simp_all
    exact fun h => h ▸ rfl
  have htail := @ih fuel _ hrest (forall_mem_cons.1 hentry).2 (by omega)
  rw [dsoLoop, if_neg hne, hs, bind_some, hnext, bind_some, htail, hcmp, find?_cons, hsym]
  by_cases himp : s.imported cls = true
  · simp [Sym.answers, himp]
  by_cases hbind : s.bind ≠ 1 ∧ s.bind ≠ 2
  · simp [Sym.answers, himp, hbind]
  have hans : s.answers cls = true := by
    rw [Sym.answers, Bool.eq_false_iff.2 himp]
    simp
    omega
  by_cases hname : named i = name
  · simp [himp, hbind, hans, hname, hsym]
  · simp [himp, hbind, hname]

end Walk

/-! ## The tables -/

section Tables

variable {d : DynInput}

/-- The names are in the string table at the offsets of the symbols. -/
theorem dynstr_spec : List.Forall₂ (StrAt d.dynstr.1) (d.imports.map Import.name) d.dynstr.2.1 ∧
    List.Forall₂ (StrAt d.dynstr.1) (d.exports.map Export.name) d.dynstr.2.2.1 ∧
    List.Forall₂ (StrAt d.dynstr.1) d.versions d.dynstr.2.2.2 := by
  obtain ⟨-, himports⟩ := strAddAll_spec [0] (d.imports.map Import.name)
  generalize h1 : strAddAll [0] (d.imports.map Import.name) = r1 at himports
  obtain ⟨⟨m2, hm2⟩, hexports⟩ := strAddAll_spec r1.1 (d.exports.map Export.name)
  generalize h2 : strAddAll r1.1 (d.exports.map Export.name) = r2 at hm2 hexports
  obtain ⟨⟨m3, hm3⟩, -⟩ := strAddAll_spec r2.1 d.others
  generalize h3 : strAddAll r2.1 d.others = r3 at hm3
  obtain ⟨⟨m4, hm4⟩, hversions⟩ := strAddAll_spec r3.1 d.versions
  have hdyn : d.dynstr = ((strAddAll r3.1 d.versions).1, r1.2, r2.2, (strAddAll r3.1 d.versions).2) := by
    rw [dynstr, h1, h2, h3]
  rw [hdyn]
  simp only
  refine ⟨himports.imp fun name off h => ?_, hexports.imp fun name off h => ?_, hversions⟩
  · rw [hm4, hm3, hm2]
    exact ((h.append m2).append m3).append m4
  rw [hm4, hm3]
  exact (h.append m3).append m4

theorem forall₂_getElem? {α β : Type} {R : α → β → Prop} {as : List α} {bs : List β}
    (h : List.Forall₂ R as bs) {i : Nat} {a : α} (ha : as[i]? = some a) :
    ∃ b, bs[i]? = some b ∧ R a b := by
  induction h generalizing i with
  | nil => simp at ha
  | @cons a' b' as bs hab _ ih => ?_
  cases i with
  | zero =>
    simp only [getElem?_cons_zero, some.injEq] at ha
    exact ⟨b', rfl, ha ▸ hab⟩
  | succ i => exact ih ha

theorem namedSyms_import {im : Import} (h : d.imports[q]? = some im) :
    ∃ off, d.namedSyms[q]? = some (d.importSym im off) ∧ StrAt d.dynstr.1 im.name off := by
  have hname : (d.imports.map Import.name)[q]? = some im.name := by rw [getElem?_map, h]; rfl
  obtain ⟨off, hoff, hat⟩ := forall₂_getElem? dynstr_spec.1 hname
  refine ⟨off, ?_, hat⟩
  have hzip : (zipWith d.importSym d.imports d.dynstr.2.1)[q]? = some (d.importSym im off) := by
    rw [getElem?_zipWith, h, hoff]
  obtain ⟨hlt, -⟩ := List.getElem?_eq_some_iff.1 hzip
  rw [namedSyms, List.getElem?_append_left hlt, hzip]

theorem length_importSyms : (List.zipWith d.importSym d.imports d.dynstr.2.1).length = d.imports.length := by
  have := (@dynstr_spec d).1.length_eq
  rw [length_map] at this
  rw [length_zipWith, ← this, Nat.min_self]

theorem length_versionSyms : (d.dynstr.2.2.2.map versionSym).length = d.versions.length := by
  rw [length_map]
  exact (dynstr_spec).2.2.length_eq.symm

variable {name : CStr}

theorem namedSyms_version (h : d.versions[q]? = some name) :
    ∃ off, d.namedSyms[d.imports.length + q]? = some (versionSym off) ∧ StrAt d.dynstr.1 name off := by
  obtain ⟨off, hoff, hat⟩ := forall₂_getElem? dynstr_spec.2.2 h
  refine ⟨off, ?_, hat⟩
  have hmap : (d.dynstr.2.2.2.map versionSym)[q]? = some (versionSym off) := by
    rw [getElem?_map, hoff]
    rfl
  obtain ⟨hlt, -⟩ := List.getElem?_eq_some_iff.1 hmap
  rw [namedSyms, List.getElem?_append_right (by rw [length_importSyms]; omega),
    length_importSyms, Nat.add_sub_cancel_left, getElem?_append_left hlt, hmap]

theorem namedSyms_export {e : Export} (h : d.exports[q]? = some e) :
    ∃ off, d.namedSyms[d.imports.length + (d.versions.length + q)]? = some (exportSym e off) ∧
      StrAt d.dynstr.1 e.name off := by
  have hname : (d.exports.map Export.name)[q]? = some e.name := by rw [getElem?_map, h]; rfl
  obtain ⟨off, hoff, hat⟩ := forall₂_getElem? dynstr_spec.2.1 hname
  refine ⟨off, ?_, hat⟩
  rw [namedSyms, getElem?_append_right (by rw [length_importSyms]; omega),
    length_importSyms, Nat.add_sub_cancel_left,
    getElem?_append_right (by rw [length_versionSyms]; omega), length_versionSyms,
    Nat.add_sub_cancel_left, getElem?_zipWith, h, hoff]

theorem namedSyms_of_names (h : d.names[p]? = some name) :
    ∃ s, d.namedSyms[p]? = some s ∧ StrAt d.dynstr.1 name s.name := by
  rw [names] at h
  rcases Nat.lt_or_ge p d.imports.length with h1 | h1
  · rw [getElem?_append_left (by rw [length_map]; exact h1), getElem?_map] at h
    obtain ⟨im, him, rfl⟩ := map_eq_some_iff.1 h
    obtain ⟨off, hs, hat⟩ := namedSyms_import him
    refine ⟨_, hs, ?_⟩
    have hoff : (d.importSym im off).name = off := by
      unfold importSym
      simp only
      split
      · rfl
      split <;> rfl
    rw [hoff]
    exact hat
  rw [getElem?_append_right (by rw [length_map]; exact h1), length_map] at h
  rcases Nat.lt_or_ge (p - d.imports.length) d.versions.length with h2 | h2
  · rw [getElem?_append_left h2] at h
    obtain ⟨off, hs, hat⟩ := namedSyms_version h
    rw [Nat.add_sub_cancel' h1] at hs
    exact ⟨_, hs, hat⟩
  rw [getElem?_append_right h2, getElem?_map] at h
  obtain ⟨e, he, rfl⟩ := map_eq_some_iff.1 h
  obtain ⟨off, hs, hat⟩ := namedSyms_export he
  rw [Nat.add_sub_cancel' h2, Nat.add_sub_cancel' h1] at hs
  exact ⟨_, hs, hat⟩

theorem length_names : d.names.length = d.dynsymNamed := by
  simp [names, dynsymNamed]
  omega

/-- The number of the first named symbol. -/
def firstNamed (d : DynInput) : Nat := 1 + d.secsyms.length

/-- The name of an entry. -/
def entryName (d : DynInput) (i : Nat) : CStr := (d.names[i - firstNamed d]?).getD ⟨[], by simp⟩

theorem dynsym_getElem? (p : Nat) : d.dynsym[firstNamed d + p]? = d.namedSyms[p]? := by
  have hidx : firstNamed d + p = ((d.secsyms.map secSym).length + p) + 1 := by
    rw [firstNamed, length_map]
    omega
  rw [hidx, dynsym, getElem?_cons_succ, getElem?_append_right (Nat.le_add_right _ _), Nat.add_sub_cancel_left]

theorem hash_chain (hi : i < d.dynsymCount) :
    d.hash[2 + hashNbucket d.dynsymNamed + i]? = some (d.chains.chain i) := by
  have hidx : 2 + hashNbucket d.dynsymNamed + i =
      (((range (hashNbucket d.dynsymNamed)).map d.chains.bucket).length + i) + 1 + 1 := by
    rw [length_map, length_range]
    omega
  rw [hidx, DynInput.hash, getElem?_cons_succ, getElem?_cons_succ,
    getElem?_append_right (Nat.le_add_right _ _), Nat.add_sub_cancel_left, getElem?_map,
    getElem?_range hi]
  rfl

theorem hash_bucket (hb : b < hashNbucket d.dynsymNamed) :
    d.hash[2 + b]? = some (d.chains.bucket b) := by
  have hidx : 2 + b = b + 1 + 1 := by omega
  rw [hidx, DynInput.hash, getElem?_cons_succ, getElem?_cons_succ,
    getElem?_append_left (by rw [length_map, length_range]; exact hb),
    getElem?_map, getElem?_range hb]
  rfl

/-- The entries of a bucket. -/
def bucketOf (d : DynInput) (b : Nat) : List Nat :=
  Chains.members (firstNamed d)
    (d.names.map fun name => Toolchain.Ld.elfHash name % hashNbucket d.dynsymNamed) b

theorem mem_bucketOf : i ∈ bucketOf d b ↔ ∃ p name, i = firstNamed d + p ∧
    d.names[p]? = some name ∧ Toolchain.Ld.elfHash name % hashNbucket d.dynsymNamed = b := by
  rw [bucketOf, Chains.mem_members, getElem?_map, map_eq_some_iff]
  constructor
  · rintro ⟨hle, name, hname, hb⟩
    exact ⟨i - firstNamed d, name, by omega, hname, hb⟩
  rintro ⟨p, name, rfl, hname, hb⟩
  rw [Nat.add_sub_cancel_left]
  exact ⟨Nat.le_add_right _ _, name, hname, hb⟩

theorem entry_of_mem (h : i ∈ bucketOf d b) :
    Entry d.dynsym d.dynstr.1 d.hash (hashNbucket d.dynsymNamed) d.chains (entryName d) i := by
  obtain ⟨p, name, rfl, hname, -⟩ := mem_bucketOf.1 h
  obtain ⟨hp, -⟩ := List.getElem?_eq_some_iff.1 hname
  obtain ⟨s, hs, hat⟩ := namedSyms_of_names hname
  refine ⟨hash_chain ?_, s, ?_, ?_⟩
  · rw [length_names] at hp
    rw [dynsymCount, firstNamed]
    omega
  · rw [dynsym_getElem?, hs]
  rw [entryName, Nat.add_sub_cancel_left, hname, getD_some]
  exact hat

/-- A lookup in the linker's tables goes through the bucket of the name. -/
theorem dsoLookup_bucket (d : DynInput) (base : Nat) (name : CStr) (cls : LookupClass) :
    dsoLookup (d.dso base) name.bytes cls =
      some (match (bucketOf d (Toolchain.Ld.elfHash name % hashNbucket d.dynsymNamed)).find? fun i =>
          (symAt d.dynsym i).answers cls && decide (entryName d i = name) with
        | some i => add32 (symAt d.dynsym i).value base
        | none => 0) := by
  have hpos := hashNbucket_pos d.dynsymNamed
  have hlen := Chains.length_members_le (firstNamed d)
    (d.names.map fun name => Toolchain.Ld.elfHash name % hashNbucket d.dynsymNamed)
    (Toolchain.Ld.elfHash name % hashNbucket d.dynsymNamed)
  rw [length_map, length_names] at hlen
  have hwords : d.dynsymNamed < d.hash.length := by
    simp [DynInput.hash, DynInput.dynsymCount]
    omega
  have hhead : d.hash[0]? = some (hashNbucket d.dynsymNamed) := rfl
  have hlook : dsoLookup (d.dso base) name.bytes cls = d.hash[0]?.bind fun nbucket =>
      d.hash[2 + elfHash name.bytes % nbucket]?.bind
        (dsoLoop d.dynsym d.dynstr.1 d.hash nbucket base name.bytes cls (d.hash.length + 1)) := rfl
  rw [hlook, hhead, bind_some, elfHash_eq, hash_bucket (Nat.mod_lt _ hpos), bind_some]
  refine dsoLoop_isPath ?_ (fun i hi => entry_of_mem hi) (Nat.lt_succ_of_lt (Nat.lt_of_le_of_lt hlen hwords))
  exact Chains.fill_empty_isPath (by omega) _ _

/-- A name that is in the tables is found with its symbol, if that answers. -/
theorem dsoLookup_of_name (hnodup : d.names.Nodup) {s : Sym}
    (hname : d.names[p]? = some name) (hs : d.namedSyms[p]? = some s) (base : Nat) (cls : LookupClass) :
    dsoLookup (d.dso base) name.bytes cls = some (if s.answers cls then add32 s.value base else 0) := by
  have hsym : symAt d.dynsym (firstNamed d + p) = s := by
    rw [symAt, getD_eq_getElem?_getD, dynsym_getElem?, hs, getD_some]
  have hentry : entryName d (firstNamed d + p) = name := by
    rw [entryName, Nat.add_sub_cancel_left, hname, getD_some]
  have hmem := mem_bucketOf.2 ⟨p, name, rfl, hname, rfl⟩
  -- no other entry has the name
  have hunique : ∀ i ∈ bucketOf d (Toolchain.Ld.elfHash name % hashNbucket d.dynsymNamed),
      entryName d i = name → i = firstNamed d + p := by
    intro i hi hi'
    obtain ⟨q, name', rfl, hname', -⟩ := mem_bucketOf.1 hi
    rw [entryName, Nat.add_sub_cancel_left, hname', getD_some] at hi'
    subst hi'
    obtain ⟨hq, hq'⟩ := List.getElem?_eq_some_iff.1 hname'
    obtain ⟨hp, hp'⟩ := List.getElem?_eq_some_iff.1 hname
    rw [(List.Nodup.getElem_inj_iff hnodup).1 (hq'.trans hp'.symm)]
  rw [dsoLookup_bucket]
  congr 1
  cases hfind : (bucketOf d (Toolchain.Ld.elfHash name % hashNbucket d.dynsymNamed)).find? fun i =>
      (symAt d.dynsym i).answers cls && decide (entryName d i = name) with
  | some i =>
    have hi := find?_some hfind
    simp only [Bool.and_eq_true, decide_eq_true_eq] at hi
    obtain rfl := hunique i (mem_of_find?_eq_some hfind) hi.2
    rw [hsym] at hi
    simp only [hsym, hi.1, if_true]
  | none =>
    have hno := find?_eq_none.1 hfind _ hmem
    rw [hsym, hentry, decide_eq_true rfl, Bool.and_true] at hno
    simp only [hno]
    rfl

theorem dsoLookup_of_notMem (hname : name ∉ d.names) (base : Nat) (cls : LookupClass) :
    dsoLookup (d.dso base) name.bytes cls = some 0 := by
  rw [dsoLookup_bucket]
  congr 1
  have hnone : (bucketOf d (Toolchain.Ld.elfHash name % hashNbucket d.dynsymNamed)).find? (fun i =>
      (symAt d.dynsym i).answers cls && decide (entryName d i = name)) = none := by
    refine find?_eq_none.2 fun i hi h => ?_
    simp only [Bool.and_eq_true, decide_eq_true_eq] at h
    obtain ⟨p, name', rfl, hname', -⟩ := mem_bucketOf.1 hi
    rw [entryName, Nat.add_sub_cancel_left, hname', getD_some] at h
    exact hname (h.2 ▸ mem_of_getElem? hname')
  rw [hnone]

/-! ## What an object provides -/

/-- The address that an object at `base` gives for a name: that of an export in a section of the output,
the load address itself for the name of a version, the copy of an imported variable, and for data
references the canonical address of an imported function. -/
def provides (d : DynInput) (base : Nat) (cls : LookupClass) (name : CStr) : Nat :=
  match d.exports.find? fun e => decide (e.name = name) with
  | some e =>
    if e.shndx ≠ 0 ∨ cls = .data ∧ e.type = 2 ∧ e.value ≠ 0 then add32 e.value base else 0
  | none =>
    if name ∈ d.versions then add32 0 base
    else match d.imports.find? fun im => decide (im.name = name) with
      | some im =>
        if im.isData then
          if d.dynbssIndex ≠ 0 then add32 (add32 d.dynbssAddr im.copyOff) base else 0
        else
          let plt := add32 d.pltAddr (d.pltEntsize * im.slot)
          if im.canon ∧ !im.tls ∧ cls = .data ∧ plt ≠ 0 then add32 plt base else 0
      | none => 0

theorem exportSym_answers (e : Export) (off : Nat) (cls : LookupClass) :
    (exportSym e off).answers cls = true ↔ e.shndx ≠ 0 ∨ cls = .data ∧ e.type = 2 ∧ e.value ≠ 0 := by
  have hfunc : (e.type : Nat) = 2 ↔ e.type = 2 := ⟨fun h => Fin.ext h, fun h => by rw [h]; rfl⟩
  have hbind : (exportSym e off).bind = 1 ∨ (exportSym e off).bind = 2 := by
    show stInfo _ _ / 16 = 1 ∨ stInfo _ _ / 16 = 2
    unfold stInfo
    split <;> omega
  have ht : (exportSym e off).type = e.type := by
    show stInfo _ _ % 16 = _
    unfold stInfo
    omega
  have hval : (exportSym e off).value = e.value := rfl
  have hsh : (exportSym e off).shndx = e.shndx := rfl
  rw [Sym.answers, Sym.imported, ht, hval, hsh, ← hfunc]
  cases cls with
  | data =>
    simp [hbind]
    tauto
  | plt => simp [hbind]

theorem versionSym_answers (off : Nat) (cls : LookupClass) : (versionSym off).answers cls = true := by
  simp [Sym.answers, Sym.imported, Sym.bind, versionSym, stInfo]

theorem importSym_answers (im : Import) (off base : Nat) (cls : LookupClass) :
    (if (d.importSym im off).answers cls then add32 (d.importSym im off).value base else 0) =
      if im.isData then if d.dynbssIndex ≠ 0 then add32 (add32 d.dynbssAddr im.copyOff) base else 0
      else if im.canon ∧ !im.tls ∧ cls = .data ∧ add32 d.pltAddr (d.pltEntsize * im.slot) ≠ 0 then
        add32 (add32 d.pltAddr (d.pltEntsize * im.slot)) base
      else 0 := by
  unfold importSym Sym.answers Sym.imported Sym.bind Sym.type stInfo
  cases hdata : im.isData
  · cases hcanon : im.canon
    · simp
    cases htls : im.tls <;> cases cls <;> simp
  cases htls : im.tls <;> cases cls <;> simp

/-- **Lookup agrees with the linker.** In the tables of every set of imports, versions and exports with
distinct names, the lookup of every name ends, and returns what the object provides. -/
theorem dsoLookup_provides (d : DynInput) (hnodup : d.names.Nodup) (base : Nat) (cls : LookupClass)
    (name : CStr) : dsoLookup (d.dso base) name.bytes cls = some (provides d base cls name) := by
  unfold provides
  cases hexp : d.exports.find? fun e => decide (e.name = name) with
  | some e =>
    have hname : e.name = name := by simpa using find?_some hexp
    obtain ⟨q, hq, he⟩ := mem_iff_getElem.1 (mem_of_find?_eq_some hexp)
    have hget : d.exports[q]? = some e := by rw [getElem?_eq_getElem hq, he]
    obtain ⟨off, hs, -⟩ := namedSyms_export hget
    have hat : d.names[d.imports.length + (d.versions.length + q)]? = some name := by
      rw [names, getElem?_append_right (by rw [length_map]; omega), length_map,
        Nat.add_sub_cancel_left, getElem?_append_right (Nat.le_add_right _ _),
        Nat.add_sub_cancel_left, getElem?_map, hget, map_some, hname]
    rw [dsoLookup_of_name hnodup hat hs]
    congr 1
    by_cases hans : (exportSym e off).answers cls = true
    · rw [if_pos hans]
      exact (if_pos ((exportSym_answers e off cls).1 hans)).symm
    · rw [if_neg hans]
      exact (if_neg fun h => hans ((exportSym_answers e off cls).2 h)).symm
  | none => ?_
  simp only
  by_cases hver : name ∈ d.versions
  · obtain ⟨q, hq, hv⟩ := mem_iff_getElem.1 hver
    have hget : d.versions[q]? = some name := by rw [getElem?_eq_getElem hq, hv]
    obtain ⟨off, hs, -⟩ := namedSyms_version hget
    have hat : d.names[d.imports.length + q]? = some name := by
      rw [names, getElem?_append_right (by rw [length_map]; omega), length_map,
        Nat.add_sub_cancel_left, getElem?_append_left hq, hget]
    rw [dsoLookup_of_name hnodup hat hs, if_pos hver, if_pos (versionSym_answers off cls)]
    rfl
  rw [if_neg hver]
  cases himp : d.imports.find? fun im => decide (im.name = name) with
  | some im =>
    have hname : im.name = name := by simpa using find?_some himp
    obtain ⟨q, hq, him⟩ := mem_iff_getElem.1 (mem_of_find?_eq_some himp)
    have hget : d.imports[q]? = some im := by rw [getElem?_eq_getElem hq, him]
    obtain ⟨off, hs, -⟩ := namedSyms_import hget
    have hat : d.names[q]? = some name := by
      rw [names, getElem?_append_left (by rw [length_map]; exact hq), getElem?_map, hget, map_some, hname]
    rw [dsoLookup_of_name hnodup hat hs, importSym_answers]
  | none => ?_
  refine dsoLookup_of_notMem (fun hmem => ?_) base cls
  rw [names, mem_append, mem_append, List.mem_map, List.mem_map] at hmem
  rcases hmem with ⟨im, him, rfl⟩ | h | ⟨e, he, rfl⟩
  · exact absurd (decide_eq_true rfl) (find?_eq_none.1 himp im him)
  · exact hver h
  · exact absurd (decide_eq_true rfl) (find?_eq_none.1 hexp e he)

end Tables

/-- A program that imports a function by its address and a variable, and exports a function under a
version. -/
def sampleInput : DynInput where
  secsyms := []
  imports := [⟨⟨[112], by decide⟩, false, false, true, 0, 0⟩, ⟨⟨[101], by decide⟩, false, true, false, 8, 0⟩]
  versions := [⟨[86], by decide⟩]
  exports := [⟨⟨[102], by decide⟩, 0x1234, false, 2, 7⟩]
  others := [⟨[108], by decide⟩]
  pltAddr := 0x800
  pltEntsize := 12
  dynbssAddr := 0x3000
  dynbssIndex := 11

theorem dsoLookup_provides_sample : dsoLookup (sampleInput.dso 0x40000000) [102] .plt = some 0x40001234 ∧
    dsoLookup (sampleInput.dso 0x40000000) [112] .data = some 0x40000800 ∧
    dsoLookup (sampleInput.dso 0x40000000) [112] .plt = some 0 :=
  ⟨(dsoLookup_provides sampleInput (by decide) 0x40000000 .plt ⟨[102], by decide⟩).trans (by decide),
    (dsoLookup_provides sampleInput (by decide) 0x40000000 .data ⟨[112], by decide⟩).trans (by decide),
    (dsoLookup_provides sampleInput (by decide) 0x40000000 .plt ⟨[112], by decide⟩).trans (by decide)⟩

/-- Names that are not exported and have an answer, for calls too: that of a version gives the load
address, that of an imported variable its copy. -/
theorem lookup_finds_version_and_copy :
    (∀ e ∈ sampleInput.exports, e.name.bytes ≠ [86] ∧ e.name.bytes ≠ [101]) ∧
    dsoLookup (sampleInput.dso 0x40000000) [86] .plt = some 0x40000000 ∧
    dsoLookup (sampleInput.dso 0x40000000) [101] .plt = some 0x40003008 := by decide +kernel

end Embedded.Libc
