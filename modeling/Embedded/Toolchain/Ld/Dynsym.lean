import Embedded.Lib.HashChain
import Embedded.Libc.Dso

/-! # The dynamic symbol tables of the linker (`toolchain/ld/dynamic.c`)

`.dynsym` is the null symbol, the section symbols, the imports, the versions and the exports; `.dynstr` has
their names, and `.hash` finds the named ones. Sizes and visibilities of the symbols, which nothing at
run time reads, are left out. -/

namespace Embedded.Toolchain.Ld

open Libc (Sym)

/-- `Import`; `tls` says that the provider's symbol is thread-local, `slot` is the place in the PLT. -/
structure Import where
  name : CStr
  tls : Bool
  isData : Bool
  canon : Bool
  copyOff : Nat
  slot : Nat
deriving DecidableEq

/-- `Export`, with what its object says about the symbol; `shndx` is the index of its output section. -/
structure Export where
  name : CStr
  value : Nat
  weak : Bool
  type : Fin 16
  shndx : Nat
deriving DecidableEq

/-- What the tables are made from. `others` are the names of the needed libraries and of the object. -/
structure DynInput where
  secsyms : List (Nat × Nat)
  imports : List Import
  versions : List CStr
  exports : List Export
  others : List CStr
  pltAddr : Nat
  pltEntsize : Nat
  dynbssAddr : Nat
  dynbssIndex : Nat

/-- `ELF32_ST_INFO`. -/
def stInfo (bind type : Nat) : Nat := bind * 16 + type % 16

namespace DynInput

variable (d : DynInput)

/-- `dynsym_named`. -/
def dynsymNamed : Nat := d.imports.length + d.versions.length + d.exports.length

/-- `dynsym_count`. -/
def dynsymCount : Nat := 1 + d.secsyms.length + d.dynsymNamed

end DynInput

/-- The sizes of `hash_nbucket` from the second on. -/
def bucketSizes : List Nat :=
  [3, 17, 37, 67, 97, 131, 197, 263, 521, 1031, 2053, 4099, 8209, 16411, 32771]

/-- The loop of `hash_nbucket`: `best`, and the sizes after it. -/
def nbucketLoop (named : Nat) : Nat → List Nat → Nat
  | best, [] => best
  | best, size :: sizes => if named < size then best else nbucketLoop named size sizes

/-- `hash_nbucket`. -/
def hashNbucket (named : Nat) : Nat := nbucketLoop named 1 bucketSizes

/-- `elf_hash` of the linker. -/
def elfHash (name : CStr) : Nat :=
  (name.bytes.foldl (fun (h : UInt32) (c : UInt8) =>
    let h := (h <<< 4) + c.toUInt32
    let g := h &&& 0xf0000000
    let h := if g ≠ 0 then h ^^^ (g >>> 24) else h
    h &&& ~~~ g) 0).toNat

namespace DynInput

variable (d : DynInput)

/-- `.dynstr`, and the offsets in it of the imports, the exports and the versions. -/
def dynstr : List UInt8 × List Nat × List Nat × List Nat :=
  let r := strAddAll [0] (d.imports.map Import.name)
  let r' := strAddAll r.1 (d.exports.map Export.name)
  let r'' := strAddAll (strAddAll r'.1 d.others).1 d.versions
  (r''.1, r.2, r'.2, r''.2)

/-- The symbol of an import with its name at `off`. -/
def importSym (im : Import) (off : Nat) : Sym :=
  let type := if im.tls then 6 else if im.isData then 1 else 2
  if im.isData then ⟨off, add32 d.dynbssAddr im.copyOff, stInfo 1 type, d.dynbssIndex⟩
  else if im.canon then ⟨off, add32 d.pltAddr (d.pltEntsize * im.slot), stInfo 1 type, 0⟩
  else ⟨off, 0, stInfo 1 type, 0⟩

/-- A version is an absolute object. -/
def versionSym (off : Nat) : Sym := ⟨off, 0, stInfo 1 1, 0xfff1⟩

def exportSym (e : Export) (off : Nat) : Sym :=
  ⟨off, e.value, stInfo (if e.weak then 2 else 1) e.type, e.shndx⟩

def secSym (s : Nat × Nat) : Sym := ⟨0, s.1, stInfo 0 3, s.2⟩

/-- The named symbols. -/
def namedSyms : List Sym :=
  List.zipWith d.importSym d.imports d.dynstr.2.1 ++
    (d.dynstr.2.2.2.map versionSym ++ List.zipWith exportSym d.exports d.dynstr.2.2.1)

/-- `.dynsym`. -/
def dynsym : List Sym := ⟨0, 0, 0, 0⟩ :: (d.secsyms.map secSym ++ d.namedSyms)

/-- The names, in the order of the symbols. -/
def names : List CStr := d.imports.map Import.name ++ (d.versions ++ d.exports.map Export.name)

/-- The buckets and chains of `.hash`: every named symbol is put in front of its bucket. -/
def chains : Chains :=
  Chains.empty.fill (1 + d.secsyms.length) (d.names.map fun name => elfHash name % hashNbucket d.dynsymNamed)

/-- `.hash`. -/
def hash : List Nat :=
  let nbucket := hashNbucket d.dynsymNamed
  nbucket :: d.dynsymCount ::
    ((List.range nbucket).map d.chains.bucket ++ (List.range d.dynsymCount).map d.chains.chain)

/-- The object as the loader has it at `base`. -/
def dso (base : Nat) : Libc.Dso := ⟨base, some d.dynsym, some d.dynstr.1, some d.hash⟩

end DynInput

end Embedded.Toolchain.Ld
