import Embedded.Lib.CString
import Embedded.Lib.Word

/-! # Symbol lookup in the dynamic loader (`libc/ld/src/reloc.h`)

A mapped object has a symbol table, a string table and a System V hash table. A read outside of a table,
or a chain that does not end, has no result. -/

namespace Embedded.Libc

/-- The fields of `Elf32_Sym` that a lookup reads. -/
structure Sym where
  name : Nat
  value : Nat
  info : Nat
  shndx : Nat
deriving DecidableEq, Repr

/-- `ELF32_ST_BIND`. -/
def Sym.bind (s : Sym) : Nat := s.info / 16

/-- `ELF32_ST_TYPE`. -/
def Sym.type (s : Sym) : Nat := s.info % 16

/-- `dso_t`, as far as a lookup goes. -/
structure Dso where
  base : Nat
  symtab : Option (List Sym)
  strtab : Option (List UInt8)
  hash : Option (List Nat)

inductive LookupClass
  | data
  | plt
deriving DecidableEq, Repr

/-- One byte of `elf_hash`. -/
def hashStep (h : UInt32) (c : UInt8) : UInt32 :=
  let h := (h <<< 4) + c.toUInt32
  let g := h &&& 0xf0000000
  let h := if g ≠ 0 then h ^^^ (g >>> 24) else h
  h &&& ~~~ g

/-- The loop of `elf_hash`. -/
def elfHashLoop : List UInt8 → UInt32 → UInt32
  | [], h => h
  | c :: cs, h => elfHashLoop cs (hashStep h c)

/-- `elf_hash`. -/
def elfHash (name : List UInt8) : Nat := (elfHashLoop name 0).toNat

/-- The symbol is passed over: imported here, and without an address that counts. -/
def Sym.imported (s : Sym) (cls : LookupClass) : Bool :=
  s.shndx = 0 && (cls = .plt || s.value = 0 || s.type ≠ 2)

/-- The loop of `dso_lookup`, at the entry `i`. -/
def dsoLoop (symtab : List Sym) (strtab : List UInt8) (hash : List Nat) (nbucket base : Nat)
    (name : List UInt8) (cls : LookupClass) : Nat → Nat → Option Nat
  | 0, _ => none
  | fuel + 1, i =>
    if i = 0 then some 0
    else symtab[i]?.bind fun sym =>
      let next := hash[2 + nbucket + i]?.bind (dsoLoop symtab strtab hash nbucket base name cls fuel)
      if sym.imported cls then next
      else if sym.bind ≠ 1 ∧ sym.bind ≠ 2 then next
      else (strEq (strtab.drop sym.name) name).bind fun same =>
        if same then some (add32 sym.value base) else next

/-- `dso_lookup`. A chain without a cycle has at most as many entries as the table has words. -/
def dsoLookup (d : Dso) (name : List UInt8) (cls : LookupClass) : Option Nat :=
  match d.hash, d.symtab, d.strtab with
  | some hash, some symtab, some strtab =>
    hash[0]?.bind fun nbucket => hash[2 + elfHash name % nbucket]?.bind
      (dsoLoop symtab strtab hash nbucket d.base name cls (hash.length + 1))
  | _, _, _ => some 0

end Embedded.Libc
