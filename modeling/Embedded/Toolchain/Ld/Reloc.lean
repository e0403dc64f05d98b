import Embedded.Toolchain.Ld.Veneers

/-! # Relocations of the ARM backend (`ld/arm.c`)

`md_apply_reloc` patches one field with the symbol's address `S` and the patch address `P`; the addend is
in the field. `md_rel_adjust` is what a relocatable link does instead: the field's addend grows by where the
input section landed. Each type packs its addend in its own way.

A field is the word at `loc`. Bit fields are written with division and remainder by powers of two, and an
`or` of fields that do not meet as a sum. -/

namespace Embedded.Toolchain.Ld.Reloc

open Branch (hex)

inductive RelType
  | none
  | v4bx
  | abs32
  | target1
  | rel32
  | movwAbsNc
  | movtAbs
  | movwPrelNc
  | movtPrel
  | call
  | jump24
  | tlsGd32
  | tlsLdm32
  | tlsLdo32
  | tlsIe32
  | tlsLe32
  | prel31
  | gotPrel
  | gotoff32
  | basePrel
  | gotBrel
  /-- `R_ARM_ALU_PC_Gn`, with or without the check for a residual. -/
  | aluPcG (n : Nat) (check : Bool)
  /-- `R_ARM_LDR_PC_Gn`. -/
  | ldrPcG (n : Nat)
  /-- `R_ARM_LDRS_PC_Gn`. -/
  | ldrsPcG (n : Nat)
  /-- `R_ARM_LDC_PC_Gn`. -/
  | ldcPcG (n : Nat)
  | other (type : Nat)
deriving DecidableEq

/-- The type with a number. -/
def RelType.ofNat : Nat → RelType
  | 0 => .none
  | 2 => .abs32
  | 3 => .rel32
  | 4 => .ldrPcG 0
  | 24 => .gotoff32
  | 25 => .basePrel
  | 26 => .gotBrel
  | 28 => .call
  | 29 => .jump24
  | 38 => .target1
  | 40 => .v4bx
  | 42 => .prel31
  | 43 => .movwAbsNc
  | 44 => .movtAbs
  | 45 => .movwPrelNc
  | 46 => .movtPrel
  | 57 => .aluPcG 0 false
  | 58 => .aluPcG 0 true
  | 59 => .aluPcG 1 false
  | 60 => .aluPcG 1 true
  | 61 => .aluPcG 2 true
  | 62 => .ldrPcG 1
  | 63 => .ldrPcG 2
  | 64 => .ldrsPcG 0
  | 65 => .ldrsPcG 1
  | 66 => .ldrsPcG 2
  | 67 => .ldcPcG 0
  | 68 => .ldcPcG 1
  | 69 => .ldcPcG 2
  | 96 => .gotPrel
  | 104 => .tlsGd32
  | 105 => .tlsLdm32
  | 106 => .tlsLdo32
  | 107 => .tlsIe32
  | 108 => .tlsLe32
  | type => .other type

/-! ## Addends in fields -/

/-- The two's complement number in `n + 1` bits. -/
def sext (n v : Nat) : Int := if v < 2 ^ n then v else (v : Int) - 2 ^ (n + 1)

/-- `(s32)(w << 8) >> 6`: the 24-bit field, times 4. -/
def branchAddend (w : Nat) : Int := 4 * sext 23 (w % 16777216)

/-- `(w & 0xff000000) | (v & 0x00ffffff)`. -/
def branchSet (w : Nat) (v : Int) : Nat := w / 16777216 * 16777216 + (v % 16777216).toNat

/-- `(s32)(w << 1) >> 1`. -/
def prel31Addend (w : Nat) : Int := sext 30 (w % 2147483648)

/-- `(w & 0x80000000) | (v & 0x7fffffff)`. -/
def prel31Set (w : Nat) (v : Int) : Nat := w / 2147483648 * 2147483648 + (v % 2147483648).toNat

/-- `movw_addend`: imm4:imm12, signed. -/
def movwAddend (w : Nat) : Int := sext 15 (w / 65536 % 16 * 4096 + w % 4096)

/-- `movw_set`. -/
def movwSet (w v : Nat) : Nat :=
  w / 1048576 * 1048576 + v / 4096 % 16 * 65536 + w / 4096 % 16 * 4096 + v % 4096

/-! ## Group relocations -/

/-- Where the top 8 significant bits of a residual start, at an even shift. -/
def groupShift (res : Nat) : Nat :=
  match [30, 28, 26, 24, 22, 20, 18, 16, 14, 12, 10, 8, 6, 4, 2, 0].find? fun msb =>
    res / 2 ^ msb % 4 ≠ 0 with
  | some msb => msb - 6
  | none => 0

/-- The loop of `group_mask` over `k` groups: the encoding of the last one and the residual. -/
def groupMask : Nat → Nat → Nat → Nat × Nat
  | 0, enc, res => (enc, res)
  | k + 1, _, res =>
    let shift := groupShift res
    let g := res / 2 ^ shift % 256 * 2 ^ shift
    groupMask k (g / 2 ^ shift + (if g ≤ 255 then 0 else (32 - shift) / 2) * 256) (res - g)

/-- `alu_group`. -/
def aluGroup (path : String) (w s p n : Nat) (check : Bool) : Except String Nat :=
  let rot := w / 256 % 16 * 2
  let c := w % 256
  let imm := if rot = 0 then c else c / 2 ^ rot + c * 2 ^ (32 - rot) % 4294967296
  let op := w / 2097152 % 16
  if op ≠ 4 ∧ op ≠ 2 then
    .error (path ++ ": an ALU group relocation on an instruction that is neither ADD nor SUB (" ++
      hex w ++ ")")
  else
    let x := toS (ofS ((s : Int) - p + if op = 2 then -(imm : Int) else imm))
    let r := groupMask (n + 1) 0 x.natAbs
    if check ∧ r.2 ≠ 0 then
      .error (path ++ ": " ++ hex (ofS x) ++ " doesn't split into ALU group G" ++ toString n ++
        " (residual " ++ hex r.2 ++ ")")
    else
      .ok (w / 16777216 * 16777216 + w / 4096 % 512 * 4096 +
        (if x < 0 then 4194304 else 8388608) + r.1)

/-- What a load's offset is for `ldr_group`: imm12, imm4:imm4 or imm8*4. -/
inductive LoadKind
  | ldr
  | ldrs
  | ldc
deriving DecidableEq

def LoadKind.offset : LoadKind → Nat → Nat
  | .ldr, w => w % 4096
  | .ldrs, w => w / 256 % 16 * 16 + w % 16
  | .ldc, w => w % 256 * 4

def LoadKind.limit : LoadKind → Nat
  | .ldr => 4096
  | .ldrs => 256
  | .ldc => 1024

/-- The word with the offset `res` and the U bit `u`. -/
def LoadKind.set (u res w : Nat) : LoadKind → Nat
  | .ldr => w / 16777216 * 16777216 + u + w / 4096 % 2048 * 4096 + res
  | .ldrs => w / 16777216 * 16777216 + u + w / 4096 % 2048 * 4096 + res / 16 % 16 * 256 +
      w / 16 % 16 * 16 + res % 16
  | .ldc => w / 16777216 * 16777216 + u + w / 256 % 32768 * 256 + res / 4

/-- `ldr_group`. -/
def ldrGroup (path : String) (w s p n : Nat) (kind : LoadKind) : Except String Nat :=
  let a := kind.offset w
  let x := toS (ofS ((s : Int) - p + if w / 8388608 % 2 = 1 then (a : Int) else -(a : Int)))
  let res := (groupMask n 0 x.natAbs).2
  if kind.limit ≤ res ∨ kind = .ldc ∧ res % 4 ≠ 0 then
    .error (path ++ ": " ++ hex (ofS x) ++ " doesn't fit a group relocation's G" ++ toString n ++
      " load offset (residual " ++ hex res ++ ")")
  else .ok (kind.set (if 0 ≤ x then 8388608 else 0) res w)

/-! ## Applying and moving -/

/-- The branch case of `md_apply_reloc`. -/
def applyBranch (path : String) (w s p : Nat) : Except String Nat :=
  let a := branchAddend w
  let x := toS (ofS ((s : Int) + a - p))
  let dest := ofS ((s : Int) + a + 8)
  if x < -33554432 ∨ 33554428 < x then
    .error (path ++ ": branch to " ++ hex dest ++ " out of reach (+-32MB) at " ++ hex p ++
      " (and no veneer)")
  else if x % 4 ≠ 0 then
    .error (path ++ ": branch at " ++ hex p ++ " to Thumb code (" ++ hex dest ++
      "): BLX conversion is unsupported")
  else .ok (branchSet w (x / 4))

/-- `md_apply_reloc`: the patched word. -/
def mdApplyReloc (path : String) (gotOrg : Nat) (type : RelType) (w s p : Nat) : Except String Nat :=
  match type with
  | .none | .v4bx => .ok w
  | .abs32 | .target1 => .ok (ofS ((s : Int) + w))
  | .rel32 => .ok (ofS ((s : Int) + w - p))
  | .call | .jump24 => applyBranch path w s p
  | .aluPcG n check => aluGroup path w s p n check
  | .ldrPcG n => ldrGroup path w s p n .ldr
  | .ldrsPcG n => ldrGroup path w s p n .ldrs
  | .ldcPcG n => ldrGroup path w s p n .ldc
  | .movwAbsNc => .ok (movwSet w (ofS ((s : Int) + movwAddend w) % 65536))
  | .movtAbs => .ok (movwSet w (ofS ((s : Int) + movwAddend w) / 65536))
  | .movwPrelNc => .ok (movwSet w (ofS ((s : Int) + movwAddend w - p) % 65536))
  | .movtPrel => .ok (movwSet w (ofS ((s : Int) + movwAddend w - p) / 65536))
  | .tlsLe32 | .tlsLdo32 => .ok (ofS ((s : Int) + w))
  | .tlsGd32 | .tlsLdm32 | .tlsIe32 => .ok (ofS ((s : Int) + w - p))
  | .prel31 => .ok (prel31Set w ((s : Int) + prel31Addend w - p))
  | .gotPrel => .ok (ofS ((s : Int) + w - p))
  | .gotBrel | .gotoff32 => .ok (ofS ((s : Int) + w - gotOrg))
  | .basePrel => .ok (ofS ((gotOrg : Int) + w - p))
  | .other type => .error (path ++ ": unsupported relocation type " ++ toString type)

/-- `md_rel_adjust`: the word whose addend grew by `delta`; nothing where this type's can't. -/
def mdRelAdjust (type : RelType) (w delta : Nat) : Option Nat :=
  match type with
  | .none | .v4bx => some w
  | .abs32 | .target1 | .rel32 | .gotPrel | .gotBrel | .gotoff32
  | .tlsLe32 | .tlsLdo32 | .tlsGd32 | .tlsLdm32 | .tlsIe32 => some (add32 w delta)
  | .prel31 =>
    let n := prel31Addend w + delta
    if n < -1073741824 ∨ 1073741824 ≤ n then none else some (prel31Set w n)
  | .call | .jump24 =>
    let n := branchAddend w + delta
    if n % 4 ≠ 0 ∨ n < -33554432 ∨ 33554432 ≤ n then none else some (branchSet w (n / 4))
  | .movwAbsNc | .movtAbs | .movwPrelNc | .movtPrel =>
    let n := movwAddend w + delta
    if n < -32768 ∨ 32767 < n then none else some (movwSet w (n % 65536).toNat)
  | _ => none

end Embedded.Toolchain.Ld.Reloc
