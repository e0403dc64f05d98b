import Embedded.Kernel.Trap

/-! # The newc archive format, from the writer's side

`newc es` is the archive `cpio -H newc` writes for the entries `es`: for each a header of the magic
and thirteen fields of eight hexadecimal digits, the name with its NUL, and the data, the last two
padded to four bytes; then the trailer. -/

namespace Embedded.Kernel

/-- A hexadecimal digit, as `cpio` prints it. -/
def hexChar (d : Nat) : UInt8 := if d < 10 then UInt8.ofNat (48 + d) else UInt8.ofNat (55 + d)

/-- A header field. -/
def hexField (v : Nat) : Bytes := (List.range 8).map fun i => hexChar (v / 16 ^ (7 - i) % 16)

/-- The padding after `n` bytes. -/
def padding (n : Nat) : Bytes := List.replicate ((4 - n % 4) % 4) 0

/-- An archive member, with the header fields that `cpio_load` does not look at. -/
structure NewcEntry extends CpioEntry where
  ino : Nat := 0
  uid : Nat := 0
  gid : Nat := 0
  nlink : Nat := 1
  mtime : Nat := 0
  devMajor : Nat := 0
  devMinor : Nat := 0
  check : Nat := 0

/-- The header fields, in order. -/
def NewcEntry.fields (e : NewcEntry) : List Nat :=
  [e.ino, e.mode, e.uid, e.gid, e.nlink, e.mtime, e.data.length, e.devMajor, e.devMinor, e.rmaj,
    e.rmin, e.name.length + 1, e.check]

/-- The header and the name, padded. -/
def NewcEntry.head (e : NewcEntry) : Bytes :=
  let h := cpioMagic ++ e.fields.flatMap hexField ++ e.name ++ [0]
  h ++ padding h.length

/-- The bytes of a member. -/
def NewcEntry.encode (e : NewcEntry) : Bytes := e.head ++ e.data ++ padding e.data.length

/-- The member that ends an archive. -/
def trailer : NewcEntry := { mode := 0, rmaj := 0, rmin := 0, name := cpioTrailer, data := [] }

/-- The archive of a list of members. -/
def newc (es : List NewcEntry) : Bytes := es.flatMap NewcEntry.encode ++ trailer.encode

/-! ## A small system

An initramfs that holds a static `/init` of one page at `0x10000`, and a machine of 448 KB that boots
it: the runs below start from here. -/

/-- A little-endian halfword. -/
def le16 (v : Nat) : Bytes := [UInt8.ofNat v, UInt8.ofNat (v / 256)]

/-- A little-endian word. -/
def le32 (v : Nat) : Bytes := le16 v ++ le16 (v / 65536)

/-- An executable with one segment without file bytes. -/
def tinyElf : Bytes :=
  [0x7F, 0x45, 0x4C, 0x46, 1, 1, 1, 0, 0, 0, 0, 0, 0, 0, 0, 0] ++ le16 2 ++ le16 40 ++ le32 1
    ++ le32 0x10000 ++ le32 52 ++ le32 0 ++ le32 0 ++ le16 52 ++ le16 32 ++ le16 1
    ++ le16 0 ++ le16 0 ++ le16 0
    ++ le32 1 ++ le32 0 ++ le32 0x10000 ++ le32 0x10000 ++ le32 0 ++ le32 0x1000 ++ le32 5
    ++ le32 0x1000

/-- The file `init`. -/
def tinyInit : NewcEntry :=
  { mode := 0o100755, rmaj := 0, rmin := 0, name := [105, 110, 105, 116], data := tinyElf }

/-- The machine. -/
def tinyBoot : Boot where
  mem _ := 0
  freeStart := 0x40010000
  ramTop := 0x40080000
  dtb := none
  initrdBase := 0x40080000
  initrdSize := (newc [tinyInit]).length
  scratch := 0
  archive := newc [tinyInit]
  archiveSize := (newc [tinyInit]).length
  heap := (List.range 60).map fun i => ⟨i + 1, 0⟩
  fuel := 10
  freeStart_pos := by decide
  freeStart_le := by decide
  ramTop_le := by decide
  archive_le := by decide +kernel

/-- The state in which it enters `/init`. -/
theorem tinyBoot_isSome : (boot tinyBoot).isSome = true := by decide +kernel

def tiny : KState := (boot tinyBoot).get tinyBoot_isSome

theorem tiny_booted : Booted tiny := ⟨tinyBoot, (Option.some_get tinyBoot_isSome).symm⟩

end Embedded.Kernel
