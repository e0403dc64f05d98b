import Embedded.Lib.CString
import Embedded.Lib.Nor
import Embedded.Lib.Word

/-! # TinyFS (`rtos/fs/tinyfs.c`, `rtos/fs/fs.c`)

A flat file system on NOR flash: sector 0 holds the directory, sector `i + 1` the file of entry `i`. The calls go
through the layer of `fs.c`, which keeps the position of each handle. What the calls are for stands at the end: a
map from names to byte strings. -/

namespace Embedded.Rtos

open List
open Function (update)

open Lib

def FS_MAX_FILES : Nat := 15
def FS_SECTOR_SIZE : Nat := 4096
def FS_MAX_NAME : Nat := 16

/-- `struct dir_entry`, with its padding, which is written to the flash too. -/
structure DirEntry where
  name : List UInt8
  size : Nat
  used : UInt8
  pad : List UInt8
  name_length : name.length = FS_MAX_NAME
  pad_length : pad.length = 3

/-- `struct fs_file`; the field `open` is `isOpen`. -/
structure FsFile where
  index : Nat
  offset : Nat
  isOpen : Bool

/-- The flash, `dir_table` and the handles of the callers. -/
structure Fs (σ : Type) where
  flash : σ
  dirTable : Nat → DirEntry
  files : Nat → FsFile

/-- `struct fs_mount`: a device that has room for the directory and its files. -/
structure FsMount (σ : Type) where
  dev : NorDevice σ FS_SECTOR_SIZE
  fits : (FS_MAX_FILES + 1) * FS_SECTOR_SIZE ≤ dev.size

/-- The bytes of an entry. -/
def DirEntry.bytes (e : DirEntry) : List UInt8 :=
  e.name ++
    [UInt8.ofNat e.size, UInt8.ofNat (e.size / 256), UInt8.ofNat (e.size / 65536), UInt8.ofNat (e.size / 16777216),
      e.used] ++ e.pad

def dirBytes (dirTable : Nat → DirEntry) : List UInt8 :=
  (List.range FS_MAX_FILES).flatMap fun i => (dirTable i).bytes

/-- `sizeof(dir_table)`. -/
def DIR_SIZE : Nat := FS_MAX_FILES * 24

/-- Entry `i` of the bytes read from the flash. -/
def dirEntryAt (bs : List UInt8) (i : Nat) : DirEntry where
  name := (List.range FS_MAX_NAME).map fun k => bs.getD (24 * i + k) 0
  size :=
    (bs.getD (24 * i + 16) 0).toNat + 256 * (bs.getD (24 * i + 17) 0).toNat +
      65536 * (bs.getD (24 * i + 18) 0).toNat + 16777216 * (bs.getD (24 * i + 19) 0).toNat
  used := bs.getD (24 * i + 20) 0
  pad := (List.range 3).map fun k => bs.getD (24 * i + 21 + k) 0
  name_length := by simp
  pad_length := by simp

/-- `strcopy`. -/
def strcopy (dst src : List UInt8) (max : Nat) : List UInt8 :=
  src.take (max - 1) ++ 0 :: dst.drop ((src.take (max - 1)).length + 1)

theorem strcopy_length {dst : List UInt8} (src : List UInt8) (h : dst.length = FS_MAX_NAME) :
    (strcopy dst src FS_MAX_NAME).length = FS_MAX_NAME := by
  unfold strcopy
  simp only [length_append, length_cons, length_drop, length_take, h]
  unfold FS_MAX_NAME
  omega

/-- The entry of a new file. -/
def DirEntry.create (e : DirEntry) (name : CStr) : DirEntry :=
  { e with
    name := strcopy e.name name.bytes FS_MAX_NAME
    size := 0
    used := 1
    name_length := strcopy_length _ e.name_length }

/-- An entry after formatting. -/
def DirEntry.clear (e : DirEntry) : DirEntry :=
  { e with name := e.name.set 0 0, size := 0, used := 0, name_length := by rw [List.length_set, e.name_length] }

section Calls

variable {σ : Type} (M : FsMount σ)

/-- `dir_flush`. -/
def dirFlush (s : Fs σ) : Option (Fs σ) :=
  (M.dev.erase s.flash (0 * FS_SECTOR_SIZE) FS_SECTOR_SIZE).bind fun f =>
    (M.dev.write f (0 * FS_SECTOR_SIZE) (dirBytes s.dirTable)).map fun f => { s with flash := f }

/-- `tinyfs_mount`; no handle is open yet. -/
def tinyfsMount (flash : σ) : Option (Fs σ) :=
  let r := M.dev.read flash 0 DIR_SIZE
  let s : Fs σ := { flash := r.1, dirTable := dirEntryAt r.2, files := fun _ => ⟨0, 0, false⟩ }
  if (s.dirTable 0).used = 0xFF then dirFlush M { s with dirTable := fun i => (s.dirTable i).clear } else some s

/-- The loop over the used entries. -/
def findName (dirTable : Nat → DirEntry) (name : CStr) : Option Nat :=
  (List.range FS_MAX_FILES).find? fun i =>
    (dirTable i).used != 0 && strEq (dirTable i).name name.bytes == some true

/-- The loop over the free entries. -/
def findFree (dirTable : Nat → DirEntry) : Option Nat :=
  (List.range FS_MAX_FILES).find? fun i => (dirTable i).used == 0

/-- `tinyfs_open`: the index of the file, if there is one. -/
def tinyfsOpen (s : Fs σ) (name : CStr) : Option (Fs σ × Option Nat) :=
  match findName s.dirTable name with
  | some i => some (s, some i)
  | none =>
    match findFree s.dirTable with
    | some i =>
      (dirFlush M { s with dirTable := update s.dirTable i ((s.dirTable i).create name) }).bind fun s =>
        (M.dev.erase s.flash ((i + 1) * FS_SECTOR_SIZE) FS_SECTOR_SIZE).map fun f =>
          ({ s with flash := f }, some i)
    | none => some (s, none)

/-- What a call returns, and the bytes that it stores through its pointer. -/
abbrev FsReply := Int × List UInt8

/-- `fs_open`. -/
def fsOpen (s : Fs σ) (h : Nat) (name : CStr) : Option (Fs σ × FsReply) :=
  (tinyfsOpen M { s with files := update s.files h ⟨(s.files h).index, 0, false⟩ } name).map fun r =>
    match r.2 with
    | some i => ({ r.1 with files := update r.1.files h ⟨i, (r.1.files h).offset, true⟩ }, (0, []))
    | none => (r.1, (-1, []))

/-- `tinyfs_write`. -/
def tinyfsWrite (s : Fs σ) (h : Nat) (data : List UInt8) : Option (Fs σ × FsReply) :=
  let fp := s.files h
  if fp.isOpen = false then some (s, (-1, []))
  else
    let data := data.take (sub32 FS_SECTOR_SIZE fp.offset)
    (M.dev.write s.flash ((fp.index + 1) * FS_SECTOR_SIZE + fp.offset) data).bind fun f =>
      let offset := add32 fp.offset data.length
      let s := { s with flash := f, files := update s.files h { fp with offset := offset } }
      if (s.dirTable fp.index).size < offset then
        (dirFlush M { s with
          dirTable := update s.dirTable fp.index { s.dirTable fp.index with size := offset } }).map
          fun s => (s, ((data.length : Int), []))
      else some (s, ((data.length : Int), []))

/-- `tinyfs_read`. -/
def tinyfsRead (s : Fs σ) (h : Nat) (len : Nat) : Fs σ × FsReply :=
  let fp := s.files h
  if fp.isOpen = false then (s, (-1, []))
  else
    let len := min len (sub32 (s.dirTable fp.index).size fp.offset)
    if len = 0 then (s, (0, []))
    else
      let r := M.dev.read s.flash ((fp.index + 1) * FS_SECTOR_SIZE + fp.offset) len
      ({ s with flash := r.1, files := update s.files h { fp with offset := add32 fp.offset len } },
        ((len : Int), r.2))

/-- The calls of `fs.h` on files. -/
inductive FsCall
  | open (h : Nat) (name : CStr)
  | write (h : Nat) (data : List UInt8)
  | rewind (h : Nat)
  | read (h : Nat) (len : Nat)
  | close (h : Nat)

/-- One call; `fs_rewind` and `tinyfs_close` only touch the handle. -/
def fsStep (s : Fs σ) : FsCall → Option (Fs σ × FsReply)
  | .open h name => fsOpen M s h name
  | .write h data => tinyfsWrite M s h data
  | .rewind h => some ({ s with files := update s.files h { s.files h with offset := 0 } }, (0, []))
  | .read h len => some (tinyfsRead M s h len)
  | .close h => some ({ s with files := update s.files h { s.files h with isOpen := false } }, (0, []))

/-- A sequence of calls, with what they return. -/
def fsRun : Fs σ → List FsCall → Option (Fs σ × List FsReply)
  | s, [] => some (s, [])
  | s, c :: cs => (fsStep M s c).bind fun r => (fsRun r.1 cs).map fun r' => (r'.1, r.2 :: r'.2)

end Calls

/-! ## The map from names to byte strings -/

/-- The files there are, their bytes, and for each open handle its file and position. -/
structure NameMap where
  names : List CStr
  content : CStr → List UInt8
  files : Nat → Option (CStr × Nat)

/-- `old` with `d` in place of what was at `off`. -/
def overwrite (old : List UInt8) (off : Nat) (d : List UInt8) : List UInt8 :=
  old.take off ++ d ++ old.drop (off + d.length)

namespace NameMap

def empty : NameMap := ⟨[], fun _ => [], fun _ => none⟩

/-- A call on the map. There are at most 15 files of at most 4096 bytes. -/
def step (a : NameMap) : FsCall → NameMap × FsReply
  | .open h name =>
    if name ∈ a.names then ({ a with files := update a.files h (some (name, 0)) }, (0, []))
    else if a.names.length < FS_MAX_FILES then
      ({ names := a.names ++ [name], content := update a.content name [],
         files := update a.files h (some (name, 0)) }, (0, []))
    else ({ a with files := update a.files h none }, (-1, []))
  | .write h data =>
    match a.files h with
    | none => (a, (-1, []))
    | some (name, off) =>
      let d := data.take (FS_SECTOR_SIZE - off)
      ({ a with
         content := update a.content name (overwrite (a.content name) off d)
         files := update a.files h (some (name, off + d.length)) }, ((d.length : Int), []))
  | .rewind h => ({ a with files := update a.files h ((a.files h).map fun p => (p.1, 0)) }, (0, []))
  | .read h len =>
    match a.files h with
    | none => (a, (-1, []))
    | some (name, off) =>
      let d := ((a.content name).drop off).take len
      ({ a with files := update a.files h (some (name, off + d.length)) }, ((d.length : Int), d))
  | .close h => ({ a with files := update a.files h none }, (0, []))

/-- The replies to a sequence of calls. -/
def run : NameMap → List FsCall → List FsReply
  | _, [] => []
  | a, c :: cs => (a.step c).2 :: run (a.step c).1 cs

/-- The bytes only clear bits of those that they replace. -/
def Clears (old data : List UInt8) : Prop := ∀ p ∈ old.zip data, p.1 &&& p.2 = p.2

instance (old data : List UInt8) : Decidable (Clears old data) :=
  List.decidableBAll (fun p : UInt8 × UInt8 => p.1 &&& p.2 = p.2) (old.zip data)

/-- A name that an entry can hold, and data that flash can take without an erase. -/
def Fits (a : NameMap) : FsCall → Prop
  | .open _ name => name.bytes.length < FS_MAX_NAME
  | .write h data => ∀ p ∈ a.files h, Clears ((a.content p.1).drop p.2) data
  | _ => True

end NameMap

end Embedded.Rtos
