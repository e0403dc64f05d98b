import Embedded.Lib.Run

/-! # The simulated W25Q128 flash (`sim/src/devices/w25q128.c`)

The command machine of the chip, one byte of the bus at a time. `now` is the cycle count that the chip reads
through `cycle_count_ptr`; memory is a function of the address, with addresses from 0 to the size. -/

namespace Embedded.Sim

def W25Q128_SIZE : Nat := 16777216
def W25Q128_PAGE_SIZE : Nat := 256
def W25Q128_SECTOR_SIZE : Nat := 4096

inductive W25qState
  | idle
  | readAddr
  | readData
  | fastReadAddr
  | fastReadDummy
  | fastReadData
  | programAddr
  | programData
  | eraseAddr
  | jedecId
  | readStatus
deriving DecidableEq

/-- `struct w25q128`; the bits of `status` are `busy` and `wel`, and `pageBuf` holds `page_len` bytes. -/
structure W25q where
  data : Nat → UInt8
  state : W25qState
  addr : Nat
  addrBytes : Nat
  busy : Bool
  wel : Bool
  cmd : UInt8
  jedecIdx : Nat
  pageBuf : List UInt8
  pageAddr : Nat
  busyUntil : Nat

namespace W25q

/-- `is_busy`: the flag is cleared when its time has come. -/
def refresh (d : W25q) (now : Nat) : W25q := if d.busy && d.busyUntil ≤ now then { d with busy := false } else d

/-- The bytes that a program cycle ANDs into its page. -/
def program (data : Nat → UInt8) (base offset : Nat) : List UInt8 → Nat → UInt8
  | [] => data
  | b :: bs =>
    let a := base + offset % W25Q128_PAGE_SIZE
    program (if a < W25Q128_SIZE then Function.update data a (data a &&& b) else data) base (offset + 1) bs

/-- `commit_page_program`. -/
def commitPageProgram (d : W25q) (now : Nat) : W25q :=
  if d.pageBuf = [] then d
  else
    { d with
      data := program d.data (d.pageAddr - d.pageAddr % W25Q128_PAGE_SIZE) (d.pageAddr % W25Q128_PAGE_SIZE) d.pageBuf
      wel := false
      busyUntil := now + 11200
      busy := true
      pageBuf := [] }

/-- `commit_sector_erase`. -/
def commitSectorErase (d : W25q) (now : Nat) : W25q :=
  let base := d.addr - d.addr % W25Q128_SECTOR_SIZE
  { d with
    data :=
      if base + W25Q128_SECTOR_SIZE ≤ W25Q128_SIZE then
        fun a => if base ≤ a ∧ a < base + W25Q128_SECTOR_SIZE then 0xFF else d.data a
      else d.data
    wel := false
    busyUntil := now + 720000
    busy := true }

/-- `w25q128_cs_deassert`. -/
def csDeassert (d : W25q) (now : Nat) : W25q :=
  { (if d.state = .programData then d.commitPageProgram now else d) with state := .idle }

/-- A new command. -/
def command (d : W25q) (byte : UInt8) : W25q :=
  let d := { d with cmd := byte, addr := 0, addrBytes := 0 }
  if byte = 0x9F then { d with state := .jedecId, jedecIdx := 0 }
  else if byte = 0x05 then { d with state := .readStatus }
  else if byte = 0x06 then { d with wel := true }
  else if byte = 0x04 then { d with wel := false }
  else if byte = 0x03 then { d with state := .readAddr }
  else if byte = 0x0B then { d with state := .fastReadAddr }
  else if byte = 0x02 then if d.wel then { d with state := .programAddr } else d
  else if byte = 0x20 then if d.wel then { d with state := .eraseAddr } else d
  else d

/-- One more byte of an address. -/
def addrByte (d : W25q) (byte : UInt8) : W25q :=
  { d with addr := (d.addr * 256 + byte.toNat) % 4294967296, addrBytes := d.addrBytes + 1 }

/-- A byte of the memory on the bus. -/
def readByte (d : W25q) : W25q × UInt8 :=
  ({ d with addr := (d.addr + 1) % 4294967296 }, if d.addr < W25Q128_SIZE then d.data d.addr else 0xFF)

def statusByte (d : W25q) : UInt8 := (if d.busy then 1 else 0) + (if d.wel then 2 else 0)

/-- `w25q128_transfer`. -/
def transfer (d : W25q) (now : Nat) (byte : UInt8) : W25q × UInt8 :=
  let d := d.refresh now
  if d.busy = true ∧ d.state ≠ .readStatus then
    (if d.state = .idle ∧ byte = 0x05 then { d with state := .readStatus } else d, 0xFF)
  else
    match d.state with
    | .idle => (d.command byte, 0xFF)
    | .jedecId =>
      let r : UInt8 :=
        if d.jedecIdx = 0 then 0xEF else if d.jedecIdx = 1 then 0x40 else if d.jedecIdx = 2 then 0x18 else 0
      ({ d with jedecIdx := d.jedecIdx + 1 }, r)
    | .readStatus => (d, d.statusByte)
    | .readAddr =>
      let d := d.addrByte byte
      (if d.addrBytes = 3 then { d with state := .readData } else d, 0xFF)
    | .readData => d.readByte
    | .fastReadAddr =>
      let d := d.addrByte byte
      (if d.addrBytes = 3 then { d with state := .fastReadDummy } else d, 0xFF)
    | .fastReadDummy => ({ d with state := .fastReadData }, 0xFF)
    | .fastReadData => d.readByte
    | .programAddr =>
      let d := d.addrByte byte
      (if d.addrBytes = 3 then { d with state := .programData, pageAddr := d.addr, pageBuf := [] } else d, 0xFF)
    | .programData =>
      (if d.pageBuf.length < W25Q128_PAGE_SIZE then { d with pageBuf := d.pageBuf ++ [byte] } else d, 0xFF)
    | .eraseAddr =>
      let d := d.addrByte byte
      (if d.addrBytes = 3 then { d.commitSectorErase now with state := .idle } else d, 0xFF)

/-- A byte on the bus, or the end of a command. -/
inductive BusOp
  | transfer (now : Nat) (byte : UInt8)
  | csDeassert (now : Nat)

def busStep (d : W25q) : BusOp → W25q
  | .transfer now byte => (d.transfer now byte).1
  | .csDeassert now => d.csDeassert now

/-- Only with the latch set does the chip take in what it will program or erase. -/
def Latched (d : W25q) : Prop :=
  d.state = .programAddr ∨ d.state = .programData ∨ d.state = .eraseAddr → d.wel = true

theorem command_latched {d : W25q} (h : d.state = .idle) (byte : UInt8) :
    (d.command byte).Latched ∧ (d.command byte).data = d.data := by
  unfold Latched command
  grind

theorem busStep_latched {d : W25q} (h : d.Latched) (op : BusOp) : (d.busStep op).Latched ∧
    ((d.busStep op).data ≠ d.data → d.wel = true ∧ (d.busStep op).wel = false ∧ (d.busStep op).busy = true) := by
  have hcommand := @command_latched
  unfold Latched at *
  cases op with
  | transfer now byte =>
    have hr : (d.refresh now).wel = d.wel ∧ (d.refresh now).state = d.state ∧
        (d.refresh now).data = d.data := by grind [refresh]
    simp only [busStep, transfer]
    generalize d.refresh now = r at hr
    split
    · grind
    split <;> grind [addrByte, readByte, commitSectorErase]
  | csDeassert now => grind [busStep, csDeassert, commitPageProgram]

/-- **Write protection**: whatever bytes were on the bus, memory changes only while the write enable latch is
set, and then the latch is clear and the chip busy. -/
theorem data_changes_latched {d : W25q}
    (h : Reachable busStep (fun _ _ => True) (fun d => d.state = .idle) d) (op : BusOp)
    (hd : (d.busStep op).data ≠ d.data) :
    d.wel = true ∧ (d.busStep op).wel = false ∧ (d.busStep op).busy = true := by
  have hl : d.Latched := h.invariant (I := Latched) (fun d hd => by simp [Latched, hd])
    fun d op _ hl => (busStep_latched hl op).1
  exact (busStep_latched hl op).2 hd

/-- The last byte of an erase command. -/
theorem data_changes_latched_erase :
    let d := runFrom busStep ⟨fun _ => 0, .idle, 0, 0, false, false, 0, 0, [], 0, 0⟩
      [.transfer 0 6, .transfer 0 0x20, .transfer 0 0, .transfer 0 0]
    d.wel = true ∧ (d.busStep (.transfer 0 0)).wel = false := by
  intro d
  have h : Reachable busStep (fun _ _ => True) (fun d => d.state = .idle) d :=
    .runFrom (.init (by rfl)) _ (by repeat' constructor)
  have hd := data_changes_latched h (.transfer 0 0) fun h => absurd (congrFun h 0) (by decide +kernel)
  exact ⟨hd.1, hd.2.1⟩

end W25q

end Embedded.Sim
