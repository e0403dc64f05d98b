import Embedded.Lib.Nor
import Embedded.Sim.W25q128

/-! # The NOR flash driver on the simulated chip (`rtos/drivers/flash/flash_w25q.c`)

The driver's operations as exchanges of bytes with the chip model. The CPU counts cycles meanwhile: a byte takes
at least one, and `gap` says how many more. -/

namespace Embedded.Rtos

open Lib Sim W25q
open List

variable {d : W25q} {w : World} {offset : Nat}

/-- The chip and the cycle counter. -/
structure World where
  chip : W25q
  now : Nat

section Driver

variable (gap : Nat → Nat)

/-- The cycle count after a byte. -/
def afterByte (now : Nat) : Nat := now + gap now + 1

/-- One byte in each direction. -/
def xfer (w : World) (tx : UInt8) : World × UInt8 :=
  ({ chip := (w.chip.transfer w.now tx).1, now := afterByte gap w.now }, (w.chip.transfer w.now tx).2)

/-- `spi_write`. -/
def spiWrite (w : World) (tx : List UInt8) : World := tx.foldl (fun w b => (xfer gap w b).1) w

/-- `spi_read`. -/
def spiRead (w : World) : Nat → World × List UInt8
  | 0 => (w, [])
  | n + 1 =>
    let r := xfer gap w 0xFF
    let s := spiRead r.1 n
    (s.1, r.2 :: s.2)

/-- `spi_cs_release`; `spi_cs_select` does nothing to the chip. -/
def spiCsRelease (w : World) : World := { w with chip := w.chip.csDeassert w.now }

/-- `w25q_write_enable`. -/
def w25qWriteEnable (w : World) : World := spiCsRelease (spiWrite gap w [0x06])

/-- The loop of `w25q_wait_busy`. -/
def pollBusy : Nat → World → Option World
  | 0, _ => none
  | fuel + 1, w =>
    let r := xfer gap w 0xFF
    if r.2 &&& 1 ≠ 0 then pollBusy fuel r.1 else some r.1

/-- `w25q_wait_busy`: the time until the chip is ready bounds the loop. -/
def w25qWaitBusy (w : World) : Option World :=
  (pollBusy gap (w.chip.busyUntil + 1) (spiWrite gap w [0x05])).map spiCsRelease

/-- `w25q_cmd_addr`. -/
def w25qCmdAddr (w : World) (cmd : UInt8) (addr : Nat) : World :=
  spiWrite gap w [cmd, UInt8.ofNat (addr / 65536), UInt8.ofNat (addr / 256), UInt8.ofNat addr]

/-- `flash_nor_read`. -/
def flashNorRead (w : World) (offset len : Nat) : World × List UInt8 :=
  let r := spiRead gap (w25qCmdAddr gap w 0x03 offset) len
  (spiCsRelease r.1, r.2)

/-- One page of `flash_nor_write`. -/
def programPage (w : World) (offset : Nat) (chunk : List UInt8) : Option World :=
  let w := w25qCmdAddr gap (w25qWriteEnable gap w) 0x02 offset
  w25qWaitBusy gap (spiCsRelease (spiWrite gap w chunk))

/-- The loop of `flash_nor_write`; an iteration writes at least one byte. -/
def writeLoop : Nat → World → Nat → List UInt8 → Option World
  | 0, w, _, _ => some w
  | fuel + 1, w, offset, src =>
    if src = [] then some w
    else
      let chunk := min src.length (256 - offset % 256)
      (programPage gap w offset (src.take chunk)).bind fun w =>
        writeLoop fuel w (offset + chunk) (src.drop chunk)

/-- `flash_nor_write`. -/
def flashNorWrite (w : World) (offset : Nat) (buf : List UInt8) : Option World :=
  writeLoop gap buf.length w offset buf

/-- One sector of `flash_nor_erase`. -/
def eraseSector (w : World) (offset : Nat) : Option World :=
  w25qWaitBusy gap (spiCsRelease (w25qCmdAddr gap (w25qWriteEnable gap w) 0x20 offset))

/-- The loop of `flash_nor_erase`. -/
def eraseLoop : Nat → World → Nat → Nat → Option World
  | 0, w, _, _ => some w
  | fuel + 1, w, offset, size =>
    if size = 0 then some w
    else (eraseSector gap w offset).bind fun w => eraseLoop fuel w (offset + 4096) (size - 4096)

/-- `flash_nor_erase`. -/
def flashNorErase (w : World) (offset size : Nat) : Option World := eraseLoop gap size w offset size

/-! ## Commands -/

/-- Between two operations of the driver: no command and no cycle under way. -/
structure Idle (w : World) : Prop where
  state : w.chip.state = .idle
  busy : w.chip.busy = false

theorem lt_afterByte (c : Nat) : c < afterByte gap c := by unfold afterByte; omega

variable {gap}

theorem refresh_of_not_busy (h : d.busy = false) (now : Nat) : d.refresh now = d := by
  simp [refresh, h]

theorem addr_bytes (a : Nat) :
    ((a / 65536 % 256 % 4294967296 * 256 + a / 256 % 256) % 4294967296 * 256 + a % 256) % 4294967296 =
      a % W25Q128_SIZE := by
  unfold W25Q128_SIZE
  omega

@[simp] theorem spiWrite_nil (w : World) : spiWrite gap w [] = w := rfl

@[simp] theorem spiWrite_cons (w : World) (b : UInt8) (bs : List UInt8) :
    spiWrite gap w (b :: bs) = spiWrite gap (xfer gap w b).1 bs := rfl

theorem writeEnable_spec (h : Idle w) :
    Idle (w25qWriteEnable gap w) ∧ (w25qWriteEnable gap w).chip.wel = true ∧
      (w25qWriteEnable gap w).chip.data = w.chip.data := by
  obtain ⟨hs, hb⟩ := h
  have hx : (xfer gap w 0x06).1.chip = { w.chip with cmd := 0x06, addr := 0, addrBytes := 0, wel := true } := by
    simp [xfer, transfer, refresh_of_not_busy hb, hb, hs, command]
  have hc : (w25qWriteEnable gap w).chip =
      { w.chip with cmd := 0x06, addr := 0, addrBytes := 0, wel := true, state := .idle } := by
    rw [w25qWriteEnable, spiWrite_cons, spiWrite_nil, spiCsRelease]
    simp [csDeassert, hx, hs]
  rw [hc]
  exact ⟨⟨by rw [hc], by rw [hc]; exact hb⟩, rfl, rfl⟩

theorem readCmd_chip {w : World} (h : Idle w) (a : Nat) : (w25qCmdAddr gap w 0x03 a).chip =
      { w.chip with cmd := 0x03, addr := a % W25Q128_SIZE, addrBytes := 3, state := .readData } := by
  obtain ⟨hs, hb⟩ := h
  simp [w25qCmdAddr, xfer, transfer, refresh, hb, hs, command, addrByte]
  exact addr_bytes a

section

variable {w : World} (h : Idle w) (hw : w.chip.wel = true) {a : Nat} (ha : a < W25Q128_SIZE)
include h hw ha

/-- The program command, after a write enable, leaves the chip waiting for the bytes of a page. -/
theorem programCmd_chip : (w25qCmdAddr gap w 0x02 a).chip = { w.chip with
        cmd := 0x02, addr := a, addrBytes := 3, state := .programData, pageAddr := a, pageBuf := [] } := by
  obtain ⟨hs, hb⟩ := h
  simp [w25qCmdAddr, xfer, transfer, refresh, hb, hs, hw, command, addrByte, addr_bytes, Nat.mod_eq_of_lt ha]

/-- The erase command, after a write enable, starts with its last address byte. -/
theorem eraseCmd_chip : (w25qCmdAddr gap w 0x20 a).chip =
      { W25q.commitSectorErase { w.chip with cmd := 0x20, addr := a, addrBytes := 3, state := .eraseAddr }
          (afterByte gap (afterByte gap (afterByte gap w.now))) with state := .idle } := by
  obtain ⟨hs, hb⟩ := h
  simp [w25qCmdAddr, xfer, transfer, refresh, hb, hs, hw, command, addrByte, addr_bytes, Nat.mod_eq_of_lt ha]

end

/-! ## Waiting for the chip -/

theorem statusByte_busy (d : W25q) : d.statusByte &&& 1 ≠ 0 ↔ d.busy = true := by
  unfold statusByte
  cases d.busy <;> cases d.wel <;> decide

theorem refresh_data (d : W25q) (now : Nat) : (d.refresh now).data = d.data := by
  unfold refresh
  split <;> rfl

theorem refresh_state (d : W25q) (now : Nat) : (d.refresh now).state = d.state := by
  unfold refresh
  split <;> rfl

theorem refresh_busyUntil (d : W25q) (now : Nat) : (d.refresh now).busyUntil = d.busyUntil := by
  unfold refresh
  split <;> rfl

/-- A status read: the flag is what the time makes of it. -/
theorem transfer_readStatus (hs : d.state = .readStatus) (now : Nat) (b : UInt8) :
    d.transfer now b = (d.refresh now, (d.refresh now).statusByte) := by
  have hs' : (d.refresh now).state = .readStatus := by rw [refresh_state, hs]
  simp [transfer, hs']

/-- The status command is taken whether or not the chip is busy. -/
theorem transfer_statusCmd (hs : d.state = .idle) (now : Nat) :
    (d.transfer now 0x05).1.state = .readStatus ∧ (d.transfer now 0x05).1.data = d.data ∧
      (d.transfer now 0x05).1.busyUntil = d.busyUntil := by
  have hs' : (d.refresh now).state = .idle := by rw [refresh_state, hs]
  by_cases hb : (d.refresh now).busy = true
  · simp [transfer, hs', hb, refresh_data, refresh_busyUntil]
  · simp [transfer, hs', hb, command, refresh_data, refresh_busyUntil]

theorem refresh_ready {now : Nat} (h : d.busyUntil ≤ now) : (d.refresh now).busy = false := by
  unfold refresh
  cases hb : d.busy
  · simp [hb]
  · simp [h]

theorem pollBusy_succ (hs : w.chip.state = .readStatus) (fuel : Nat) : pollBusy gap (fuel + 1) w =
      if (w.chip.refresh w.now).busy = true then pollBusy gap fuel ⟨w.chip.refresh w.now, afterByte gap w.now⟩
      else some ⟨w.chip.refresh w.now, afterByte gap w.now⟩ := by
  have hx : xfer gap w 0xFF = (⟨w.chip.refresh w.now, afterByte gap w.now⟩, (w.chip.refresh w.now).statusByte) := by
    rw [xfer, transfer_readStatus hs]
  rw [pollBusy, hx]
  exact if_congr (statusByte_busy _) rfl rfl

/-- When every byte takes time, polling ends, and only when the chip is ready. -/
theorem pollBusy_spec {fuel : Nat} {w : World} (hs : w.chip.state = .readStatus)
    (hf : w.chip.busyUntil ≤ w.now + fuel) :
    ∃ w', pollBusy gap (fuel + 1) w = some w' ∧ w'.chip.state = .readStatus ∧ w'.chip.busy = false ∧
      w'.chip.data = w.chip.data := by
  induction fuel generalizing w with
  | zero =>
    have hr : (w.chip.refresh w.now).busy = false := refresh_ready hf
    exact ⟨_, by rw [pollBusy_succ hs, hr, if_neg (by simp)], (refresh_state _ _).trans hs, hr, refresh_data _ _⟩
  | succ fuel ih => ?_
  rw [pollBusy_succ hs]
  split
  case isTrue _ =>
    obtain ⟨w', hp, hs', hb', hd⟩ := @ih ⟨w.chip.refresh w.now, afterByte gap w.now⟩
      ((refresh_state _ _).trans hs) (by have := lt_afterByte gap w.now; rw [refresh_busyUntil]; show _ ≤ afterByte gap w.now + fuel; omega)
    exact ⟨w', hp, hs', hb', hd.trans (refresh_data _ _)⟩
  case isFalse hb =>
  exact ⟨_, rfl, (refresh_state _ _).trans hs, by simpa using hb, refresh_data _ _⟩

/-- **Waiting returns, with the chip idle and its memory as it was.** -/
theorem waitBusy_spec {w : World} (hs : w.chip.state = .idle) :
    ∃ w', w25qWaitBusy gap w = some w' ∧ Idle w' ∧ w'.chip.data = w.chip.data := by
  obtain ⟨hs1, hd1, hu1⟩ := transfer_statusCmd hs w.now
  obtain ⟨w', hp, hs', hb', hd'⟩ := @pollBusy_spec _ w.chip.busyUntil (xfer gap w 0x05).1 hs1
    (by rw [xfer, hu1]; omega)
  refine ⟨spiCsRelease w', ?_, ⟨rfl, ?_⟩, ?_⟩
  · rw [w25qWaitBusy, spiWrite_cons, spiWrite_nil, hp, Option.map_some]
  · simp [spiCsRelease, csDeassert, hs', hb']
  simp [spiCsRelease, csDeassert, hs', hd', xfer, hd1]

/-! ## Reading -/

/-- The bytes on the bus are those of the memory. -/
theorem spiRead_spec {n : Nat} (hs : w.chip.state = .readData) (hb : w.chip.busy = false)
    (hn : w.chip.addr + n ≤ W25Q128_SIZE) :
    (spiRead gap w n).2 = Nor.read w.chip.data w.chip.addr n ∧ (spiRead gap w n).1.chip.state = .readData ∧
      (spiRead gap w n).1.chip.busy = false ∧ (spiRead gap w n).1.chip.data = w.chip.data := by
  induction n generalizing w with
  | zero => exact ⟨rfl, hs, hb, rfl⟩
  | succ n ih => ?_
  have ha : w.chip.addr < W25Q128_SIZE := by omega
  have hx : (w.chip.transfer w.now 0xFF) = ({ w.chip with addr := w.chip.addr + 1 }, w.chip.data w.chip.addr) := by
    have hlt : (w.chip.addr + 1) % 4294967296 = w.chip.addr + 1 := by
      unfold W25Q128_SIZE at ha
      omega
    simp [transfer, refresh_of_not_busy hb, hb, hs, readByte, ha, hlt]
  obtain ⟨h1, h2, h3, h4⟩ := @ih (xfer gap w 0xFF).1 (by rw [xfer, hx]; exact hs) (by rw [xfer, hx]; exact hb)
    (by rw [xfer, hx]; show w.chip.addr + 1 + n ≤ _; omega)
  refine ⟨?_, h2, h3, ?_⟩
  · rw [spiRead, Nor.read_succ]
    simp only [h1]
    rw [xfer, hx]
  rw [spiRead]
  simp only [h4]
  rw [xfer, hx]

theorem flashNorRead_spec (h : Idle w) {len : Nat} (hl : offset + len ≤ W25Q128_SIZE) :
    (flashNorRead gap w offset len).2 = Nor.read w.chip.data offset len ∧
      Idle (flashNorRead gap w offset len).1 ∧ (flashNorRead gap w offset len).1.chip.data = w.chip.data := by
  have hc := @readCmd_chip gap w h offset
  have hm : offset % W25Q128_SIZE + len ≤ W25Q128_SIZE := Nat.le_trans (Nat.add_le_add_right (Nat.mod_le _ _) _) hl
  obtain ⟨h1, h2, h3, h4⟩ := spiRead_spec (by rw [hc]) (by rw [hc]; exact h.busy) (by rw [hc]; exact hm)
  have hr : Nor.read w.chip.data (offset % W25Q128_SIZE) len = Nor.read w.chip.data offset len := by
    rcases Nat.eq_zero_or_pos len with rfl | hpos
    · rfl
    rw [Nat.mod_eq_of_lt (by omega)]
  rw [hc] at h1 h4
  refine ⟨h1.trans hr, ⟨rfl, ?_⟩, ?_⟩
  · simp [flashNorRead, spiCsRelease, csDeassert, h2, h3]
  · simp [flashNorRead, spiCsRelease, csDeassert, h2, h4]

/-! ## Writing -/

/-- Inside a page the AND of the chip is that of the memory. -/
theorem program_eq (m : Nor) {base : Nat} {bs : List UInt8} (hp : offset + bs.length ≤ W25Q128_PAGE_SIZE)
    (hs : base + W25Q128_PAGE_SIZE ≤ W25Q128_SIZE) : W25q.program m base offset bs = m.program (base + offset) bs := by
  induction bs generalizing m offset with
  | nil => simp [program]
  | cons b bs ih => ?_
  rw [length_cons] at hp
  have hlt : offset < W25Q128_PAGE_SIZE := by omega
  have hone : Function.update m (base + offset) (m (base + offset) &&& b) = m.program (base + offset) [b] := by
    funext a
    by_cases ha : a = base + offset
    · subst ha
      simp [Nor.program]
    rw [Function.update_of_ne ha, Nor.program, if_neg (by rw [length_singleton]; omega)]
  rw [program, Nat.mod_eq_of_lt hlt, if_pos (by omega), ih _ (by omega), hone, ← Nat.add_assoc]
  exact (Nor.program_append m (base + offset) [b] bs).symm

/-- The bytes of a page wait in the buffer. -/
theorem spiWrite_programData {bs : List UInt8} {w : World} (hs : w.chip.state = .programData)
    (hb : w.chip.busy = false) (hl : w.chip.pageBuf.length + bs.length ≤ W25Q128_PAGE_SIZE) :
    (spiWrite gap w bs).chip = { w.chip with pageBuf := w.chip.pageBuf ++ bs } := by
  induction bs generalizing w with
  | nil => simp
  | cons b bs ih => ?_
  rw [length_cons] at hl
  have hx : (xfer gap w b).1.chip = { w.chip with pageBuf := w.chip.pageBuf ++ [b] } := by
    have hlt : w.chip.pageBuf.length < W25Q128_PAGE_SIZE := by omega
    simp [xfer, transfer, refresh_of_not_busy hb, hb, hs, hlt]
  rw [spiWrite_cons, ih (by rw [hx]; exact hs) (by rw [hx]; exact hb) (by rw [hx]; simp; omega), hx]
  simp

/-- **A page**: the bytes are ANDed in where they belong, and nothing else changes. -/
theorem programPage_spec {w : World} (h : Idle w) {offset : Nat} {bs : List UInt8}
    (hne : bs ≠ []) (hp : offset % W25Q128_PAGE_SIZE + bs.length ≤ W25Q128_PAGE_SIZE)
    (hl : offset < W25Q128_SIZE) :
    ∃ w', programPage gap w offset bs = some w' ∧ Idle w' ∧ w'.chip.data = Nor.program w.chip.data offset bs := by
  obtain ⟨hi, hw, hd⟩ := writeEnable_spec h
  have hc := @programCmd_chip gap _ hi hw offset hl
  have hb := @spiWrite_programData gap bs (w25qCmdAddr gap (w25qWriteEnable gap w) 0x02 offset) (by rw [hc])
    (by rw [hc]; exact hi.busy) (by rw [hc, length_nil, Nat.zero_add]; omega)
  rw [hc] at hb
  obtain ⟨w', hs, hi', hd'⟩ := @waitBusy_spec gap
    (spiCsRelease (spiWrite gap (w25qCmdAddr gap (w25qWriteEnable gap w) 0x02 offset) bs)) rfl
  refine ⟨w', hs, hi', hd'.trans ?_⟩
  have hbase : offset - offset % W25Q128_PAGE_SIZE + W25Q128_PAGE_SIZE ≤ W25Q128_SIZE := by
    unfold W25Q128_PAGE_SIZE W25Q128_SIZE at *
    omega
  rw [spiCsRelease, csDeassert, hb]
  simp only [if_pos, commitPageProgram, nil_append, if_neg hne, hd]
  rw [program_eq _ hp hbase, Nat.sub_add_cancel (Nat.mod_le _ _)]

/-- **Writing** ANDs the bytes into exactly the written range. -/
theorem writeLoop_spec {fuel : Nat} {w : World} (h : Idle w) {offset : Nat}
    {src : List UInt8} (hf : src.length ≤ fuel) (hl : offset + src.length ≤ W25Q128_SIZE) :
    ∃ w', writeLoop gap fuel w offset src = some w' ∧ Idle w' ∧
      w'.chip.data = Nor.program w.chip.data offset src := by
  induction fuel generalizing w offset src with
  | zero =>
    have hsrc : src = [] := eq_nil_of_length_eq_zero (by omega)
    exact ⟨w, rfl, h, by rw [hsrc, Nor.program_nil]⟩
  | succ fuel ih => ?_
  rw [writeLoop]
  by_cases hsrc : src = []
  · exact ⟨w, by rw [if_pos hsrc], h, by rw [hsrc, Nor.program_nil]⟩
  rw [if_neg hsrc]
  have hpos : 0 < src.length := length_pos_iff.2 hsrc
  -- the chunk ends with the page or with the data, so it never wraps round the page
  generalize hk : min src.length (256 - offset % 256) = chunk
  have htake : (src.take chunk).length = chunk := by rw [length_take]; omega
  obtain ⟨w1, h1, hi1, hd1⟩ := @programPage_spec gap w h offset (src.take chunk)
    (by rw [← length_pos_iff, htake]; omega) (by rw [htake]; unfold W25Q128_PAGE_SIZE; omega) (by omega)
  obtain ⟨w2, h2, hi2, hd2⟩ := @ih w1 hi1 (offset + chunk) (src.drop chunk)
    (by rw [length_drop]; omega) (by rw [length_drop]; omega)
  refine ⟨w2, ?_, hi2, ?_⟩
  · simp only [h1, Option.bind_some, h2]
  rw [hd2, hd1]
  conv_rhs => rw [← take_append_drop chunk src, Nor.program_append, htake]

/-! ## Erasing -/

theorem eraseSector_spec {w : World} (h : Idle w) {offset : Nat} (hl : offset < W25Q128_SIZE) :
    ∃ w', eraseSector gap w offset = some w' ∧ Idle w' ∧
      w'.chip.data = Nor.erase w.chip.data (offset / 4096 * 4096) ((offset / 4096 + 1) * 4096) := by
  obtain ⟨hi, hw, hd⟩ := writeEnable_spec h
  have hc := @eraseCmd_chip gap _ hi hw offset hl
  obtain ⟨w', hs, hi', hd'⟩ := @waitBusy_spec gap
    (spiCsRelease (w25qCmdAddr gap (w25qWriteEnable gap w) 0x20 offset)) rfl
  refine ⟨w', hs, hi', hd'.trans ?_⟩
  have hbase : offset - offset % 4096 = offset / 4096 * 4096 := by omega
  have hfit : offset / 4096 * 4096 + 4096 ≤ W25Q128_SIZE := by
    unfold W25Q128_SIZE at *
    omega
  rw [spiCsRelease, csDeassert, hc]
  simp only [commitSectorErase, W25Q128_SECTOR_SIZE, hbase, if_pos hfit, hd, reduceCtorEq, if_false]
  rw [Nat.add_mul, Nat.one_mul]
  rfl

/-- **Erasing** sets `⌈size / 4096⌉` sectors, from the one that holds `offset`, to ones. -/
theorem eraseLoop_spec {fuel : Nat} {w : World} (h : Idle w) {offset size : Nat}
    (hf : size ≤ fuel) (hl : offset + size ≤ W25Q128_SIZE) :
    ∃ w', eraseLoop gap fuel w offset size = some w' ∧ Idle w' ∧ w'.chip.data =
        Nor.erase w.chip.data (offset / 4096 * 4096) ((offset / 4096 + (size + 4095) / 4096) * 4096) := by
  induction fuel generalizing w offset size with
  | zero =>
    have hz : size = 0 := by omega
    subst hz
    exact ⟨w, rfl, h, by simp⟩
  | succ fuel ih => ?_
  rw [eraseLoop]
  by_cases hz : size = 0
  · subst hz
    exact ⟨w, by simp, h, by simp⟩
  rw [if_neg hz]
  obtain ⟨w1, h1, hi1, hd1⟩ := @eraseSector_spec gap w h offset (by omega)
  by_cases hlast : size ≤ 4096
  · -- the last sector: the gap round has nothing left to erase
    refine ⟨w1, ?_, hi1, ?_⟩
    · have h0 : size - 4096 = 0 := by omega
      rw [h1, Option.bind_some, h0]
      cases fuel <;> simp [eraseLoop]
    have h0 : (size + 4095) / 4096 = 1 := by omega
    rw [hd1, h0]
  obtain ⟨w2, h2, hi2, hd2⟩ := @ih w1 hi1 (offset + 4096) (size - 4096) (by omega) (by omega)
  refine ⟨w2, by rw [h1, Option.bind_some, h2], hi2, ?_⟩
  have ho : (offset + 4096) / 4096 = offset / 4096 + 1 := by omega
  have hk : offset / 4096 + 1 + (size - 4096 + 4095) / 4096 = offset / 4096 + (size + 4095) / 4096 := by omega
  rw [hd2, hd1, ho, hk, Nor.erase_erase]
  · exact Nat.mul_le_mul_right _ (by omega)
  · exact Nat.mul_le_mul_right _ (by omega)

/-- The sectors that the loop erases are those that the range meets, unless the range ends in one more. -/
theorem erased_sector_iff {size a : Nat} (h : offset % 4096 + (size - 1) % 4096 < 4096) :
    (offset / 4096 * 4096 ≤ a ∧ a < (offset / 4096 + (size + 4095) / 4096) * 4096) ↔
      ∃ b, offset ≤ b ∧ b < offset + size ∧ b / 4096 = a / 4096 := by
  constructor
  · rintro ⟨hlo, hhi⟩
    rcases Nat.lt_or_ge a offset with hlt | hge
    · exact ⟨offset, Nat.le.refl, by omega, by omega⟩
    rcases Nat.lt_or_ge a (offset + size) with hin | hout
    · exact ⟨a, hge, hin, rfl⟩
    exact ⟨offset + size - 1, by omega, by omega, by omega⟩
  rintro ⟨b, hlo, hhi, hb⟩
  constructor <;> omega

variable (gap)

/-- **The driver on the chip.** From any idle state, whatever time the bytes take: a write ANDs the data into exactly
the written range, an erase sets exactly the sectors that the range meets (when it meets no more of them than its
size needs) to ones, a read returns the memory; each returns, with the chip idle again. -/
theorem flashNor_on_chip (w : World) (h : Idle w) (offset : Nat) :
    (∀ buf : List UInt8, offset + buf.length ≤ W25Q128_SIZE →
      ∃ w', flashNorWrite gap w offset buf = some w' ∧ Idle w' ∧ ∀ a, w'.chip.data a =
        if offset ≤ a ∧ a < offset + buf.length then w.chip.data a &&& buf.getD (a - offset) 0xFF
        else w.chip.data a) ∧
    (∀ size, offset + size ≤ W25Q128_SIZE → ∃ w', flashNorErase gap w offset size = some w' ∧ Idle w' ∧
        (∀ a, w'.chip.data a =
          if offset / 4096 ≤ a / 4096 ∧ a / 4096 < offset / 4096 + (size + 4095) / 4096 then 0xFF
          else w.chip.data a) ∧
        (offset % 4096 + (size - 1) % 4096 < 4096 → ∀ a,
          ((∃ b, offset ≤ b ∧ b < offset + size ∧ b / 4096 = a / 4096) → w'.chip.data a = 0xFF) ∧
          ((¬ ∃ b, offset ≤ b ∧ b < offset + size ∧ b / 4096 = a / 4096) → w'.chip.data a = w.chip.data a))) ∧
    (∀ len, offset + len ≤ W25Q128_SIZE →
      (flashNorRead gap w offset len).2 = (List.range len).map (fun i => w.chip.data (offset + i)) ∧
        Idle (flashNorRead gap w offset len).1 ∧ (flashNorRead gap w offset len).1.chip.data = w.chip.data) := by
  refine ⟨fun buf hl => ?_, fun size hl => ?_, fun len hl => flashNorRead_spec h hl⟩
  · obtain ⟨w', hw, hi, hd⟩ := writeLoop_spec h Nat.le.refl hl
    exact ⟨w', hw, hi, fun a => congrFun hd a⟩
  obtain ⟨w', hw, hi, hd⟩ := eraseLoop_spec h Nat.le.refl hl
  refine ⟨w', hw, hi, fun a => ?_, fun hc a => ⟨fun hb => ?_, fun hb => ?_⟩⟩
  · rw [hd, Nor.erase]
    exact if_congr (by omega) rfl rfl
  · rw [hd]
    exact if_pos ((erased_sector_iff hc).2 hb)
  · rw [hd]
    exact if_neg (mt (erased_sector_iff hc).1 hb)

/-- The driver with its chip is a device of NOR memory with 4 KB sectors. -/
def w25qNor : NorDevice World 4096 where
  size := W25Q128_SIZE
  mem w := w.chip.data
  Ready := Idle
  read := flashNorRead gap
  write := flashNorWrite gap
  erase := flashNorErase gap
  read_spec h hl := flashNorRead_spec h hl
  write_spec h hl := writeLoop_spec h Nat.le.refl hl
  erase_spec {w k} h hl := by
    obtain ⟨w', hw, hi, hd⟩ := @eraseLoop_spec gap 4096 w h (k * 4096) 4096 Nat.le.refl (by omega)
    refine ⟨w', hw, hi, hd.trans ?_⟩
    rw [Nat.mul_div_cancel _ (by omega)]

end Driver

/-- A chip after power-on, with zeros in its memory. -/
def zeroedWorld : World :=
  ⟨{ data := fun _ => 0, state := .idle, addr := 0, addrBytes := 0, busy := false, wel := false, cmd := 0,
     jedecIdx := 0, pageBuf := [], pageAddr := 0, busyUntil := 0 }, 0⟩

theorem flashNor_on_chip_zeroed :
    Idle zeroedWorld ∧ ∃ w', flashNorErase (fun _ => 0) zeroedWorld 4096 4096 = some w' ∧
      w'.chip.data 8191 = 0xFF ∧ w'.chip.data 8192 = 0 := by
  have hi : Idle zeroedWorld := ⟨rfl, rfl⟩
  obtain ⟨w', hw, -, hd, -⟩ := (flashNor_on_chip (fun _ => 0) zeroedWorld hi 4096).2.1 4096 (by decide)
  exact ⟨hi, w', hw, hd 8191, hd 8192⟩

/-- An erase of 4096 bytes that starts inside a sector leaves the second half of its range as it was. -/
theorem flashNorErase_unaligned : ∃ w', flashNorErase (fun _ => 0) zeroedWorld 2048 4096 = some w' ∧
      (2048 ≤ 4096 ∧ 4096 < 2048 + 4096) ∧ w'.chip.data 4096 = 0 := by
  obtain ⟨w', hw, -, hd⟩ := @eraseLoop_spec (fun _ => 0) 4096 zeroedWorld ⟨rfl, rfl⟩ 2048 4096
    (by decide) (by decide)
  exact ⟨w', hw, by decide, by rw [hd]; rfl⟩

end Embedded.Rtos
