import Mathlib.Algebra.Ring.Nat
import Mathlib.Logic.Function.Basic

/-! # UDP (`rtos/net/udp.c`)

A received frame is the memory from its first byte on: behind the bytes received is what was there before. The
receiver believes the length in the UDP header, and takes the IP header for one without options. What it should
have taken is said by offsets into the frame, as the bytes at two places may be the same. -/

namespace Embedded.Rtos

open Function (update update_self)
open List

/-- `struct udp_socket`. -/
structure UdpSocket where
  localPort : Nat
  bound : Bool

/-- The packet that waits at a socket. -/
structure RxBuf where
  data : List UInt8
  srcIp : Nat
  srcPort : Nat
  ready : Bool

structure Net where
  ip : Nat
  sockets : Nat → UdpSocket
  rxBuf : Nat → RxBuf

/-- The halfword and the word in network order at an offset. -/
def ntohs (frame : Nat → UInt8) (i : Nat) : Nat := 256 * (frame i).toNat + (frame (i + 1)).toNat

def ntohl (frame : Nat → UInt8) (i : Nat) : Nat := 65536 * ntohs frame i + ntohs frame (i + 2)

/-- The socket that `udp_handle` finds; without one it drops the frame. -/
def udpSocket (s : Net) (frame : Nat → UInt8) (len : Nat) : Option Nat :=
  if len < 42 ∨ frame 23 ≠ 17 ∨ ntohl frame 30 ≠ s.ip then none
  else (range 4).find? fun i =>
    (s.sockets i).bound && (s.sockets i).localPort = ntohs frame 36 && !(s.rxBuf i).ready

/-- The bytes of a frame from an offset on. -/
def bytesAt (frame : Nat → UInt8) (i n : Nat) : List UInt8 := (range n).map fun k => frame (i + k)

/-- `udp_handle`: the data goes into the buffer of the socket. -/
def udpHandle (s : Net) (frame : Nat → UInt8) (len : Nat) : Net :=
  match udpSocket s frame len with
  | none => s
  | some i =>
    let dataLen := (ntohs frame 38 + 65536 - 8) % 65536
    let copy := if 256 < dataLen then 256 else dataLen
    { s with rxBuf := update s.rxBuf i ⟨bytesAt frame 42 copy, ntohl frame 26, ntohs frame 34, true⟩ }

/-- `udp_recv`: the result, and the bytes, the address and the port that it hands out. -/
def udpRecv (s : Net) (sock : Int) (bufSize : Nat) : Int × Option (List UInt8 × Nat × Nat) × Net :=
  if sock < 0 ∨ 4 ≤ sock then (-1, none, s)
  else
    let rx := s.rxBuf sock.toNat
    if !rx.ready then (0, none, s)
    else
      let copy := if rx.data.length < bufSize then rx.data.length else bufSize
      (copy, some (rx.data.take copy, rx.srcIp, rx.srcPort),
        { s with rxBuf := update s.rxBuf sock.toNat { rx with ready := false } })

/-- The `n` bytes at offset `i` are the UDP data: they follow the UDP header, which follows an IP header of as
many words as its `IHL` says, are as many as the UDP header says, and were received. -/
structure Received (frame : Nat → UInt8) (len i n : Nat) : Prop where
  start : i = 14 + 4 * ((frame 14).toNat % 16) + 8
  length : n + 8 = ntohs frame (i - 4)
  inside : i + n ≤ len

variable {s : Net} {frame : Nat → UInt8} {len i : Nat}

theorem udpSocket_lt (h : udpSocket s frame len = some i) : i < 4 := by
  unfold udpSocket at h
  split at h
  · cases h
  exact mem_range.1 (mem_of_find?_eq_some h)

/-- What waits at a socket is handed out up to the size of the caller's buffer. -/
theorem udpRecv_ready (hi : i < 4) (h : (s.rxBuf i).ready = true) (n : Nat) :
    (udpRecv s i n).2.1 = some ((s.rxBuf i).data.take n, (s.rxBuf i).srcIp, (s.rxBuf i).srcPort) := by
  simp only [udpRecv, if_neg (show ¬ ((i : Int) < 0 ∨ 4 ≤ (i : Int)) by omega), Int.toNat_natCast, h,
    Bool.not_true, Bool.false_eq_true, if_false]
  split
  · rw [take_length, take_of_length_le (by omega)]
  · rfl

/-- **A frame is dropped, or delivered as it should be** if its IP header has no options, its length field is
right and the data fits. `udp_recv` then hands out the data, up to the caller's buffer. -/
theorem udp_received_iff (s : Net) (frame : Nat → UInt8) (len bufSize : Nat) :
    match udpSocket s frame len with
    | none => udpHandle s frame len = s
    | some i =>
      let t := udpHandle s frame len
      let data := (t.rxBuf i).data
      data = bytesAt frame 42 data.length ∧
      (udpRecv t i bufSize).2.1 = some (data.take bufSize, ntohl frame 26, ntohs frame 34) ∧
      (Received frame len 42 data.length ↔ (frame 14).toNat % 16 = 5 ∧
        8 ≤ ntohs frame 38 ∧ ntohs frame 38 ≤ 264 ∧ 34 + ntohs frame 38 ≤ len) := by
  cases h : udpSocket s frame len with
  | none => simp only [udpHandle, h]
  | some i => ?_
  have hlt : ntohs frame 38 < 65536 := by
    have := (frame 38).toNat_lt
    have := (frame (38 + 1)).toNat_lt
    unfold ntohs
    omega
  obtain ⟨copy, hcopy⟩ : ∃ n, n = if 256 < (ntohs frame 38 + 65536 - 8) % 65536 then 256
      else (ntohs frame 38 + 65536 - 8) % 65536 := ⟨_, rfl⟩
  have hrx : (udpHandle s frame len).rxBuf i = ⟨bytesAt frame 42 copy, ntohl frame 26, ntohs frame 34, true⟩ := by
    simp only [udpHandle, h, update_self, hcopy]
  have hlen : (bytesAt frame 42 copy).length = copy := by rw [bytesAt, length_map, length_range]
  dsimp only
  rw [udpRecv_ready (udpSocket_lt h) (by rw [hrx]), hrx, hlen]
  refine ⟨rfl, rfl, fun ⟨hstart, hlength, hinside⟩ => ?_, fun ⟨hihl, hlo, hhi, hfit⟩ => ⟨by omega, ?_, ?_⟩⟩
  · rw [show 42 - 4 = 38 by rfl] at hlength
    split at hcopy <;> omega
  · rw [show 42 - 4 = 38 by rfl]
    split at hcopy <;> omega
  · split at hcopy <;> omega

/-- A socket on port 0 of the host 0. -/
def zeroHost : Net := ⟨0, fun _ => ⟨0, true⟩, fun _ => ⟨[], 0, 0, false⟩⟩

/-- A frame of 42 bytes that claims four bytes of data: they come from behind the frame. And one with an option
in its IP header: the UDP header, with the ports 4 and 7, is taken for data. -/
theorem udp_reads_behind :
    let frame : Nat → UInt8 := fun k =>
      if k = 14 then 0x45 else if k = 23 then 17 else if k = 39 then 12 else if 42 ≤ k then 0xAA else 0
    let options : Nat → UInt8 := fun k => if k = 14 then 0x46 else if k = 23 then 17 else if k = 39 then 4 + 8
      else if k = 43 then 8 else 0
    ((udpHandle zeroHost frame 42).rxBuf 0).data = [0xAA, 0xAA, 0xAA, 0xAA] ∧
      ((udpHandle zeroHost options 46).rxBuf 0).data = [0, 8, 0, 0] := by decide +kernel

end Embedded.Rtos
