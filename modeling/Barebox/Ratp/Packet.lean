import Barebox.Base
import Barebox.Lib.Bytes

/-!
# RATP packets — `lib/ratp.c`

A packet is a header of four bytes (a leader, the control flags, a length
and a checksum) and, if it has more than one byte of data, the data with a
CRC behind it. A single byte of data has no place of its own: it is sent in
the length field, under the flag `SO`.

Sending is `Packet.bytes`. Receiving is `ratpRecvPkt`, which reads a stream
byte by byte into the receive buffer; what the state machine then works on
is a view of that buffer (`viewPkt`).

Mirroring notes:
- the control byte is the structure of its eight flags, and a byte only in
  the header.
- the receive buffer is not cleared between packets. What an earlier packet
  has left in it is still there.
- a stream that has run dry is `-EAGAIN`; so is a header with a bad
  checksum. What was read until then stays in the buffer.
-/

namespace Barebox.Ratp

open Lib List

/-! ## CRC — `crypto/crc-itu-t.c` -/

/-- One step of the loop of `crc_itu_t_byte` (the variant without a table). -/
def crcItuTShift (crc : UInt16) : UInt16 :=
  if crc &&& 0x8000 ≠ 0 then (crc <<< 1) ^^^ 0x1021 else crc <<< 1

def crcItuTByte (crc : UInt16) (data : UInt8) : UInt16 :=
  (range 8).foldl (fun crc _ => crcItuTShift crc) (crc ^^^ (data.toUInt16 <<< 8))

def crcItuT (crc : UInt16) (buffer : Bytes) : UInt16 := buffer.foldl crcItuTByte crc

example : crcItuT 0 (cstr "123456789") = 0x31c3 := by decide +kernel

/-! ## Control flags -/

/-- The flags of the control byte, highest bit first. -/
structure Control where
  syn : Bool := false
  ack : Bool := false
  fin : Bool := false
  rst : Bool := false
  sn : Bool := false
  an : Bool := false
  eor : Bool := false
  so : Bool := false
  deriving DecidableEq, Repr

namespace Control

def toByte (c : Control) : UInt8 :=
  UInt8.ofNat (128 * c.syn.toNat + 64 * c.ack.toNat + 32 * c.fin.toNat + 16 * c.rst.toNat
    + 8 * c.sn.toNat + 4 * c.an.toNat + 2 * c.eor.toNat + c.so.toNat)

def ofByte (b : UInt8) : Control :=
  let flag (i : Nat) : Bool := b.toNat.testBit i
  ⟨flag 7, flag 6, flag 5, flag 4, flag 3, flag 2, flag 1, flag 0⟩

theorem ofByte_toByte (c : Control) : ofByte c.toByte = c := by
  obtain ⟨syn, ack, fin, rst, sn, an, eor, so⟩ := c
  revert syn ack fin rst sn an eor so
  decide +kernel

end Control

/-! ## Packets -/

/-- A packet: the flags, the length field, and the data. -/
structure Packet where
  control : Control
  dataLength : UInt8
  data : Bytes
  deriving DecidableEq, Repr

/-- A packet without data, as `ratp_send_hdr` makes it. -/
def Packet.hdr (control : Control) : Packet := ⟨control, 0, []⟩

/-- `SYN`, `RST` or `FIN`. -/
def Control.opens (c : Control) : Bool := c.syn || c.rst || c.fin

/-- `ratp_has_data` -/
def ratpHasData (p : Packet) : Bool :=
  p.control.so || (!p.control.opens && p.dataLength ≠ 0)

/-- The checksum `ratp_create_packet` puts into the header. -/
def cksum (control length : UInt8) : UInt8 := (control + length) ^^^ 0xff

/-- `ratp_header_ok` -/
def ratpHeaderOk (control length sum : UInt8) : Bool := control + length + sum = 0xff

/-- The bytes of a packet on the wire. -/
def Packet.bytes (p : Packet) : Bytes :=
  [1, p.control.toByte, p.dataLength, cksum p.control.toByte p.dataLength] ++
    if p.data = [] then [] else p.data ++ beBytes 2 (crcItuT 0 p.data).toNat

theorem ratpHeaderOk_cksum (control length : UInt8) :
    ratpHeaderOk control length (cksum control length) = true := by
  have hall : ∀ n : Fin 256, UInt8.ofNat n + (UInt8.ofNat n ^^^ 0xff) = 0xff := by decide +kernel
  have hsum := hall ⟨(control + length).toNat, (control + length).toNat_lt⟩
  rw [UInt8.ofNat_toNat] at hsum
  exact decide_eq_true hsum

/-! ## Reading -/

/-- `n` calls of `ratp_recv_char`, into the buffer from `off` on: the return
code, the buffer, and the rest of the stream. -/
def recvChars (off : Nat) : Nat → Bytes → Bytes → Ret × Bytes × Bytes
  | 0, buf, s => (.ok, buf, s)
  | _ + 1, buf, [] => (.err .EAGAIN, buf, [])
  | n + 1, buf, c :: s => recvChars (off + 1) n (overwrite off [c] buf) s

/-- `ratp_recv_pkt_header`: bytes are skipped up to the leader. -/
def ratpRecvPktHeader (buf : Bytes) : Bytes → Ret × Bytes × Bytes
  | [] => (.err .EAGAIN, buf, [])
  | c :: s =>
    if c ≠ 1 then ratpRecvPktHeader (overwrite 0 [c] buf) s
    else
      match recvChars 1 3 (overwrite 0 [c] buf) s with
      | (.err e, buf, s) => (.err e, buf, s)
      | (.ok, buf, s) =>
        if ratpHeaderOk (buf.getD 1 0) (buf.getD 2 0) (buf.getD 3 0) then (.ok, buf, s)
        else (.err .EAGAIN, buf, s)

/-- `ratp_recv_pkt_data` -/
def ratpRecvPktData (len : Nat) (buf s : Bytes) : Ret × Bytes × Bytes :=
  match recvChars 4 (len + 2) buf s with
  | (.err e, buf, s) => (.err e, buf, s)
  | (.ok, buf, s) =>
    if (crcItuT 0 (slice 4 len buf)).toNat = beNat (slice (4 + len) 2 buf) then (.ok, buf, s)
    else (.err .EBADMSG, buf, s)

/-- `ratp_recv_pkt` -/
def ratpRecvPkt (buf s : Bytes) : Ret × Bytes × Bytes :=
  match ratpRecvPktHeader buf s with
  | (.err e, buf, s) => (.err e, buf, s)
  | (.ok, buf, s) =>
    let control := Control.ofByte (buf.getD 1 0)
    let len := buf.getD 2 0
    if control.so || control.opens then (.ok, buf, s)
    else if len ≠ 0 then ratpRecvPktData len.toNat buf s
    else (.ok, buf, s)

/-- The packet in a buffer, as the state machine sees it: the data is
whatever lies behind the header. -/
def viewPkt (buf : Bytes) : Packet :=
  let len := buf.getD 2 0
  ⟨Control.ofByte (buf.getD 1 0), len, slice 4 len.toNat buf⟩

/-! ## A packet read back -/

theorem recvChars_append : ∀ (b : Bytes) {off : Nat} {buf : Bytes} (s : Bytes),
    off + b.length ≤ buf.length →
      recvChars off b.length buf (b ++ s) = (.ok, overwrite off b buf, s)
  | [], off, buf, s, h => by
    show (Ret.ok, buf, s) = _
    rw [overwrite, append_nil, length_nil, Nat.add_zero, take_append_drop]
  | c :: b, off, buf, s, h => by
    have hc : off + [c].length ≤ buf.length := by
      rw [length_cons] at h
      rw [length_singleton]
      omega
    have hrest : off + 1 + b.length ≤ (overwrite off [c] buf).length := by
      rw [overwrite_length hc]
      rw [length_cons] at h
      omega
    show recvChars (off + 1) b.length (overwrite off [c] buf) (b ++ s) = _
    rw [recvChars_append b s hrest]
    exact congrArg (fun x => (Ret.ok, x, s)) (overwrite_overwrite hc)

/-- The header of a packet. -/
def Packet.header (p : Packet) : Bytes :=
  [1, p.control.toByte, p.dataLength, cksum p.control.toByte p.dataLength]

variable {buf : Bytes}

theorem ratpRecvPktHeader_header (p : Packet) (s : Bytes) (h : 4 ≤ buf.length) :
    ratpRecvPktHeader buf (p.header ++ s) = (.ok, overwrite 0 p.header buf, s) := by
  let fields := [p.control.toByte, p.dataLength, cksum p.control.toByte p.dataLength]
  have hone : 0 + [(1 : UInt8)].length ≤ buf.length := by
    rw [length_singleton]
    omega
  have hchars : recvChars 1 3 (overwrite 0 [1] buf) (fields ++ s)
      = (.ok, overwrite 0 p.header buf, s) := by
    rw [show overwrite 0 p.header buf = overwrite 1 fields (overwrite 0 [1] buf) from
      (overwrite_overwrite hone).symm]
    exact recvChars_append fields s (by rw [overwrite_length hone]; exact h)
  rw [show p.header ++ s = 1 :: (fields ++ s) from rfl, ratpRecvPktHeader, hchars]
  exact if_pos (ratpHeaderOk_cksum p.control.toByte p.dataLength)

/-- A packet whose data, if it has any, is as long as the length field says. -/
structure Packet.Sized (p : Packet) : Prop where
  plain : p.control.so = false → p.control.opens = false → p.data.length = p.dataLength.toNat
  bare : p.control.so = true ∨ p.control.opens = true → p.data = []

theorem Packet.bytes_eq (p : Packet) :
    p.bytes = p.header ++ if p.data = [] then [] else p.data ++ beBytes 2 (crcItuT 0 p.data).toNat :=
  rfl

/-- What a buffer shows of the packet that was read into it last. -/
theorem viewPkt_bytes (p : Packet) (buf : Bytes) : viewPkt (overwrite 0 p.bytes buf)
      = ⟨p.control, p.dataLength, slice 4 p.dataLength.toNat (overwrite 0 p.bytes buf)⟩ := by
  have hview : ∀ rest, viewPkt (p.header ++ rest)
      = ⟨p.control, p.dataLength, slice 4 p.dataLength.toNat (p.header ++ rest)⟩ := by
    intro rest
    show Packet.mk (Control.ofByte p.control.toByte) p.dataLength _ = _
    rw [Control.ofByte_toByte]
    rfl
  exact hview _

variable {p : Packet}

/-- The data of a packet that was read into a buffer. -/
theorem slice_bytes (buf : Bytes) (h : p.data.length = p.dataLength.toNat) :
    slice 4 p.dataLength.toNat (overwrite 0 p.bytes buf) = p.data := by
  rw [overwrite_zero, Packet.bytes_eq, append_assoc,
    slice_append_right _ (show p.header.length ≤ 4 from Nat.le_refl 4)]
  by_cases hd : p.data = []
  · rw [hd] at h ⊢
    rw [← h]
    rfl
  · rw [if_neg hd, append_assoc]
    exact slice_append_exact _ h

/-- The data of a packet follows its header, and passes the check. -/
theorem ratpRecvPktData_data (s : Bytes) (hd : p.data ≠ [])
    (hlen : p.data.length = p.dataLength.toNat) (h : p.bytes.length ≤ buf.length) :
    ratpRecvPktData p.dataLength.toNat (overwrite 0 p.header buf)
        (p.data ++ beBytes 2 (crcItuT 0 p.data).toNat ++ s)
      = (.ok, overwrite 0 p.bytes buf, s) := by
  have hbytes : p.bytes = p.header ++ (p.data ++ beBytes 2 (crcItuT 0 p.data).toNat) := by
    rw [Packet.bytes_eq, if_neg hd]
  have htotal : p.header.length + (p.data ++ beBytes 2 (crcItuT 0 p.data).toNat).length
      ≤ buf.length := by
    rw [← length_append, ← hbytes]
    exact h
  have hhead : 0 + p.header.length ≤ buf.length := by omega
  have hchars : recvChars 4 (p.dataLength.toNat + 2) (overwrite 0 p.header buf)
      (p.data ++ beBytes 2 (crcItuT 0 p.data).toNat ++ s) = (.ok, overwrite 0 p.bytes buf, s) := by
    have hcount : p.dataLength.toNat + 2
        = (p.data ++ beBytes 2 (crcItuT 0 p.data).toNat).length := by
      rw [length_append, hlen, beBytes_length]
    rw [hcount, hbytes, ← overwrite_overwrite hhead]
    exact recvChars_append _ s (by rw [overwrite_length hhead]; exact htotal)
  have hcrc : slice (4 + p.dataLength.toNat) 2 (overwrite 0 p.bytes buf)
      = beBytes 2 (crcItuT 0 p.data).toNat := by
    rw [overwrite_zero, hbytes, ← append_assoc, append_assoc (p.header ++ p.data),
      slice_append_right _ (Nat.le_of_eq (by rw [length_append, hlen]; rfl)),
      length_append, hlen, show p.header.length = 4 from rfl, Nat.sub_self]
    exact slice_append_exact _ (beBytes_length ..)
  unfold ratpRecvPktData
  rw [hchars]
  dsimp only
  rw [if_pos]
  rw [slice_bytes buf hlen, hcrc, beNat_beBytes_of_lt (crcItuT 0 p.data).toNat_lt]

/-- **A packet is read as it was sent**, whatever the buffer held before. -/
theorem ratpRecvPkt_bytes (s : Bytes) (hp : p.Sized)
    (h : p.bytes.length ≤ buf.length) :
    ratpRecvPkt buf (p.bytes ++ s) = (.ok, overwrite 0 p.bytes buf, s) := by
  have hlen : p.header.length ≤ p.bytes.length := by
    rw [Packet.bytes_eq, length_append]
    exact Nat.le_add_right _ _
  have hhead : ∀ s, ratpRecvPktHeader buf (p.header ++ s) = (.ok, overwrite 0 p.header buf, s) :=
    fun s => ratpRecvPktHeader_header p s (Nat.le_trans hlen h)
  have hcontrol : Control.ofByte ((overwrite 0 p.header buf).getD 1 0) = p.control :=
    Control.ofByte_toByte p.control
  have hlength : (overwrite 0 p.header buf).getD 2 0 = p.dataLength := rfl
  rw [Packet.bytes_eq, append_assoc]
  unfold ratpRecvPkt
  rw [hhead]
  dsimp only
  rw [hcontrol, hlength]
  by_cases hbare : p.control.so = true ∨ p.control.opens = true
  · rw [if_pos (by simpa using hbare), if_pos (hp.bare hbare)]
    rfl
  have hso : p.control.so = false := by simpa using fun hs => hbare (Or.inl hs)
  have hopens : p.control.opens = false := by simpa using fun ho => hbare (Or.inr ho)
  have hsize := hp.plain hso hopens
  rw [if_neg (by simpa using hbare)]
  by_cases hd : p.data = []
  · have hzero : p.dataLength = 0 := by
      rw [hd] at hsize
      exact UInt8.toNat_inj.mp hsize.symm
    rw [if_neg (by simpa using hzero), if_pos hd]
    rfl
  · have hne : p.dataLength ≠ 0 := by
      intro hzero
      rw [hzero] at hsize
      exact hd (length_eq_zero_iff.mp hsize)
    rw [if_pos hne, if_neg hd, ratpRecvPktData_data s hd hsize h, Packet.bytes_eq, if_neg hd]

end Barebox.Ratp
