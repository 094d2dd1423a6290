import Barebox.Base
import Barebox.Lib.Bytes
import Barebox.Lib.Run

/-!
# Downloads — `common/fastboot.c`

A download ends with `OKAY` when all of it has come. What has come is counted, not what is
stored: a `write` that stores less than it was given is no error. Over UDP a packet that goes
beyond the end is refused, unless the sum wraps around. Over USB it is stored, for
`rx_bytes_expected` rounds up to whole packets; and what it asks for has no room in the buffer
when 2 GiB and more are left. `download_complete` says that this is all.

Mirroring notes:
- what `write` returns is up to it; if it fails it has stored nothing.
- counters are `size_t`. `maxpacket`, the size of a packet over USB, is a power of two. A
  transfer has what the host sends, up to what was asked for; with more the status is bad.
- an error ends the session over UDP, and leaves no request behind over USB.
- packets are those that `fastboot_handler` hands on; there is no timeout.
-/

namespace Barebox.Fastboot

open Lib List

inductive Transport where
  | udp
  | usb (maxpacket : Nat)

/-- Data, and how much of it `write` stores -/
structure Packet where
  data : Bytes
  written : Option Nat

/-- What has become of a download. It is corrupt when bytes were received behind the buffer. -/
inductive Phase where
  | downloading | okay | failed | corrupt
  deriving DecidableEq

/-- `struct fastboot`, with the temporary file -/
structure Download where
  size : Nat
  bytes : Nat
  file : Bytes
  phase : Phase

/-! ## Receiving -/

section

variable (l : Long)

def fastbootHandleDownloadData (fb : Download) (p : Packet) : Option Download :=
  p.written.map fun n =>
    { fb with bytes := (fb.bytes + p.data.length) % 2 ^ l.bits, file := fb.file ++ p.data.take n }

def fastbootDownloadFinished (fb : Download) : Download := { fb with phase := .okay }

/-- What `cb_download` starts; a size of 0 fails -/
def startDownload (size : Nat) : Download :=
  ⟨size % 2 ^ l.bits, 0, [], if size % 2 ^ l.bits = 0 then .failed else .downloading⟩

/-- `fastboot_handle_type_fastboot` and `fastboot_data_download` -/
def dataDownload (fb : Download) (p : Packet) : Download :=
  if p.data = [] ∧ fb.bytes = fb.size then fastbootDownloadFinished fb
  else if p.data = [] ∨ fb.size < (fb.bytes + p.data.length) % 2 ^ l.bits then { fb with phase := .failed }
  else (fastbootHandleDownloadData l fb p).getD { fb with phase := .failed }

/-- `EP_BUFFER_SIZE` -/
def epBufferSize : Nat := 4096

/-- `rx_bytes_expected`; what remains is an `int`, and the length of a request is not signed -/
def rxBytesExpected (maxpacket : Nat) (fb : Download) : Nat :=
  let remaining := (fb.size + 2 ^ l.bits - fb.bytes) % 2 ^ 32
  if epBufferSize ≤ remaining ∧ remaining < 2 ^ 31 then epBufferSize
  else (remaining + (maxpacket - 1)) % 2 ^ 32 / maxpacket * maxpacket

/-- `rx_handler_dl_image` -/
def rxHandlerDlImage (maxpacket : Nat) (fb : Download) (p : Packet) : Download :=
  if rxBytesExpected l maxpacket fb < p.data.length then { fb with phase := .failed }
  else if epBufferSize < p.data.length then { fb with phase := .corrupt }
  else
    match fastbootHandleDownloadData l fb p with
    | none => { fb with phase := .failed }
    | some fb => if fb.size ≤ fb.bytes then fastbootDownloadFinished fb else fb

def Transport.receive (tr : Transport) (fb : Download) (p : Packet) : Download :=
  if fb.phase = .downloading then
    match tr with
    | .udp => dataDownload l fb p
    | .usb maxpacket => rxHandlerDlImage l maxpacket fb p
  else fb

def Transport.download (tr : Transport) (size : Nat) (packets : List Packet) : Download :=
  run (tr.receive l) (startDownload l size) packets

/-! ## What is stored -/

def content (packets : List Packet) : Bytes := packets.flatMap Packet.data

/-- All of the packet is stored, or `write` fails. -/
def Packet.Stored (p : Packet) : Prop := ∀ n, p.written = some n → p.data.length ≤ n

/-- What a packet needs to be taken as it is: the sum does not wrap around, and what is given to
`write` is stored. A transfer over USB that was asked for stays within the size and the buffer. -/
def Transport.Serves (tr : Transport) (fb : Download) (p : Packet) : Prop :=
  fb.phase = .downloading →
    match tr with
    | .udp => fb.bytes + p.data.length < 2 ^ l.bits ∧ (fb.bytes + p.data.length ≤ fb.size → p.Stored)
    | .usb maxpacket => p.data.length ≤ rxBytesExpected l maxpacket fb →
      fb.bytes + p.data.length ≤ fb.size ∧ p.data.length ≤ epBufferSize ∧ p.Stored

end

/-- What is known of a download after `sent` was received: what is counted is what is stored, and
that is what was sent, as long as it goes on. -/
structure Kept (l : Long) (size : Nat) (fb : Download) (sent : Bytes) : Prop where
  size_eq : fb.size = size
  lt : size < 2 ^ l.bits
  bytes : fb.bytes = fb.file.length
  le : fb.bytes ≤ size
  file : fb.file <+: sent
  all : fb.phase = .downloading → fb.file = sent
  defined : fb.phase ≠ .corrupt
  complete : fb.phase = .okay → fb.bytes = size

variable {l : Long} {size : Nat} {fb : Download} {sent : Bytes} {p : Packet} {tr : Transport}

/-- More that is not stored. -/
theorem Kept.more (h : Kept l size fb sent) (more : Bytes) (phase : Phase) (hphase : phase ≠ .downloading)
    (hdefined : phase ≠ .corrupt) (hcomplete : phase = .okay → fb.bytes = size) :
    Kept l size { fb with phase := phase } (sent ++ more) :=
  ⟨h.size_eq, h.lt, h.bytes, h.le, h.file.trans (prefix_append ..), fun heq => absurd heq hphase, hdefined, hcomplete⟩

/-- A packet that is written as a whole. -/
theorem Kept.handle (h : Kept l size fb sent) (hphase : fb.phase = .downloading)
    (hle : fb.bytes + p.data.length ≤ size) (hstored : p.Stored) :
    fastbootHandleDownloadData l fb p = none
      ∨ ∃ fb', fastbootHandleDownloadData l fb p = some fb' ∧ fb'.phase = .downloading
        ∧ Kept l size fb' (sent ++ p.data) := by
  unfold fastbootHandleDownloadData
  cases hwritten : p.written with
  | none => exact Or.inl rfl
  | some n =>
    refine Or.inr ⟨_, rfl, hphase, ?_⟩
    have hlt := h.lt
    have hbytes := h.bytes
    dsimp only
    rw [take_of_length_le (hstored n hwritten), Nat.mod_eq_of_lt (by omega), h.all hphase]
    refine ⟨h.size_eq, hlt, ?_, hle, prefix_rfl, fun _ => rfl, ?_, ?_⟩
    · rw [hbytes, h.all hphase]
      exact length_append.symm
    · exact fun heq => nomatch hphase.symm.trans heq
    · exact fun heq => nomatch hphase.symm.trans heq

/-- A packet over UDP. -/
theorem Kept.dataDownload (h : Kept l size fb sent) (hphase : fb.phase = .downloading)
    (hlt : fb.bytes + p.data.length < 2 ^ l.bits) (hstored : fb.bytes + p.data.length ≤ fb.size → p.Stored) :
    Kept l size (dataDownload l fb p) (sent ++ p.data) := by
  unfold Fastboot.dataDownload
  rw [Nat.mod_eq_of_lt hlt]
  split
  next hend => exact h.more _ _ nofun nofun fun _ => hend.2.trans h.size_eq
  next =>
  split
  next => exact h.more _ _ nofun nofun nofun
  next hle =>
  rw [not_or, Nat.not_lt] at hle
  rcases h.handle hphase (h.size_eq ▸ hle.2) (hstored hle.2) with hnone | ⟨fb', hsome, -, hkept⟩
  · rw [hnone]
    exact h.more _ _ nofun nofun nofun
  · rw [hsome]
    exact hkept

/-- A transfer over USB. -/
theorem Kept.rxHandlerDlImage {maxpacket : Nat} (h : Kept l size fb sent) (hphase : fb.phase = .downloading)
    (hserves : p.data.length ≤ rxBytesExpected l maxpacket fb →
      fb.bytes + p.data.length ≤ fb.size ∧ p.data.length ≤ epBufferSize ∧ p.Stored) :
    Kept l size (rxHandlerDlImage l maxpacket fb p) (sent ++ p.data) := by
  unfold Fastboot.rxHandlerDlImage
  split
  next => exact h.more _ _ nofun nofun nofun
  next hexpected =>
  obtain ⟨hle, hroom, hstored⟩ := hserves (Nat.not_lt.mp hexpected)
  rw [if_neg (Nat.not_lt.mpr hroom)]
  rcases h.handle hphase (h.size_eq ▸ hle) hstored with hnone | ⟨fb', hsome, hphase', hkept⟩
  · rw [hnone]
    exact h.more _ _ nofun nofun nofun
  · rw [hsome]
    dsimp only
    split
    next hend =>
      have hdone := hkept.more [] .okay nofun nofun fun _ =>
        Nat.le_antisymm hkept.le (hkept.size_eq ▸ hend)
      rw [append_nil] at hdone
      exact hdone
    next => exact hkept

/-- The step: a packet that is served is put behind what came before. -/
theorem Kept.receive (h : Kept l size fb sent) (hserves : tr.Serves l fb p) :
    Kept l size (tr.receive l fb p) (sent ++ p.data) := by
  unfold Transport.receive
  split
  next hphase =>
    have hneeds := hserves hphase
    cases tr with
    | udp => exact h.dataDownload hphase hneeds.1 hneeds.2
    | usb maxpacket => exact h.rxHandlerDlImage hphase hneeds
  next hphase => exact h.more _ _ hphase h.defined h.complete

/-- The whole download, packet by packet. -/
theorem Kept.run (packets : List Packet) : ∀ {fb : Download} {sent : Bytes}, Kept l size fb sent →
    Along (tr.receive l) (tr.Serves l) fb packets →
    Kept l size (run (tr.receive l) fb packets) (sent ++ content packets) := by
  induction packets with
  | nil =>
    intro fb sent h _
    rw [content, flatMap_nil, append_nil]
    exact h
  | cons p packets ih =>
    intro fb sent h ⟨hserves, hrest⟩
    rw [run_cons, content, flatMap_cons, ← append_assoc]
    exact ih (h.receive hserves) hrest

/-- Whatever has been received of a download: what is counted is what is stored, and no more than
the size; it is what was sent. With `OKAY` all of it is there. -/
theorem download_complete (l : Long) (tr : Transport) (size : Nat) (packets : List Packet)
    (hserves : Along (tr.receive l) (tr.Serves l) (startDownload l size) packets) :
    let fb := tr.download l size packets
    fb.bytes = fb.file.length ∧ fb.bytes ≤ size % 2 ^ l.bits ∧ fb.file <+: content packets ∧ fb.phase ≠ .corrupt
      ∧ (fb.phase = .okay → fb.file.length = size % 2 ^ l.bits
        ∧ ((content packets).length = size % 2 ^ l.bits → fb.file = content packets)) := by
  intro fb
  have hstart : Kept l (size % 2 ^ l.bits) (startDownload l size) [] := by
    refine ⟨rfl, Nat.mod_lt _ (Nat.two_pow_pos _), rfl, Nat.zero_le _, prefix_rfl, fun _ => rfl, ?_, ?_⟩
    all_goals
      unfold startDownload
      split <;> nofun
  have hkept : Kept l (size % 2 ^ l.bits) fb ([] ++ content packets) := hstart.run packets hserves
  refine ⟨hkept.bytes, hkept.le, hkept.file, hkept.defined, fun hokay => ?_⟩
  have hlen := hkept.bytes.symm.trans (hkept.complete hokay)
  exact ⟨hlen, fun hall => hkept.file.eq_of_length (hlen.trans hall.symm)⟩

/-- Three bytes in two packets, and the empty packet behind them. -/
def threeBytes : List Packet := [⟨[1, 2], some 2⟩, ⟨[3], some 1⟩, ⟨[], none⟩]

theorem threeBytes_complete : (Transport.udp.download .bits32 3 threeBytes).phase = .okay
    ∧ (Transport.udp.download .bits32 3 threeBytes).file = content threeBytes := by
  have hokay : (Transport.udp.download .bits32 3 threeBytes).phase = .okay := by decide
  refine ⟨hokay, ((download_complete .bits32 .udp 3 threeBytes ?_).2.2.2.2 hokay).2 (by decide)⟩
  refine ⟨fun _ => ⟨by decide, ?_⟩, fun _ => ⟨by decide, ?_⟩, fun _ => ⟨by decide, ?_⟩, trivial⟩
  all_goals
    rintro _ n hn
    cases hn
    try decide

/-- Two bytes are sent over UDP and one is stored; over USB two are stored where one was asked for. -/
theorem download_short_or_long :
    let short := Transport.udp.download .bits32 2 [⟨[1, 2], some 1⟩, ⟨[], none⟩]
    let long := (Transport.usb 512).download .bits32 1 [⟨[1, 2], some 2⟩]
    short.phase = .okay ∧ short.file = [1] ∧ long.bytes = 2 := by decide

end Barebox.Fastboot
