import Barebox.Base
import Barebox.Lib.Bytes

/-!
# Fastboot over UDP — `net/fastboot.c`

Packets have a number of 16 bits. The device answers the packet with its own number, and
goes on to the next number with each answer. The last answer is kept.

Mirroring notes:
- packets come from one host, unfragmented and not too large. `connected` says that it is
  the host of the session (`is_current_connection`).
- `fastboot_write_net` waits for a packet to answer, and gives up after two seconds. What
  happens in the meantime are turns of their own, so that it is modelled from there on
  (`writeNetFinish`); a call that waits goes on even if the session is started anew.
- what a command does is up to it: it writes messages, and may start a download.
- sending what was freed is a fault.
- the length of the last answer is that of `last_payload`: answers are short.
-/

namespace Barebox.FastbootNet

open Lib

/-- `FASTBOOT_ERROR`, `FASTBOOT_QUERY`, `FASTBOOT_INIT`, `FASTBOOT_FASTBOOT` -/
def idError : UInt8 := 0
def idQuery : UInt8 := 1
def idInit : UInt8 := 2
def idFastboot : UInt8 := 3

/-- `struct fastboot_header`; the flags are zero -/
structure Header where
  id : UInt8
  seq : UInt16
  deriving DecidableEq

def Header.bytes (h : Header) : Bytes := [h.id, 0] ++ beBytes 2 h.seq.toNat

inductive MaySend where
  | notSend | message | ack
  deriving DecidableEq

/-- `struct fastboot_work` -/
inductive Work where
  | command (text : Bytes)
  | downloadFinished
  deriving DecidableEq

/-- `struct fastboot_net` -/
structure Net where
  responseHeader : Header
  wq : List Work
  sequenceNumberSeen : Bool
  activeDownload : Bool
  reinit : Bool
  maySend : MaySend
  connected : Bool
  sequenceNumber : UInt16
  lastPayload : Option Bytes
  downloadBytes : Nat
  downloadSize : Nat

inductive Sent where
  | packet (payload : Bytes)
  | fault
  deriving DecidableEq

/-- `PACKET_SIZE` -/
def packetSize : Nat := 1472

/-- `FASTBOOT_MAX_CMD_LEN` -/
def maxCmdLen : Nat := 64

/-! ## Sending -/

def fastbootNetAbort (fbn : Net) : Net :=
  { fbn with reinit := true, activeDownload := false, wq := [], lastPayload := none }

/-- What is behind the header -/
def responseData (id : UInt8) (sequenceNumber : UInt16) (text : Bytes) : Bytes :=
  if id = idQuery then beBytes 2 sequenceNumber.toNat
  else if id = idInit then beBytes 2 1 ++ beBytes 2 packetSize
  else text

def fastbootSend (fbn : Net) (header : Header) (errorMsg : Option Bytes) : Net × List Sent :=
  let currentSession := fbn.sequenceNumber = header.seq ∧ fbn.connected = true
  let header := if errorMsg.isSome then { header with id := idError } else header
  let packet := header.bytes ++ responseData header.id fbn.sequenceNumber (errorMsg.getD [])
  let fbn := if errorMsg.isSome ∧ currentSession then fastbootNetAbort fbn else fbn
  if currentSession ∧ header.id ≠ idQuery then
    ({ fbn with
        sequenceNumber := fbn.sequenceNumber + 1
        sequenceNumberSeen := false
        lastPayload := some packet },
      [.packet packet])
  else (fbn, [.packet packet])

/-- `fastboot_write_net` after the wait -/
def writeNetFinish (fbn : Net) (buf : Bytes) : Net × List Sent :=
  if fbn.maySend = .notSend then (fastbootNetAbort fbn, [])
  else if buf ≠ [] ∧ fbn.maySend = .ack then
    fastbootSend fbn fbn.responseHeader (some (cstr "Have message but only ACK allowed"))
  else if buf = [] ∧ fbn.maySend = .message then
    fastbootSend fbn fbn.responseHeader (some (cstr "Want to send ACK but message expected"))
  else
    let packet := { fbn.responseHeader with seq := fbn.sequenceNumber }.bytes ++ buf
    ({ fbn with
        sequenceNumber := fbn.sequenceNumber + 1
        sequenceNumberSeen := false
        lastPayload := some packet
        maySend := .notSend },
      [.packet packet])

/-- `fastboot_write_net` -/
def fastbootWriteNet (fbn : Net) (buf : Bytes) : Net × List Sent :=
  if fbn.reinit then (fbn, []) else writeNetFinish fbn buf

/-! ## Receiving -/

/-- What happens beside the packet: `poller_register`, and `write` with the text of its error -/
structure Outside where
  registered : Bool
  written : Option Bytes

def fastbootDataDownload (fbn : Net) (data : Bytes) (o : Outside) : Net × List Sent :=
  if data = [] ∨ fbn.downloadSize < fbn.downloadBytes + data.length then
    fastbootSend fbn fbn.responseHeader (some (cstr "Received invalid data length"))
  else
    match o.written with
    | some text => fastbootSend fbn fbn.responseHeader (some text)
    | none => fastbootWriteNet { fbn with downloadBytes := fbn.downloadBytes + data.length } []

def fastbootHandleTypeFastboot (fbn : Net) (header : Header) (data : Bytes) (o : Outside) : Net × List Sent :=
  let fbn := { fbn with
    responseHeader := header
    maySend := if data = [] then .message else .ack }
  if fbn.activeDownload then
    if data = [] ∧ fbn.downloadBytes = fbn.downloadSize then
      ({ fbn with activeDownload := false, wq := fbn.wq ++ [.downloadFinished] }, [])
    else fastbootDataDownload fbn data o
  else if maxCmdLen < data.length then fastbootSend fbn header (some (cstr "command too long"))
  else if fbn.wq ≠ [] then (fbn, [])
  else if data ≠ [] then ({ fbn with wq := [.command data] }, [])
  else (fbn, [])

/-- `fastboot_check_retransmit`; the difference is an `int` -/
def fastbootCheckRetransmit (fbn : Net) (header : Header) : List Sent :=
  if (header.seq.toNat : Int) = (fbn.sequenceNumber.toNat : Int) - 1 ∧ fbn.connected = true then
    match fbn.lastPayload with
    | some payload => [.packet payload]
    | none => [.fault]
  else []

/-- The payload is handed to `fastboot_handle_type_fastboot`. -/
def Hands (fbn : Net) (header : Header) : Prop :=
  header.id = idFastboot ∧ fbn.connected = true ∧ header.seq = fbn.sequenceNumber ∧ fbn.sequenceNumberSeen = false

instance (fbn : Net) (header : Header) : Decidable (Hands fbn header) := inferInstanceAs (Decidable (_ ∧ _))

/-- `fastboot_handler` -/
def fastbootHandler (fbn : Net) (header : Header) (data : Bytes) (o : Outside) : Net × List Sent :=
  if header.id = idQuery then fastbootSend fbn header none
  else if header.id = idInit then
    if header.seq ≠ fbn.sequenceNumber then (fbn, fastbootCheckRetransmit fbn header)
    else
      let fbn := fastbootNetAbort { fbn with connected := true }
      if !o.registered then (fbn, []) else fastbootSend fbn header none
  else if header.id = idFastboot then
    if fbn.connected = false then (fbn, [])
    else if header.seq ≠ fbn.sequenceNumber then (fbn, fastbootCheckRetransmit fbn header)
    else if fbn.sequenceNumberSeen = false then
      fastbootHandleTypeFastboot { fbn with sequenceNumberSeen := true } header data o
    else (fbn, [])
  else fastbootSend fbn header (some (cstr "unknown packet type"))

/-! ## Commands -/

/-- `fastboot_do_work`, up to the command -/
def fastbootDoWork (fbn : Net) : Net × List Sent :=
  match fbn.wq with
  | [] => (fbn, [])
  | .downloadFinished :: wq => ({ fbn with wq := wq }, [])
  | .command _ :: wq => fastbootWriteNet { fbn with wq := wq, reinit := false } []

/-- `cb_download` and `fastboot_start_download_net`, beside the messages -/
def startDownload (fbn : Net) (size : Nat) : Net :=
  { fbn with downloadSize := size, downloadBytes := 0, activeDownload := true }

/-- `fastboot_poll`, when nothing has come for five seconds -/
def fastbootPoll (fbn : Net) : Net := if fbn.activeDownload then fastbootNetAbort fbn else fbn

end Barebox.FastbootNet
