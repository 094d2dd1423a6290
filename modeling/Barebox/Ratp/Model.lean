import Barebox.Ratp.Packet

/-!
# The RATP state machine — `lib/ratp.c`

One end of a connection (`RatpInternal`) and everything that is done with
it: queueing a message, polling, receiving a message. The state machine is
a table of behaviours, one row per state, as the comment above
`ratp_state_machine` has it; the behaviours of a row are tried in order
until one says that it has dealt with the packet.

At most one packet is on its way at any time (`sendmsg_current`, a copy of
it in `sendbuf`), numbered by one bit. An acknowledgement says which bit is
expected next, and travels on every packet.

Mirroring notes:
- `sn_sent` and `sn_received` only ever hold 0 or 1.
- `ratp->send` succeeds. What it is given goes to the end of `wire`, from
  where it is delivered or lost.
- time is not modelled. Whether a timer has run out is an argument of
  `ratpPoll`; `srtt` and `rto` are left out with the timers they set.
- `msg->buf` has room for a header in front and a CRC behind; here it is
  the payload alone. The completion callback of a message is represented
  by an entry in `done`.
- `ratp_close` and the loop of `ratp_establish` are left out; `ratpStart` is
  what `ratp_establish` sets up before its loop.
- `(int)len` in `ratp_send_complete` is not positive for some lengths from
  `2 ^ 31` on: a copy of a huge or negative size, or a loop that makes no
  progress, `EFAULT`.
- `malloc` in `ratp_recv` succeeds.
-/

namespace Barebox.Ratp

open Lib

inductive RatpState where
  | listen | synSent | synReceived | established | finWait | lastAck | closing | timeWait | closed
  deriving DecidableEq, Repr

/-- `struct ratp_message`. -/
structure RatpMessage where
  buf : Bytes
  eor : Bool
  deriving DecidableEq, Repr

/-- `struct ratp_internal`. -/
structure RatpInternal where
  state : RatpState
  snSent : Bool
  snReceived : Bool
  active : Bool
  recvbuf : Bytes
  sendbuf : Option Packet
  recvmsg : List RatpMessage
  sendmsg : List RatpMessage
  sendmsgCurrent : Option RatpMessage
  maxRetransmission : Nat
  retransmissionCount : Nat
  status : Option Errno
  /-- messages `ratp_msg_done` has reported as sent -/
  done : List RatpMessage
  /-- packets handed to `ratp->send` and still underway -/
  wire : List Packet
  deriving DecidableEq

/-! ## Sending packets -/

/-- `ratp_send_pkt` -/
def ratpSendPkt (ri : RatpInternal) (p : Packet) : RatpInternal :=
  let ri :=
    if ratpHasData p || p.control.opens then
      { ri with sendbuf := some p, snSent := p.control.sn, retransmissionCount := 0 }
    else ri
  { ri with wire := ri.wire ++ [p] }

/-- `ratp_send_hdr` -/
def ratpSendHdr (ri : RatpInternal) (control : Control) : RatpInternal :=
  ratpSendPkt ri (.hdr control)

/-- `ratp_an_expected` -/
def ratpAnExpected (ri : RatpInternal) (hdr : Control) : Bool := hdr.an = !ri.snSent

/-- `ratp_sn_expected` -/
def ratpSnExpected (ri : RatpInternal) (hdr : Control) : Bool := hdr.sn = !ri.snReceived

/-- `ratp_send_ack` -/
def ratpSendAck (ri : RatpInternal) (hdr : Control) : RatpInternal :=
  ratpSendHdr ri { sn := hdr.an, an := !hdr.sn, ack := true }

/-- The packet `ratp_send_next_data` makes of a message: a single byte goes
into the length field. -/
def dataPacket (msg : RatpMessage) (sn an : Bool) : Packet :=
  match msg.buf with
  | [b] => ⟨{ sn := sn, an := an, ack := true, eor := msg.eor, so := true }, b, []⟩
  | buf => ⟨{ sn := sn, an := an, ack := true, eor := msg.eor }, UInt8.ofNat buf.length, buf⟩

/-- `ratp_send_next_data` -/
def ratpSendNextData (ri : RatpInternal) : RatpInternal :=
  match ri.sendmsgCurrent, ri.sendmsg with
  | some _, _ => ri
  | none, [] => ri
  | none, msg :: sendmsg =>
    ratpSendPkt { ri with sendmsgCurrent := some msg, sendmsg := sendmsg, retransmissionCount := 0 }
      (dataPacket msg (!ri.snSent) (!ri.snReceived))

/-- An acknowledgement, on a data packet if there is one to send. -/
def ackOrData (ri : RatpInternal) (hdr : Control) : RatpInternal :=
  if ri.sendmsg.isEmpty || ri.sendmsgCurrent.isSome then ratpSendAck ri hdr else ratpSendNextData ri

/-! ## Behaviours

Each says whether the packet has been dealt with. -/

abbrev Behaviour := RatpInternal → Packet → Bool × RatpInternal

def ratpBehaviourA : Behaviour := fun ri pkt =>
  let hdr := pkt.control
  if hdr.rst then (false, ri)
  else if hdr.ack then (false, ratpSendHdr ri { rst := true, sn := hdr.an })
  else if hdr.syn then
    let ri := ratpSendPkt ri ⟨{ syn := true, ack := true, an := !hdr.sn }, 255, []⟩
    (false, { ri with state := .synReceived })
  else (false, ri)

def ratpBehaviourB : Behaviour := fun ri pkt =>
  let hdr := pkt.control
  if hdr.ack && !ratpAnExpected ri hdr then
    (false, if hdr.rst then ri else ratpSendHdr ri { rst := true, sn := hdr.an })
  else if hdr.rst then
    (false, if hdr.ack then { ri with status := some .ECONNREFUSED, state := .closed } else ri)
  else if hdr.syn then
    let ri := { ri with snReceived := hdr.sn }
    if hdr.ack then (false, ackOrData { ri with state := .established } hdr)
    else
      let ri := ratpSendPkt ri ⟨{ an := !hdr.sn, syn := true, ack := true }, 255, []⟩
      (false, { ri with state := .synReceived })
  else (false, ri)

def ratpBehaviourC1 : Behaviour := fun ri pkt =>
  let hdr := pkt.control
  if ratpSnExpected ri hdr then (false, ri)
  else (true, if hdr.rst || hdr.fin then ri else ratpSendAck ri hdr)

def ratpBehaviourC2 : Behaviour := fun ri pkt =>
  let hdr := pkt.control
  if ratpSnExpected ri hdr then (false, ri)
  else if hdr.rst || hdr.fin then (true, ri)
  else if hdr.syn then
    let ri := ratpSendHdr { ri with status := some .ECONNRESET }
      { rst := true, ack := true, sn := hdr.an, an := !hdr.sn }
    (true, { ri with state := .closed })
  else (true, ratpSendAck ri hdr)

def ratpBehaviourD1 : Behaviour := fun ri pkt =>
  if !pkt.control.rst then (false, ri)
  else if !ri.active then (true, { ri with state := .listen })
  else (true, { ri with status := some .ECONNREFUSED, state := .closed })

/-- This one reports a reset, and lets the packet pass. -/
def ratpBehaviourD2 : Behaviour := fun ri pkt =>
  (false, if pkt.control.rst then { ri with status := some .ECONNRESET } else ri)

def ratpBehaviourD3 : Behaviour := fun ri pkt =>
  if !pkt.control.rst then (false, ri) else (true, { ri with state := .closed })

def ratpBehaviourE : Behaviour := fun ri pkt =>
  let hdr := pkt.control
  if !hdr.syn then (false, ri)
  else
    let ri := ratpSendHdr { ri with status := some .ECONNRESET }
      { rst := true, sn := hdr.ack && hdr.an }
    (true, { ri with state := .closed })

def ratpBehaviourF1 : Behaviour := fun ri pkt =>
  let hdr := pkt.control
  if !hdr.ack then (true, ri)
  else if ratpAnExpected ri hdr then (false, ri)
  else
    let ri := ratpSendHdr ri { rst := true, sn := hdr.an }
    (true, if ri.active then { ri with state := .closed, status := some .ECONNREFUSED }
      else { ri with state := .listen })

def ratpBehaviourF2 : Behaviour := fun ri pkt =>
  let hdr := pkt.control
  if !hdr.ack then (true, ri)
  else if ratpAnExpected ri hdr then
    (false, { ri with done := ri.done ++ ri.sendmsgCurrent.toList, sendmsgCurrent := none })
  else (false, ri)

def ratpBehaviourF3 : Behaviour := fun ri pkt => (!pkt.control.ack, ri)

def ratpBehaviourG : Behaviour := fun ri pkt =>
  let hdr := pkt.control
  if hdr.rst then (false, ri)
  else if hdr.ack then (false, ratpSendHdr ri { rst := true, sn := hdr.an })
  else (false, ratpSendHdr ri { rst := true, an := !hdr.sn, ack := true })

/-- The message `msg_recv` makes of the packet in the receive buffer. -/
def recvMessage (pkt : Packet) : RatpMessage :=
  if pkt.dataLength ≠ 0 then ⟨pkt.data, pkt.control.eor⟩ else ⟨[pkt.dataLength], pkt.control.eor⟩

/-- `msg_recv` -/
def msgRecv (ri : RatpInternal) (pkt : Packet) : RatpInternal :=
  { ri with recvmsg := ri.recvmsg ++ [recvMessage pkt] }

def ratpBehaviourI1 : Behaviour := fun ri pkt =>
  if !ratpHasData pkt then (true, ri)
  else
    let ri := msgRecv { ri with snReceived := pkt.control.sn } pkt
    (false, ackOrData ri pkt.control)

def ratpBehaviourH1 : Behaviour := fun ri pkt =>
  ratpBehaviourI1 { ri with state := .established } pkt

def ratpBehaviourH2 : Behaviour := fun ri pkt =>
  let hdr := pkt.control
  if !hdr.fin then (false, ri)
  else
    let ri := ratpSendHdr { ri with status := some .ENETDOWN }
      { sn := hdr.an, an := !hdr.sn, fin := true, ack := true }
    (true, { ri with state := .lastAck, snReceived := hdr.sn })

def ratpBehaviourH3 : Behaviour := fun ri pkt =>
  let hdr := pkt.control
  if !hdr.fin then (true, ri)
  else if ratpHasData pkt then
    let ri := ratpSendHdr ri { sn := hdr.an, an := !hdr.sn, rst := true, ack := true }
    (true, { ri with status := some .ECONNRESET, state := .closed })
  else
    let expected := ratpAnExpected ri hdr
    let ri := ratpSendHdr ri { sn := hdr.an, an := !hdr.sn, ack := true }
    (true, { ri with state := if expected then .timeWait else .closing })

def ratpBehaviourH4 : Behaviour := fun ri pkt =>
  (true, if ratpAnExpected ri pkt.control then { ri with state := .closed } else ri)

def ratpBehaviourH5 : Behaviour := fun ri pkt =>
  (false, if ratpAnExpected ri pkt.control then { ri with state := .timeWait } else ri)

def ratpBehaviourH6 : Behaviour := fun ri pkt =>
  let hdr := pkt.control
  if !hdr.ack || !hdr.fin then (true, ri)
  else (false, ratpSendHdr ri { sn := !hdr.an, ack := true })

/-- The behaviours of a state, in the order they are tried. -/
def RatpState.behaviours : RatpState → List Behaviour
  | .listen => [ratpBehaviourA]
  | .synSent => [ratpBehaviourB]
  | .synReceived =>
    [ratpBehaviourC1, ratpBehaviourD1, ratpBehaviourE, ratpBehaviourF1, ratpBehaviourH1]
  | .established =>
    [ratpBehaviourC2, ratpBehaviourD2, ratpBehaviourE, ratpBehaviourF2, ratpBehaviourH2,
      ratpBehaviourI1]
  | .finWait => [ratpBehaviourC2, ratpBehaviourD2, ratpBehaviourE, ratpBehaviourF3, ratpBehaviourH3]
  | .lastAck => [ratpBehaviourC2, ratpBehaviourD3, ratpBehaviourE, ratpBehaviourF3, ratpBehaviourH4]
  | .closing => [ratpBehaviourC2, ratpBehaviourD3, ratpBehaviourE, ratpBehaviourF3, ratpBehaviourH5]
  | .timeWait => [ratpBehaviourD3, ratpBehaviourE, ratpBehaviourF3, ratpBehaviourH6]
  | .closed => [ratpBehaviourG]

def runBehaviours : List Behaviour → RatpInternal → Packet → RatpInternal
  | [], ri, _ => ri
  | b :: bs, ri, pkt =>
    match b ri pkt with
    | (true, ri) => ri
    | (false, ri) => runBehaviours bs ri pkt

/-- `ratp_state_machine` -/
def ratpStateMachine (ri : RatpInternal) (pkt : Packet) : RatpInternal :=
  runBehaviours ri.state.behaviours ri pkt

/-! ## Polling -/

/-- The second half of `ratp_poll`: retransmit, and send what is queued. -/
def ratpPollSend (ri : RatpInternal) (timedOut : Bool) : RatpInternal :=
  if ri.sendmsgCurrent.isSome && timedOut then
    let ri := { ri with retransmissionCount := ri.retransmissionCount + 1 }
    if ri.retransmissionCount = ri.maxRetransmission then
      { ri with status := some .ETIMEDOUT, state := .closed }
    else { ri with wire := ri.wire ++ ri.sendbuf.toList }
  else ratpSendNextData ri

/-- `ratp_poll`, with `s` to be read; `timewaitTimedOut` and `timedOut` say
whether the two timers have run out. -/
def ratpPoll (ri : RatpInternal) (s : Bytes) (timewaitTimedOut timedOut : Bool) : RatpInternal :=
  match ratpRecvPkt ri.recvbuf s with
  | (.err _, buf, _) => ratpPollSend { ri with recvbuf := buf } timedOut
  | (.ok, buf, _) =>
    let ri := { ri with recvbuf := buf }
    if ri.state = .timeWait && timewaitTimedOut then ri
    else
      let ri := ratpStateMachine ri (viewPkt buf)
      if ri.status.isSome then ri else ratpPollSend ri timedOut

/-- What `ratp_establish` starts with; `recvbuf` is not initialised. -/
def ratpStart (active : Bool) (recvbuf : Bytes) : RatpInternal :=
  let ri : RatpInternal :=
    { state := .listen, snSent := false, snReceived := false, active := active, recvbuf := recvbuf
      sendbuf := none, recvmsg := [], sendmsg := [], sendmsgCurrent := none
      maxRetransmission := 100, retransmissionCount := 0, status := none, done := [], wire := [] }
  if active then { ratpSendHdr ri { syn := true } with state := .synSent } else ri

/-! ## Messages -/

/-- `(int)len` -/
def intLen (len : Nat) : Int := if len % 2 ^ 32 < 2 ^ 31 then len % 2 ^ 32 else (len : Int) % 2 ^ 32 - 2 ^ 32

/-- The pieces `ratp_send_complete` cuts a message into; at most `n` of
them. -/
def cutChunks : Nat → Bytes → Option (List Bytes)
  | _, [] => some []
  | 0, _ :: _ => none
  | n + 1, data =>
    let now := min (intLen data.length) 255
    if now ≤ 0 then none
    else (cutChunks n (data.drop now.toNat)).map (data.take now.toNat :: ·)

/-- Chunks as messages, the last one with `eor`. -/
def toMessages : List Bytes → List RatpMessage
  | [] => []
  | [c] => [⟨c, true⟩]
  | c :: cs => ⟨c, false⟩ :: toMessages cs

/-- `ratp_send_complete` -/
def ratpSendComplete (ri : RatpInternal) (data : Bytes) : Except Errno RatpInternal :=
  if ri.state ≠ .established then .error .ENETDOWN
  else if data = [] then .error .EINVAL
  else
    match cutChunks data.length data with
    | none => .error .EFAULT
    | some chunks => .ok { ri with sendmsg := ri.sendmsg ++ toMessages chunks }

/-- The first loop of `ratp_recv`: the length up to the end of a message. -/
def eorLength : List RatpMessage → Option Nat
  | [] => none
  | msg :: l => if msg.eor then some msg.buf.length else (eorLength l).map (msg.buf.length + ·)

/-- `ratp_recv`. The second loop copies and frees the whole queue, into a
buffer of the length found by the first. -/
def ratpRecv (ri : RatpInternal) : Except Errno Bytes × RatpInternal :=
  if ri.state ≠ .established then (.error .ENETDOWN, ri)
  else
    match eorLength ri.recvmsg with
    | none => (.error .EAGAIN, ri)
    | some len =>
      let copied := ri.recvmsg.flatMap (·.buf)
      if copied.length > len then (.error .EFAULT, ri)
      else (.ok copied, { ri with recvmsg := [] })

end Barebox.Ratp
