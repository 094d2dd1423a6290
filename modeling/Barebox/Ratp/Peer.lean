import Barebox.Lib.AlternatingBit
import Barebox.Ratp.Messages

/-!
# One end as a peer — `lib/ratp.c`

RATP is the alternating bit protocol of `Lib/AlternatingBit.lean`, both ways
at once: a packet of an open connection carries a chunk or nothing, and the
number expected next (`frameOf`). `Agrees` reads an end as a peer of that
protocol, and everything `ratp_poll` and `ratp_send_complete` do to the end
is a move of the peer.

One thing is not. A retransmission sends what is in `sendbuf`, and with it
the acknowledgement of the time when the packet was made. If chunks have
been accepted since, an old number goes out behind newer ones. `UpToDate` is
what it takes for a retransmission to be a move.
-/

namespace Barebox.Ratp

open Lib Lib.AlternatingBit List

/-- An end, and all the chunks it was ever given to send. -/
structure Endpoint where
  ri : RatpInternal
  queued : List RatpMessage

/-- The end with another `struct ratp_internal`. -/
def Endpoint.withRi (e : Endpoint) (ri : RatpInternal) : Endpoint := { e with ri := ri }

/-- The packet that may be retransmitted asks for what is expected when the packet that
arrives has been taken, unless that acknowledges it. -/
def RatpInternal.UpToDate (ri : RatpInternal) (arriving : Option Packet) : Prop :=
  ri.sendmsgCurrent.isSome →
    ¬ arriving.any (fun p => ratpSnExpected ri p.control && ratpAnExpected ri p.control) →
    ri.sendbuf.all fun q => q.control.an == !(arriving.elim ri.snReceived fun p =>
      if ratpSnExpected ri p.control && ratpHasData p then p.control.sn else ri.snReceived)

instance (ri : RatpInternal) (arriving : Option Packet) : Decidable (ri.UpToDate arriving) :=
  inferInstanceAs (Decidable (_ → _ → _))

/-! ## Packets of an open connection -/

/-- An acknowledgement, or a chunk of at least two bytes. -/
def Packet.Plain (p : Packet) : Prop :=
  (∃ sn an, p = .hdr { sn := sn, an := an, ack := true }) ∨
    ∃ m sn an, (2 ≤ m.buf.length ∧ m.buf.length ≤ 255) ∧ p = dataPacket m sn an

/-- The packet as a frame. -/
def frameOf (p : Packet) : Frame RatpMessage :=
  ⟨if ratpHasData p then some (p.control.sn, recvMessage p) else none, p.control.an⟩

theorem frameOf_ack (sn an : Bool) :
    frameOf (.hdr { sn := sn, an := an, ack := true }) = ⟨none, an⟩ := rfl

theorem ofNat_length_ne_zero {b : Bytes} (hlo : 2 ≤ b.length) (hhi : b.length ≤ 255) :
    UInt8.ofNat b.length ≠ 0 := by
  intro hzero
  have hnat := congrArg UInt8.toNat hzero
  rw [UInt8.toNat_ofNat'] at hnat
  have : (0 : UInt8).toNat = 0 := rfl
  omega

variable {m : RatpMessage} {ri ri' : RatpInternal}

theorem ratpHasData_dataPacket (hm : 2 ≤ m.buf.length ∧ m.buf.length ≤ 255)
    (sn an : Bool) : ratpHasData (dataPacket m sn an) = true := by
  rw [dataPacket_long (by omega)]
  exact decide_eq_true (ofNat_length_ne_zero hm.1 hm.2)

theorem frameOf_dataPacket (hm : 2 ≤ m.buf.length ∧ m.buf.length ≤ 255)
    (sn an : Bool) : frameOf (dataPacket m sn an) = ⟨some (sn, m), an⟩ := by
  unfold frameOf
  rw [ratpHasData_dataPacket hm, if_pos rfl, dataPacket_long (by omega)]
  unfold recvMessage
  rw [if_pos (ofNat_length_ne_zero hm.1 hm.2)]

/-- The end with a packet in the receive buffer. -/
def RatpInternal.read (ri : RatpInternal) (p : Packet) : RatpInternal :=
  { ri with recvbuf := overwrite 0 p.bytes ri.recvbuf }

variable {p : Packet}

theorem RatpInternal.read_length (hlen : p.bytes.length ≤ 261)
    (hbuf : ri.recvbuf.length = 512) : (ri.read p).recvbuf.length = 512 := by
  show (overwrite _ _ _).length = 512
  rw [overwrite_length (by omega), hbuf]

/-- `ratp_poll` with a packet to read. -/
theorem ratpPoll_packet (hsized : p.Sized)
    (hlen : p.bytes.length ≤ 261) (hbuf : ri.recvbuf.length = 512) (hstate : ri.state ≠ .timeWait)
    (hrun : ratpStateMachine (ri.read p) (viewPkt (ri.read p).recvbuf) = ri')
    (hstatus : ri'.status = none) (tw timedOut : Bool) :
    ratpPoll ri p.bytes tw timedOut = ratpPollSend ri' timedOut := by
  have hrecv : ratpRecvPkt ri.recvbuf p.bytes = (.ok, overwrite 0 p.bytes ri.recvbuf, []) := by
    have := ratpRecvPkt_bytes [] hsized (show p.bytes.length ≤ ri.recvbuf.length by omega)
    rw [append_nil] at this
    exact this
  have hwait : (decide (ri.state = .timeWait) && tw) = false := by
    rw [decide_eq_false hstate, Bool.false_and]
  unfold ratpPoll
  rw [hrecv]
  show (if (decide (ri.state = .timeWait) && tw) = true then _
    else if (ratpStateMachine (ri.read p) (viewPkt (ri.read p).recvbuf)).status.isSome then
      ratpStateMachine (ri.read p) (viewPkt (ri.read p).recvbuf)
    else ratpPollSend (ratpStateMachine (ri.read p) (viewPkt (ri.read p).recvbuf)) timedOut) = _
  rw [hwait, hrun, hstatus]
  rfl

theorem Packet.Plain.sized (hp : p.Plain) : p.Sized ∧ p.bytes.length ≤ 261 := by
  rcases hp with ⟨sn, an, rfl⟩ | ⟨m, sn, an, hm, rfl⟩
  · exact ⟨⟨fun _ _ => rfl, fun _ => rfl⟩, (by decide : 4 ≤ 261)⟩
  · exact dataPacket_sized hm.2 sn an

/-- Such a packet is read as it was sent. -/
theorem Packet.Plain.view (hp : p.Plain) (buf : Bytes) : viewPkt (overwrite 0 p.bytes buf) = p := by
  rcases hp with ⟨sn, an, rfl⟩ | ⟨m, sn, an, hm, rfl⟩
  · rw [viewPkt_bytes, slice_bytes buf rfl]
  · have hdata : (dataPacket m sn an).data.length = (dataPacket m sn an).dataLength.toNat := by
      rw [dataPacket_long (by omega)]
      exact (Nat.mod_eq_of_lt (show m.buf.length < 256 by omega)).symm
    rw [viewPkt_bytes, slice_bytes buf hdata]

theorem Packet.Plain.control (hp : p.Plain) :
    p.control.ack = true ∧ p.control.syn = false ∧ p.control.rst = false ∧
      p.control.fin = false := by
  rcases hp with ⟨sn, an, rfl⟩ | ⟨m, sn, an, hm, rfl⟩
  · exact ⟨rfl, rfl, rfl, rfl⟩
  · rw [dataPacket_long (by omega)]
    exact ⟨rfl, rfl, rfl, rfl⟩

/-! ## What the state machine does with them -/

/-- The acknowledgement of a packet is taken. -/
def acked (ri : RatpInternal) (hdr : Control) : RatpInternal :=
  if ratpAnExpected ri hdr then
    { ri with done := ri.done ++ ri.sendmsgCurrent.toList, sendmsgCurrent := none }
  else ri

/-- The chunk of a packet, if there is one, is taken. -/
def accepted (ri : RatpInternal) (p : Packet) : RatpInternal :=
  if ratpHasData p then ackOrData (msgRecv { ri with snReceived := p.control.sn } p) p.control
  else ri

theorem runBehaviours_pass {b : Behaviour} {bs : List Behaviour} (h : b ri p = (false, ri')) :
    runBehaviours (b :: bs) ri p = runBehaviours bs ri' p := by
  rw [runBehaviours, h]

theorem runBehaviours_stop {b : Behaviour} {bs : List Behaviour}
    (h : b ri p = (true, ri')) : runBehaviours (b :: bs) ri p = ri' := by
  rw [runBehaviours, h]

/-- `E` is there for `SYN`. -/
theorem ratpBehaviourE_plain (hp : p.Plain) (ri : RatpInternal) : ratpBehaviourE ri p = (false, ri) :=
  if_pos (congrArg not hp.control.2.1)

theorem runBehaviours_I1 (ri : RatpInternal) (p : Packet) :
    runBehaviours [ratpBehaviourI1] ri p = accepted ri p := by
  unfold runBehaviours ratpBehaviourI1 accepted
  cases ratpHasData p with
  | false => rfl
  | true => rfl

/-- A packet of the expected number is taken; another one is acknowledged again. -/
theorem ratpStateMachine_established (hp : p.Plain) (hs : ri.state = .established) :
    ratpStateMachine ri p
      = if ratpSnExpected ri p.control then accepted (acked ri p.control) p
        else ratpSendAck ri p.control := by
  obtain ⟨hack, hsyn, hrst, hfin⟩ := hp.control
  unfold ratpStateMachine
  rw [hs, RatpState.behaviours]
  by_cases hsn : ratpSnExpected ri p.control = true
  · have hC2 : ratpBehaviourC2 ri p = (false, ri) := if_pos hsn
    have hD2 : ratpBehaviourD2 ri p = (false, ri) := by
      unfold ratpBehaviourD2
      rw [hrst]
      rfl
    have hF2 : ratpBehaviourF2 ri p = (false, acked ri p.control) := by
      unfold ratpBehaviourF2 acked
      dsimp only
      rw [hack]
      cases ratpAnExpected ri p.control with
      | false => rfl
      | true => rfl
    have hH2 : ratpBehaviourH2 (acked ri p.control) p = (false, acked ri p.control) :=
      if_pos (congrArg not hfin)
    rw [runBehaviours_pass hC2, runBehaviours_pass hD2,
      runBehaviours_pass (ratpBehaviourE_plain hp ri), runBehaviours_pass hF2,
      runBehaviours_pass hH2, runBehaviours_I1, if_pos hsn]
  · have hC2 : ratpBehaviourC2 ri p = (true, ratpSendAck ri p.control) := by
      unfold ratpBehaviourC2
      rw [if_neg hsn, hrst, hfin, hsyn]
      rfl
    rw [runBehaviours_stop hC2, if_neg hsn]

/-- An end that has not been acknowledged yet becomes established with the
first packet that is. -/
theorem ratpStateMachine_synReceived (hp : p.Plain)
    (hs : ri.state = .synReceived) (han : ratpAnExpected ri p.control = true) : ratpStateMachine ri p
      = if ratpSnExpected ri p.control then accepted { ri with state := .established } p
        else ratpSendAck ri p.control := by
  obtain ⟨hack, hsyn, hrst, hfin⟩ := hp.control
  unfold ratpStateMachine
  rw [hs, RatpState.behaviours]
  by_cases hsn : ratpSnExpected ri p.control = true
  · have hC1 : ratpBehaviourC1 ri p = (false, ri) := if_pos hsn
    have hD1 : ratpBehaviourD1 ri p = (false, ri) := if_pos (congrArg not hrst)
    have hF1 : ratpBehaviourF1 ri p = (false, ri) := by
      unfold ratpBehaviourF1
      dsimp only
      rw [hack, han]
      rfl
    rw [runBehaviours_pass hC1, runBehaviours_pass hD1,
      runBehaviours_pass (ratpBehaviourE_plain hp ri), runBehaviours_pass hF1, if_pos hsn]
    exact runBehaviours_I1 { ri with state := .established } p
  · have hC1 : ratpBehaviourC1 ri p = (true, ratpSendAck ri p.control) := by
      unfold ratpBehaviourC1
      rw [if_neg hsn, hrst, hfin]
      rfl
    rw [runBehaviours_stop hC1, if_neg hsn]

/-! ## An end as a peer -/

/-- The end is open, and stands where the peer does. -/
structure Agrees (e : Endpoint) (x : Peer RatpMessage) : Prop where
  state : e.ri.state = .established ∨
    (e.ri.state = .synReceived ∧ x.queued = [] ∧ x.accepted = [])
  queued : e.queued = x.queued
  sized : ∀ m ∈ x.queued, 2 ≤ m.buf.length ∧ m.buf.length ≤ 255
  snSent : e.ri.snSent = x.sent.bodd
  snReceived : e.ri.snReceived = x.accepted.length.bodd
  recvmsg : e.ri.recvmsg = x.accepted
  sendmsg : e.ri.sendmsg = x.queued.drop x.sent
  done : e.ri.done = x.queued.take x.done
  current : e.ri.sendmsgCurrent = if x.sent = x.done then none else x.queued[x.done]?
  sendbuf : ∀ m, e.ri.sendmsgCurrent = some m →
    ∃ an, e.ri.sendbuf = some (dataPacket m x.sent.bodd an)
  recvbuf : e.ri.recvbuf.length = 512
  status : e.ri.status = none
  plain : ∀ p ∈ e.ri.wire, p.Plain

/-- The end as one peer of a connection to `y`; `back` is underway to it. -/
def Joined (e : Endpoint) (y : Peer RatpMessage) (back : List (Frame RatpMessage)) : Prop :=
  ∃ x, Agrees e x ∧ Connected x y (e.ri.wire.map frameOf) back

variable {e : Endpoint} {x y : Peer RatpMessage} {back : List (Frame RatpMessage)}

/-- The chunk that is underway. -/
theorem Agrees.current_some (h : Agrees e x) (hm : e.ri.sendmsgCurrent = some m) :
    x.sent = x.done + 1 ∧ x.queued[x.done]? = some m := by
  have hcur := h.current
  rw [hm] at hcur
  split at hcur
  · cases hcur
  · next hne =>
    have := x.done_le
    have := x.sent_le
    exact ⟨by omega, hcur.symm⟩

theorem Agrees.current_none (h : Agrees e x) (hm : e.ri.sendmsgCurrent = none) : x.sent = x.done := by
  have hcur := h.current
  rw [hm] at hcur
  split at hcur
  · assumption
  have := x.done_le
  have := x.sent_le_queued
  have := getElem?_eq_none_iff.mp hcur.symm
  omega

/-- A packet is sent that says where the end stands. -/
theorem Agrees.emit (h : Agrees e x) (hc : Connected x y (e.ri.wire.map frameOf) back)
    (hp : p.Plain) (hat : SentAt x.queued x.sent x.accepted.length (frameOf p)) :
    Agrees (e.withRi { e.ri with wire := e.ri.wire ++ [p] }) x ∧
      Connected x y ((e.ri.wire ++ [p]).map frameOf) back := by
  refine ⟨{ h with plain := forall_mem_append.mpr ⟨h.plain, forall_mem_singleton.mpr hp⟩ }, ?_⟩
  rw [map_append]
  exact hc.emit hat

/-- Acknowledging what was received is a move, … -/
theorem Joined.sendAck (h : Joined e y back) {hdr : Control} (hsn : hdr.sn = e.ri.snReceived) :
    Joined (e.withRi (ratpSendAck e.ri hdr)) y back := by
  obtain ⟨x, ha, hc⟩ := h
  refine ⟨x, ha.emit hc (.inl ⟨_, _, rfl⟩) ⟨?_, nofun⟩⟩
  rw [frameOf_ack, hsn, ha.snReceived]

theorem ratpSendPkt_data (hm : 2 ≤ m.buf.length ∧ m.buf.length ≤ 255) (ri : RatpInternal) (sn an : Bool) :
    ratpSendPkt ri (dataPacket m sn an)
      = { ri with
          sendbuf := some (dataPacket m sn an)
          snSent := sn
          retransmissionCount := 0
          wire := ri.wire ++ [dataPacket m sn an] } := by
  unfold ratpSendPkt
  rw [ratpHasData_dataPacket hm]
  have hsn : (dataPacket m sn an).control.sn = sn := by rw [dataPacket_long (by omega)]
  simp only [Bool.true_or, if_true, hsn]

/-- … sending the next chunk is one too, … -/
theorem Joined.sendNextData (h : Joined e y back) :
    Joined (e.withRi (ratpSendNextData e.ri)) y back := by
  obtain ⟨x, ha, hc⟩ := h
  unfold ratpSendNextData
  split
  · exact ⟨x, ha, hc⟩
  · exact ⟨x, ha, hc⟩
  next m ms hcur hmsgs =>
  -- nothing is underway: the next chunk is begun
  have hidle : x.sent = x.done := ha.current_none hcur
  have hdrop : x.queued.drop x.sent = m :: ms := ha.sendmsg.symm.trans hmsgs
  have hlt : x.sent < x.queued.length := by
    refine Nat.lt_of_not_le fun hle => ?_
    rw [drop_eq_nil_of_le hle] at hdrop
    cases hdrop
  have hget : x.queued[x.sent]? = some m := by
    rw [← head?_drop, hdrop]
    rfl
  have hm := ha.sized m (mem_of_getElem? hget)
  have hstart : Agrees
      (e.withRi { e.ri with
        sendmsgCurrent := some m
        sendmsg := ms
        retransmissionCount := 0
        sendbuf := some (dataPacket m (!e.ri.snSent) (!e.ri.snReceived))
        snSent := !e.ri.snSent }) (x.start hidle hlt) :=
    { ha with
      snSent := by
        show (!e.ri.snSent) = (x.sent + 1).bodd
        rw [ha.snSent, Nat.bodd_succ]
      sendmsg := by
        show ms = x.queued.drop (x.sent + 1)
        rw [← drop_drop, hdrop]
        rfl
      current := by
        show some m = if x.sent + 1 = x.done then none else x.queued[x.done]?
        rw [if_neg (by omega), ← hidle, hget]
      sendbuf := by
        intro m' hm'
        cases hm'
        refine ⟨!e.ri.snReceived, ?_⟩
        show some (dataPacket m (!e.ri.snSent) _) = some (dataPacket m (x.sent + 1).bodd _)
        rw [ha.snSent, Nat.bodd_succ] }
  refine ⟨x.start hidle hlt, ?_⟩
  rw [ratpSendPkt_data hm]
  refine hstart.emit (hc.start hidle hlt) (.inr ⟨m, _, _, hm, rfl⟩) ?_
  rw [frameOf_dataPacket hm, ha.snSent, ha.snReceived]
  refine ⟨rfl, fun sn a hdata => ?_⟩
  obtain ⟨rfl, rfl⟩ : (!x.sent.bodd) = sn ∧ m = a := by
    have := Option.some.inj hdata
    exact ⟨congrArg Prod.fst this, congrArg Prod.snd this⟩
  exact ⟨(Nat.bodd_succ _).symm, x.sent, rfl, hget⟩

/-- … and so is whichever of them the code chooses. -/
theorem Joined.ackOrData (h : Joined e y back) {hdr : Control} (hsn : hdr.sn = e.ri.snReceived) :
    Joined (e.withRi (ackOrData e.ri hdr)) y back := by
  unfold Ratp.ackOrData
  split
  · exact h.sendAck hsn
  · exact h.sendNextData

/-! ## Taking a packet -/

/-- The end has taken a packet. -/
def Taking (e : Endpoint) (p : Packet) (y : Peer RatpMessage) (back : List (Frame RatpMessage)) :
    Prop :=
  ∃ x, Agrees e x ∧ Receiving x y (frameOf p) (e.ri.wire.map frameOf) back

variable {p : Packet}

/-- The acknowledgement in the packet is taken first, … -/
theorem Taking.acked (h : Taking e p y back) (hs : e.ri.state = .established) :
    Taking (e.withRi (acked e.ri p.control)) p y back := by
  obtain ⟨x, ha, hr⟩ := h
  unfold Ratp.acked
  split
  case isFalse => exact ⟨x, ha, hr⟩
  case isTrue han =>
    have han : (frameOf p).an = !x.sent.bodd := (of_decide_eq_true han).trans (by rw [ha.snSent])
    have hdone : e.ri.done ++ e.ri.sendmsgCurrent.toList = x.queued.take x.sent := by
      cases hcur : e.ri.sendmsgCurrent with
      | none => rw [ha.done, ha.current_none hcur, Option.toList_none, append_nil]
      | some m =>
        obtain ⟨hsent, hget⟩ := ha.current_some hcur
        rw [ha.done, hsent, take_add_one, hget]
    exact ⟨x.ack,
      { ha with
        state := .inl hs
        done := hdone
        current := (if_pos rfl).symm
        sendbuf := fun m hm => nomatch hm }, hr.ack han⟩

/-- … then its data. -/
theorem Taking.accepted (h : Taking e p y back) (hs : e.ri.state = .established)
    (hsn : ratpSnExpected e.ri p.control = true) : Joined (e.withRi (accepted e.ri p)) y back := by
  obtain ⟨x, ha, hr⟩ := h
  unfold Ratp.accepted
  split
  case isFalse => exact ⟨x, ha, hr.toConnected⟩
  case isTrue hdata =>
    have hsn : p.control.sn = !x.accepted.length.bodd :=
      (of_decide_eq_true hsn).trans (by rw [ha.snReceived])
    have hframe : (frameOf p).data = some (p.control.sn, recvMessage p) := if_pos hdata
    refine Joined.ackOrData (e := e.withRi (msgRecv { e.ri with snReceived := p.control.sn } p))
      ⟨x.accept (recvMessage p), { ha with
        state := .inl hs
        snReceived := ?_
        recvmsg := ?_ }, hr.accept hframe hsn⟩ rfl
    · show p.control.sn = (x.accepted ++ [recvMessage p]).length.bodd
      rw [hsn, length_append, length_singleton, Nat.bodd_succ]
    · show e.ri.recvmsg ++ [recvMessage p] = _
      rw [ha.recvmsg]
      rfl

/-- What is sent last carries the newest acknowledgement. -/
theorem ackOrData_upToDate (hsized : ∀ m ∈ ri.sendmsg, 2 ≤ m.buf.length ∧ m.buf.length ≤ 255) {hdr : Control}
    (h : ri.UpToDate none) : (ackOrData ri hdr).UpToDate none := by
  unfold Ratp.ackOrData
  split
  · exact h
  next hfree =>
  cases hcur : ri.sendmsgCurrent with
  | some m => simp [hcur] at hfree
  | none =>
    cases hmsgs : ri.sendmsg with
    | nil => simp [hmsgs] at hfree
    | cons m ms =>
      have hm := hsized m (by rw [hmsgs]; exact mem_cons_self)
      unfold ratpSendNextData
      rw [hcur, hmsgs]
      dsimp only
      rw [ratpSendPkt_data hm, dataPacket_long (by omega)]
      intro _ _
      simp

/-- After a packet was taken the buffer is up to date, if it was for that packet. -/
theorem accepted_upToDate (hsized : ∀ m ∈ ri.sendmsg, 2 ≤ m.buf.length ∧ m.buf.length ≤ 255)
    (h : ri.sendmsgCurrent.isSome → ri.sendbuf.all fun q =>
      q.control.an == !(if ratpHasData p then p.control.sn else ri.snReceived)) :
    (accepted ri p).UpToDate none := by
  unfold Ratp.accepted
  split
  next hdata =>
    refine ackOrData_upToDate ?_ fun hcur _ => ?_
    · exact hsized
    · simpa [hdata, msgRecv] using h hcur
  next hdata => exact fun hcur _ => by simpa [hdata] using h hcur

/-- What is up to date when the packet arrives is so when it has been taken. -/
theorem Taking.upToDate (hp : p.Plain) (h : Taking e p y back) (hs : e.ri.state = .established)
    (hfresh : e.ri.UpToDate (some p)) : (ratpStateMachine e.ri p).UpToDate none := by
  obtain ⟨x, ha, -⟩ := h
  have hsized : ∀ m ∈ e.ri.sendmsg, 2 ≤ m.buf.length ∧ m.buf.length ≤ 255 := fun m hm =>
    ha.sized m (mem_of_mem_drop (ha.sendmsg ▸ hm))
  rw [ratpStateMachine_established hp hs]
  cases hsn : ratpSnExpected e.ri p.control with
  | false =>
    show e.ri.UpToDate none
    exact fun hcur _ => by simpa [hsn] using hfresh hcur
  | true =>
    rw [if_pos rfl, Ratp.acked]
    cases han : ratpAnExpected e.ri p.control with
    | true => exact accepted_upToDate hsized fun hcur => nomatch hcur
    | false => exact accepted_upToDate hsized fun hcur => by simpa [hsn, han] using hfresh hcur

theorem acked_state (hdr : Control) : (acked ri hdr).state = ri.state := by
  unfold acked
  split <;> rfl

theorem acked_snReceived (hdr : Control) :
    (acked ri hdr).snReceived = ri.snReceived := by
  unfold acked
  split <;> rfl

/-- The state machine as a whole keeps both ends joined. -/
theorem Taking.stateMachine (hp : p.Plain) (h : Taking e p y back) :
    Joined (e.withRi (ratpStateMachine e.ri p)) y back := by
  obtain ⟨x, ha, hr⟩ := h
  have hdup : ¬ ratpSnExpected e.ri p.control = true → p.control.sn = e.ri.snReceived := by
    intro hsn
    exact Bool.not_eq_not.mp fun heq => hsn (decide_eq_true heq)
  rcases ha.state with hs | ⟨hs, hqueued, haccepted⟩
  · rw [ratpStateMachine_established hp hs]
    split
    · next hsn =>
      refine (Taking.acked ⟨x, ha, hr⟩ hs).accepted ((acked_state ..).trans hs) ?_
      show decide (p.control.sn = !(Ratp.acked e.ri p.control).snReceived) = true
      rw [acked_snReceived]
      exact hsn
    · next hsn => exact Joined.sendAck ⟨x, ha, hr.toConnected⟩ (hdup hsn)
  · -- the peer knows of nothing but the opening of the connection
    have hsent : x.sent = 0 := by
      have := x.sent_le_queued
      rw [hqueued] at this
      exact Nat.le_zero.mp this
    have han : ratpAnExpected e.ri p.control = true := by
      obtain ⟨d, c, _, hc, hat, _⟩ := hr.taken
      have hle := hr.fwd.le_sent
      obtain rfl : c = 0 := by omega
      refine decide_eq_true ?_
      rw [ha.snSent, hsent]
      exact hat.an
    rw [ratpStateMachine_synReceived hp hs han]
    split
    · next hsn =>
      exact Taking.accepted (e := e.withRi { e.ri with state := .established })
        ⟨x, { ha with state := .inl rfl }, hr⟩ rfl hsn
    · next hsn => exact Joined.sendAck ⟨x, ha, hr.toConnected⟩ (hdup hsn)

/-! ## Polling -/

variable {timedOut : Bool}

section

variable (h : Joined e y back)
include h

/-- An end that was never given anything has nothing to retransmit. -/
theorem Joined.pollSend_idle (hq : e.queued = []) :
    Joined (e.withRi (ratpPollSend e.ri timedOut)) y back := by
  obtain ⟨x, ha, hc⟩ := h
  have hcur : e.ri.sendmsgCurrent = none := by
    cases hcur : e.ri.sendmsgCurrent with
    | none => rfl
    | some m =>
      have hget := (ha.current_some hcur).2
      rw [← ha.queued, hq] at hget
      cases hget
  unfold ratpPollSend
  rw [hcur]
  exact Joined.sendNextData ⟨x, ha, hc⟩

/-- The second half of a poll, if the end stays open and what it retransmits
is up to date. -/
theorem Joined.pollSend (hstays : (ratpPollSend e.ri timedOut).state ≠ .closed)
    (hfresh : timedOut = true → e.ri.UpToDate none) :
    Joined (e.withRi (ratpPollSend e.ri timedOut)) y back := by
  obtain ⟨x, ha, hc⟩ := h
  unfold ratpPollSend at hstays ⊢
  split
  case isFalse => exact Joined.sendNextData ⟨x, ha, hc⟩
  case isTrue hout =>
    rw [if_pos hout] at hstays
    rw [Bool.and_eq_true] at hout
    dsimp only at hstays ⊢
    split
    case isTrue hmax =>
      rw [if_pos hmax] at hstays
      exact absurd rfl hstays
    case isFalse hmax =>
      obtain ⟨m, hm⟩ := Option.isSome_iff_exists.mp hout.1
      obtain ⟨hsent, hget⟩ := ha.current_some hm
      obtain ⟨an, hbuf⟩ := ha.sendbuf m hm
      have hsized := ha.sized m (mem_of_getElem? hget)
      -- the packet was built before, but nothing has come in since
      have han : an = !e.ri.snReceived := by
        have hall := hfresh hout.2 hout.1 nofun
        rw [hbuf, dataPacket_long (by omega)] at hall
        exact beq_iff_eq.mp hall
      have hcount : Agrees
          (e.withRi { e.ri with retransmissionCount := e.ri.retransmissionCount + 1 }) x := { ha with }
      have hlist : e.ri.sendbuf.toList = [dataPacket m x.sent.bodd an] := by
        rw [hbuf]
        rfl
      rw [hlist]
      refine ⟨x, hcount.emit hc (.inr ⟨m, _, _, hsized, rfl⟩) ?_⟩
      rw [frameOf_dataPacket hsized, han, ha.snReceived]
      refine ⟨rfl, fun sn a hdata => ?_⟩
      obtain ⟨rfl, rfl⟩ : x.sent.bodd = sn ∧ m = a := by
        have := Option.some.inj hdata
        exact ⟨congrArg Prod.fst this, congrArg Prod.snd this⟩
      exact ⟨rfl, x.done, hsent, hget⟩

theorem Joined.status : e.ri.status = none := by
  obtain ⟨x, ha, _⟩ := h
  exact ha.status

omit h in
/-- `ratp_poll` with a packet to read. -/
theorem Taking.poll (hp : p.Plain) (h : Taking e p y back) {tw : Bool}
    (hstays : e.ri.state = .established →
      (ratpPoll e.ri p.bytes tw timedOut).state = .established)
    (hfresh : timedOut = true → e.ri.UpToDate (some p)) :
    Joined (e.withRi (ratpPoll e.ri p.bytes tw timedOut)) y back := by
  obtain ⟨x, ha, hr⟩ := h
  obtain ⟨hsized, hlen⟩ := hp.sized
  have hstate : e.ri.state ≠ .timeWait := by
    rcases ha.state with hs | ⟨hs, _⟩ <;> rw [hs] <;> decide
  have hread : Taking (e.withRi (e.ri.read p)) p y back :=
    ⟨x, { ha with recvbuf := RatpInternal.read_length hlen ha.recvbuf }, hr⟩
  have hjoined := hread.stateMachine hp
  have hpoll : ratpPoll e.ri p.bytes tw timedOut
      = ratpPollSend (ratpStateMachine (e.ri.read p) p) timedOut := by
    refine ratpPoll_packet hsized hlen ha.recvbuf hstate ?_ hjoined.status tw timedOut
    exact congrArg (ratpStateMachine (e.ri.read p)) (hp.view e.ri.recvbuf)
  rw [hpoll] at hstays ⊢
  rcases ha.state with hs | ⟨_, hqueued, _⟩
  · refine hjoined.pollSend ?_ fun hout => hread.upToDate hp hs (hfresh hout)
    show (ratpPollSend (ratpStateMachine (e.ri.read p) p) timedOut).state ≠ _
    rw [hstays hs]
    decide
  · exact hjoined.pollSend_idle (ha.queued.trans hqueued)

/-- `ratp_poll` with nothing to read. -/
theorem Joined.poll {tw : Bool}
    (hstays : e.ri.state = .established → (ratpPoll e.ri [] tw timedOut).state = .established)
    (hfresh : timedOut = true → e.ri.UpToDate none) :
    Joined (e.withRi (ratpPoll e.ri [] tw timedOut)) y back := by
  obtain ⟨x, ha, hc⟩ := h
  have hpoll : ratpPoll e.ri [] tw timedOut = ratpPollSend e.ri timedOut := rfl
  rw [hpoll] at hstays ⊢
  rcases ha.state with hs | ⟨_, hqueued, _⟩
  · refine Joined.pollSend ⟨x, ha, hc⟩ ?_ hfresh
    rw [hstays hs]
    decide
  · exact Joined.pollSend_idle ⟨x, ha, hc⟩ (ha.queued.trans hqueued)

/-! ## Sending -/

omit h in
/-- The chunks of a message have two bytes at least, if the last one has. -/
theorem toMessages_sized {data : Bytes} {chunks : List Bytes}
    (hcut : cutChunks data.length data = some chunks) (hne : data ≠ []) (hmod : data.length % 255 ≠ 1) :
    ∀ m ∈ toMessages chunks, 2 ≤ m.buf.length ∧ m.buf.length ≤ 255 := by
  obtain ⟨full, last, hcut', hfull, hlo, hhi, hflat⟩ :=
    cutChunks_eq (Nat.le_refl _) (length_lt_of_cutChunks hcut) hne
  cases hcut.symm.trans hcut'
  have hlast : last.length ≠ 1 := by
    intro hone
    refine hmod ?_
    rw [← hflat]
    exact (length_mod_chunks hfull hlo hhi).mpr hone
  intro m hm
  rw [toMessages_concat] at hm
  rcases mem_append.mp hm with hm | hm
  · obtain ⟨c, hc, rfl⟩ := mem_map.mp hm
    have : c.length = 255 := hfull c hc
    show 2 ≤ c.length ∧ c.length ≤ 255
    omega
  · obtain rfl := mem_singleton.mp hm
    show 2 ≤ last.length ∧ last.length ≤ 255
    omega

/-- Queueing more chunks is a move. -/
theorem Joined.send {data : Bytes}
    (hsend : ratpSendComplete e.ri data = .ok ri) (hmod : data.length % 255 ≠ 1) :
    Joined ⟨ri, e.queued ++ ri.sendmsg.drop e.ri.sendmsg.length⟩ y back := by
  obtain ⟨x, ha, hc⟩ := h
  unfold ratpSendComplete at hsend
  split at hsend
  · cases hsend
  next hs =>
  split at hsend
  · cases hsend
  next hne =>
  split at hsend
  · cases hsend
  next chunks hcut =>
  cases hsend
  rw [drop_left]
  have hlen := x.sent_le_queued
  -- the chunks join the queue of the abstract sender
  refine ⟨x.enqueue (toMessages chunks), { ha with
    state := .inl (Decidable.not_not.mp hs)
    queued := ?_
    sized := ?_
    sendmsg := ?_
    done := ?_
    current := ?_ }, hc.enqueue _⟩
  · show e.queued ++ _ = x.queued ++ _
    rw [ha.queued]
  · exact forall_mem_append.mpr ⟨ha.sized, toMessages_sized hcut hne hmod⟩
  · show e.ri.sendmsg ++ _ = (x.queued ++ _).drop x.sent
    rw [drop_append_of_le_length hlen, ha.sendmsg]
  · show e.ri.done = (x.queued ++ _).take x.done
    rw [take_append_of_le_length (Nat.le_trans x.done_le hlen), ha.done]
  · show e.ri.sendmsgCurrent = if x.sent = x.done then none else (x.queued ++ _)[x.done]?
    rw [ha.current]
    split
    · rfl
    · have := x.done_le
      rw [getElem?_append_left (by omega)]

end

end Barebox.Ratp
