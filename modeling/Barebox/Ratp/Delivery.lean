import Barebox.Lib.Run
import Barebox.Ratp.Peer

/-!
# Delivery — two ends of `lib/ratp.c`

An active and a passive end, each polled, given messages to send and
deprived of packets in any order. Once the link is open both ends are peers
of the alternating bit protocol (`Opened`), and stay so whatever happens, as
long as neither leaves `ESTABLISHED` and nothing outdated is retransmitted.

Without the last condition chunks are lost. An end with a packet underway
goes on accepting chunks, and acknowledges them with packets of their own;
when it then retransmits its packet, the other end takes the old
acknowledgement in it for that of the chunk it is sending just now
(`link_stale_retransmission`).
-/

namespace Barebox.Ratp

open Lib Lib.AlternatingBit List

/-! ## Two ends -/

/-- What may happen at an end: a message is to be sent, `ratp_poll` is
called and finds a packet or not, a packet underway to it is lost. -/
inductive LinkOp where
  | send (data : Bytes)
  | poll (arrives timewaitTimedOut timedOut : Bool)
  | lose (i : Nat)

/-- What an operation does to the end and to its peer. -/
def LinkOp.apply (self peer : Endpoint) : LinkOp → Endpoint × Endpoint
  | .send data =>
    match ratpSendComplete self.ri data with
    | .ok ri => (⟨ri, self.queued ++ ri.sendmsg.drop self.ri.sendmsg.length⟩, peer)
    | .error _ => (self, peer)
  | .poll arrives timewaitTimedOut timedOut =>
    match arrives, peer.ri.wire with
    | true, p :: wire =>
      ({ self with ri := ratpPoll self.ri p.bytes timewaitTimedOut timedOut },
        { peer with ri := { peer.ri with wire := wire } })
    | _, _ => ({ self with ri := ratpPoll self.ri [] timewaitTimedOut timedOut }, peer)
  | .lose i => (self, { peer with ri := { peer.ri with wire := peer.ri.wire.eraseIdx i } })

inductive End where
  | active | passive

structure Link where
  active : Endpoint
  passive : Endpoint

namespace Link

def start (activeBuf passiveBuf : Bytes) : Link :=
  ⟨⟨ratpStart true activeBuf, []⟩, ⟨ratpStart false passiveBuf, []⟩⟩

def step (l : Link) : End × LinkOp → Link
  | (.active, op) =>
    let (active, passive) := op.apply l.active l.passive
    ⟨active, passive⟩
  | (.passive, op) =>
    let (passive, active) := op.apply l.passive l.active
    ⟨active, passive⟩

end Link

/-- An end that is established stays so. -/
def Stays (e e' : Endpoint) : Prop := e.ri.state = .established → e'.ri.state = .established

instance (e e' : Endpoint) : Decidable (Stays e e') := inferInstanceAs (Decidable (_ → _))

/-- No message ends in a chunk of a single byte. -/
def LinkOp.Sized : LinkOp → Prop
  | .send data => data.length % 255 ≠ 1
  | _ => True

instance : (op : LinkOp) → Decidable op.Sized
  | .send data => inferInstanceAs (Decidable (data.length % 255 ≠ 1))
  | .poll .. => .isTrue trivial
  | .lose _ => .isTrue trivial

/-- The runs that are looked at. -/
def Link.Admissible (l : Link) (a : End × LinkOp) : Prop :=
  (Stays l.active (l.step a).active ∧ Stays l.passive (l.step a).passive) ∧ a.2.Sized

instance (l : Link) (a : End × LinkOp) : Decidable (l.Admissible a) :=
  inferInstanceAs (Decidable (_ ∧ _))

/-- When the timer has run out, what may be retransmitted is not outdated, nor by what
arrives. -/
def LinkOp.Fresh (self peer : Endpoint) : LinkOp → Prop
  | .poll arrives _ true => self.ri.UpToDate (if arrives then peer.ri.wire.head? else none)
  | _ => True

instance (self peer : Endpoint) : (op : LinkOp) → Decidable (op.Fresh self peer)
  | .poll arrives _ true =>
    inferInstanceAs (Decidable (self.ri.UpToDate (if arrives then peer.ri.wire.head? else none)))
  | .poll _ _ false => .isTrue trivial
  | .send _ => .isTrue trivial
  | .lose _ => .isTrue trivial

/-- Nothing outdated is retransmitted. -/
def Link.Fresh (l : Link) : End × LinkOp → Prop
  | (.active, op) => op.Fresh l.active l.passive
  | (.passive, op) => op.Fresh l.passive l.active

instance (l : Link) : (a : End × LinkOp) → Decidable (l.Fresh a)
  | (.active, op) => inferInstanceAs (Decidable (op.Fresh l.active l.passive))
  | (.passive, op) => inferInstanceAs (Decidable (op.Fresh l.passive l.active))

/-- The chunks that arrive at `y` are those queued at `x`, in order, and the
chunks that are done at `x` have arrived. -/
def Delivered (x y : Endpoint) : Prop :=
  y.ri.recvmsg <+: x.queued ∧ x.ri.done <+: y.ri.recvmsg

instance (x y : Endpoint) : Decidable (Delivered x y) := inferInstanceAs (Decidable (_ ∧ _))

variable {self peer e : Endpoint} {y : Peer RatpMessage} {timedOut : Bool}

/-! ## The open link -/

/-- What is queued is what `ratp_send` has cut, or nothing. -/
theorem LinkOp.apply_send (self peer : Endpoint) (data : Bytes) :
    (∃ ri, ratpSendComplete self.ri data = .ok ri ∧ (LinkOp.send data).apply self peer
      = (⟨ri, self.queued ++ ri.sendmsg.drop self.ri.sendmsg.length⟩, peer)) ∨
      (LinkOp.send data).apply self peer = (self, peer) := by
  rw [LinkOp.apply]
  cases hsend : ratpSendComplete self.ri data with
  | ok ri => exact .inl ⟨ri, rfl, rfl⟩
  | error _ => exact .inr rfl

/-- A poll takes the packet that is next on the wire, or none. -/
theorem LinkOp.apply_poll (self peer : Endpoint) (arrives tw timedOut : Bool) :
    (∃ p wire, peer.ri.wire = p :: wire ∧ (if arrives then peer.ri.wire.head? else none) = some p ∧
      (LinkOp.poll arrives tw timedOut).apply self peer
        = (self.withRi (ratpPoll self.ri p.bytes tw timedOut),
          peer.withRi { peer.ri with wire := wire })) ∨
      (if arrives then peer.ri.wire.head? else none) = none ∧
      (LinkOp.poll arrives tw timedOut).apply self peer
        = (self.withRi (ratpPoll self.ri [] tw timedOut), peer) := by
  cases arrives with
  | false => exact .inr ⟨rfl, rfl⟩
  | true =>
    unfold LinkOp.apply
    cases peer.ri.wire with
    | nil => exact .inr ⟨rfl, rfl⟩
    | cons p wire => exact .inl ⟨p, wire, rfl, rfl, rfl⟩

/-- Both ends are open, and the peers they stand for are connected. -/
def Opened (self peer : Endpoint) : Prop :=
  ∃ x y, Agrees self x ∧ Agrees peer y ∧
    Connected x y (self.ri.wire.map frameOf) (peer.ri.wire.map frameOf)

theorem Opened.symm (h : Opened self peer) : Opened peer self := by
  obtain ⟨x, y, hx, hy, hc⟩ := h
  exact ⟨y, x, hy, hx, hc.symm⟩

/-- One end moves, and packets underway to it are taken. -/
theorem Opened.of_joined {wire : List Packet} (hy : Agrees peer y)
    (hj : Joined self y (wire.map frameOf)) (hsub : wire.Sublist peer.ri.wire) :
    Opened self (peer.withRi { peer.ri with wire := wire }) := by
  obtain ⟨x, hx, hc⟩ := hj
  exact ⟨x, y, hx, { hy with plain := fun p hp => hy.plain p (hsub.mem hp) }, hc⟩

/-- The step on an open link: both ends stay joined, whatever is lost. -/
theorem Opened.apply {op : LinkOp} (h : Opened self peer) (hstays : Stays self (op.apply self peer).1)
    (hsized : op.Sized) (hfresh : op.Fresh self peer) :
    Opened (op.apply self peer).1 (op.apply self peer).2 := by
  obtain ⟨x, y, hx, hy, hc⟩ := h
  have hall : peer.ri.wire.Sublist peer.ri.wire := List.Sublist.refl _
  cases op with
  | send data =>
    rcases LinkOp.apply_send self peer data with ⟨ri, hsend, happly⟩ | happly
    · rw [happly]
      have hj : Joined self y (peer.ri.wire.map frameOf) := ⟨x, hx, hc⟩
      exact Opened.of_joined hy (hj.send hsend hsized) hall
    · rw [happly]
      exact ⟨x, y, hx, hy, hc⟩
  | poll arrives tw timedOut =>
    have hfresh : timedOut = true → self.ri.UpToDate (if arrives then peer.ri.wire.head? else none) := by
      rintro rfl
      exact hfresh
    rcases LinkOp.apply_poll self peer arrives tw timedOut with ⟨p, wire, hwire, harrives, happly⟩ | ⟨hnone, happly⟩
    · rw [harrives] at hfresh
      rw [happly] at hstays ⊢
      rw [hwire] at hc
      have ht : Taking self p y (wire.map frameOf) := ⟨x, hx, .of_connected hc⟩
      have hp : p.Plain := hy.plain p (by rw [hwire]; exact mem_cons_self)
      refine Opened.of_joined hy (ht.poll hp hstays hfresh) ?_
      rw [hwire]
      exact sublist_cons_self ..
    · rw [hnone] at hfresh
      rw [happly] at hstays ⊢
      have hj : Joined self y (peer.ri.wire.map frameOf) := ⟨x, hx, hc⟩
      exact Opened.of_joined hy (hj.poll hstays hfresh) hall
  | lose i =>
    have hsub := eraseIdx_sublist peer.ri.wire i
    exact Opened.of_joined hy ⟨x, hx, hc.lose (hsub.map frameOf)⟩ hsub

theorem Opened.delivered (h : Opened self peer) : Delivered self peer ∧ Delivered peer self := by
  obtain ⟨x, y, hx, hy, hc⟩ := h
  unfold Delivered
  rw [hx.queued, hy.queued, hx.recvmsg, hy.recvmsg, hx.done, hy.done]
  exact ⟨⟨hc.fwd.accepted, hc.fwd.done_prefix⟩, hc.bwd.accepted, hc.bwd.done_prefix⟩

/-! ## Opening the link -/

/-- An end that has not been given anything to send, in state `s`. -/
structure Quiet (e : Endpoint) (s : RatpState) : Prop where
  state : e.ri.state = s
  queued : e.queued = []
  snSent : e.ri.snSent = false
  snReceived : e.ri.snReceived = false
  recvmsg : e.ri.recvmsg = []
  sendmsg : e.ri.sendmsg = []
  done : e.ri.done = []
  current : e.ri.sendmsgCurrent = none
  recvbuf : e.ri.recvbuf.length = 512
  status : e.ri.status = none

variable {s : RatpState}

theorem Quiet.pollSend (h : Quiet e s) : ratpPollSend e.ri timedOut = e.ri := by
  unfold ratpPollSend ratpSendNextData
  rw [h.current, h.sendmsg]
  rfl

theorem Quiet.withWire (h : Quiet e s) (wire : List Packet) :
    Quiet (e.withRi { e.ri with wire := wire }) s := { h with }

/-- Such an end is a peer to which nothing has happened. -/
theorem Quiet.agrees (h : Quiet e s) (hs : s = .established ∨ s = .synReceived)
    (hwire : e.ri.wire = []) : Agrees e .blank :=
  { state := by
      rw [h.state]
      exact hs.imp_right fun hs => ⟨hs, rfl, rfl⟩
    queued := h.queued
    sized := nofun
    snSent := h.snSent
    snReceived := h.snReceived
    recvmsg := h.recvmsg
    sendmsg := h.sendmsg
    done := h.done
    current := h.current
    sendbuf := by
      intro m hm
      rw [h.current] at hm
      cases hm
    recvbuf := h.recvbuf
    status := h.status
    plain := by
      intro p hp
      rw [hwire] at hp
      cases hp }

/-- Nothing can be sent yet, and nothing happens unless a packet arrives. -/
theorem Quiet.apply (h : Quiet self s) (hs : s ≠ .established) (peer : Endpoint) (op : LinkOp) :
    (∃ wire, wire.Sublist peer.ri.wire ∧
        op.apply self peer = (self, peer.withRi { peer.ri with wire := wire })) ∨
      ∃ p wire tw timedOut, peer.ri.wire = p :: wire ∧
        op.apply self peer = (self.withRi (ratpPoll self.ri p.bytes tw timedOut),
          peer.withRi { peer.ri with wire := wire }) := by
  have hall : peer.ri.wire.Sublist peer.ri.wire := List.Sublist.refl _
  cases op with
  | send data =>
    refine .inl ⟨peer.ri.wire, hall, ?_⟩
    have hsend : ratpSendComplete self.ri data = .error .ENETDOWN :=
      if_pos (by rw [h.state]; exact hs)
    rw [LinkOp.apply, hsend]
    rfl
  | poll arrives tw timedOut =>
    rcases LinkOp.apply_poll self peer arrives tw timedOut with ⟨p, wire, hwire, -, happly⟩ | ⟨-, happly⟩
    · exact .inr ⟨p, wire, tw, timedOut, hwire, happly⟩
    · refine .inl ⟨peer.ri.wire, hall, happly.trans ?_⟩
      have hpoll : ratpPoll self.ri [] tw timedOut = self.ri := h.pollSend
      rw [hpoll]
      rfl
  | lose i => exact .inl ⟨_, eraseIdx_sublist .., rfl⟩

def synPacket : Packet := .hdr { syn := true }

def synAckPacket : Packet := ⟨{ syn := true, ack := true, an := true }, 255, []⟩

/-- The passive end answers. -/
theorem Quiet.listen_poll (h : Quiet e .listen) (tw timedOut : Bool) :
    Quiet (e.withRi (ratpPoll e.ri synPacket.bytes tw timedOut)) .synReceived ∧
      (ratpPoll e.ri synPacket.bytes tw timedOut).wire = e.ri.wire ++ [synAckPacket] := by
  let answered : RatpInternal :=
    { e.ri.read synPacket with
      state := .synReceived
      sendbuf := some synAckPacket
      snSent := false
      retransmissionCount := 0
      wire := e.ri.wire ++ [synAckPacket] }
  have hlen : synPacket.bytes.length ≤ 261 := by decide
  have hrun : ratpStateMachine (e.ri.read synPacket) (viewPkt (e.ri.read synPacket).recvbuf)
      = answered := by
    unfold ratpStateMachine
    rw [show (e.ri.read synPacket).state = .listen from h.state, show viewPkt (e.ri.read synPacket).recvbuf = _ from viewPkt_bytes synPacket e.ri.recvbuf]
    rfl
  have hanswered : Quiet (e.withRi answered) .synReceived :=
    { h with
      state := rfl
      snSent := rfl
      recvbuf := RatpInternal.read_length hlen h.recvbuf }
  have hpoll := ratpPoll_packet ⟨(fun _ h => absurd h (by decide)), (fun _ => rfl)⟩ hlen h.recvbuf
    (by rw [h.state]; decide) hrun h.status tw timedOut
  rw [hpoll, show ratpPollSend answered timedOut = answered from hanswered.pollSend]
  exact ⟨hanswered, rfl⟩

/-- The active end is answered. -/
theorem Quiet.synSent_poll (h : Quiet e .synSent) (hwire : e.ri.wire = []) (tw timedOut : Bool) :
    Joined (e.withRi (ratpPoll e.ri synAckPacket.bytes tw timedOut)) .blank [] := by
  let established : RatpInternal :=
    { e.ri.read synAckPacket with snReceived := false, state := .established }
  have hlen : synAckPacket.bytes.length ≤ 261 := by decide
  have hquiet : Quiet (e.withRi established) .established :=
    { h with
      state := rfl
      snReceived := rfl
      recvbuf := RatpInternal.read_length hlen h.recvbuf }
  have hjoined : Joined (e.withRi established) .blank [] := by
    refine ⟨.blank, hquiet.agrees (.inl rfl) hwire, ?_⟩
    rw [show (e.withRi established).ri.wire = [] from hwire]
    exact .blank
  -- behaviour B takes the answer and acknowledges it
  have hrun : ratpStateMachine (e.ri.read synAckPacket) (viewPkt (e.ri.read synAckPacket).recvbuf)
      = ratpSendAck established synAckPacket.control := by
    unfold ratpStateMachine
    rw [show (e.ri.read synAckPacket).state = .synSent from h.state, show viewPkt (e.ri.read synAckPacket).recvbuf = _ from viewPkt_bytes synAckPacket e.ri.recvbuf]
    have han : ratpAnExpected (e.ri.read synAckPacket) synAckPacket.control = true :=
      decide_eq_true (congrArg not h.snSent.symm)
    have hempty : (e.ri.read synAckPacket).sendmsg.isEmpty = true := congrArg List.isEmpty h.sendmsg
    refine (runBehaviours_pass ?_).trans rfl
    unfold ratpBehaviourB ackOrData
    dsimp only
    rw [han, hempty]
    rfl
  have hack : Joined (e.withRi (ratpSendAck established synAckPacket.control)) .blank [] :=
    hjoined.sendAck rfl
  have hpoll := ratpPoll_packet ⟨(fun _ h => absurd h (by decide)), (fun _ => rfl)⟩ hlen h.recvbuf
    (by rw [h.state]; decide) hrun hack.status tw timedOut
  rw [hpoll]
  exact hack.pollSend_idle h.queued

/-- How far the opening of the link has come. There is one `SYN` and one
answer to it; either may be lost, and then nothing ever happens. -/
inductive LinkInv (l : Link) : Prop where
  | hello (ha : Quiet l.active .synSent) (hp : Quiet l.passive .listen)
      (hout : l.active.ri.wire.Sublist [synPacket]) (hback : l.passive.ri.wire = [])
  | answered (ha : Quiet l.active .synSent) (hp : Quiet l.passive .synReceived)
      (hout : l.active.ri.wire = []) (hback : l.passive.ri.wire.Sublist [synAckPacket])
  | opened (h : Opened l.active l.passive)

theorem LinkInv.start {activeBuf passiveBuf : Bytes} (ha : activeBuf.length = 512)
    (hp : passiveBuf.length = 512) : LinkInv (Link.start activeBuf passiveBuf) :=
  .hello ⟨rfl, rfl, rfl, rfl, rfl, rfl, rfl, rfl, ha, rfl⟩
    ⟨rfl, rfl, rfl, rfl, rfl, rfl, rfl, rfl, hp, rfl⟩ (List.Sublist.refl _) rfl

theorem Quiet.delivered {s' : RatpState} (hx : Quiet self s) (hy : Quiet peer s') :
    Delivered self peer := by
  unfold Delivered
  rw [hy.recvmsg, hx.done]
  exact ⟨List.nil_prefix, List.nil_prefix⟩

theorem LinkInv.delivered {l : Link} (h : LinkInv l) :
    Delivered l.active l.passive ∧ Delivered l.passive l.active := by
  cases h with
  | hello ha hp _ _ => exact ⟨ha.delivered hp, hp.delivered ha⟩
  | answered ha hp _ _ => exact ⟨ha.delivered hp, hp.delivered ha⟩
  | opened h => exact h.delivered

theorem nil_of_sublist_cons {α : Type} {a b : α} {l : List α} (h : (a :: l).Sublist [b]) :
    a = b ∧ l = [] := by
  have hlen := h.length_le
  have hl : l = [] := length_eq_zero_iff.mp (by
    rw [length_cons, length_singleton] at hlen
    omega)
  subst hl
  exact ⟨mem_singleton.mp (h.mem (mem_cons_self)), rfl⟩

/-- The first packet opens the link, from one end and then from the other. -/
theorem LinkInv.step {l : Link} {a : End × LinkOp} (h : LinkInv l) (hadm : l.Admissible a)
    (hfresh : l.Fresh a) : LinkInv (l.step a) := by
  obtain ⟨e, op⟩ := a
  cases h with
  | hello ha hp hout hback =>
    -- only the SYN is on its way, and only the passive end can take it
    cases e with
    | active =>
      rcases ha.apply (by decide) l.passive op with
        ⟨wire, hsub, happly⟩ | ⟨p, wire, _, _, hwire, _⟩
      · show LinkInv ⟨(op.apply _ _).1, (op.apply _ _).2⟩
        rw [happly]
        rw [hback] at hsub
        exact .hello ha (hp.withWire wire) hout (sublist_nil.mp hsub)
      · rw [hback] at hwire
        cases hwire
    | passive =>
      show LinkInv ⟨(op.apply _ _).2, (op.apply _ _).1⟩
      rcases hp.apply (by decide) l.active op with
        ⟨wire, hsub, happly⟩ | ⟨p, wire, tw, timedOut, hwire, happly⟩
      · rw [happly]
        exact .hello (ha.withWire wire) hp (hsub.trans hout) hback
      rw [happly]
      rw [hwire] at hout
      obtain ⟨rfl, rfl⟩ := nil_of_sublist_cons hout
      obtain ⟨hquiet, hsent⟩ := hp.listen_poll tw timedOut
      refine .answered (ha.withWire []) hquiet rfl ?_
      show (ratpPoll _ _ _ _).wire.Sublist _
      rw [hsent, hback]
      exact List.Sublist.refl _
  | answered ha hp hout hback =>
    -- the answer to it opens the active end
    cases e with
    | active =>
      show LinkInv ⟨(op.apply _ _).1, (op.apply _ _).2⟩
      rcases ha.apply (by decide) l.passive op with
        ⟨wire, hsub, happly⟩ | ⟨p, wire, tw, timedOut, hwire, happly⟩
      · rw [happly]
        exact .answered ha (hp.withWire wire) hout (hsub.trans hback)
      rw [happly]
      rw [hwire] at hback
      obtain ⟨rfl, rfl⟩ := nil_of_sublist_cons hback
      obtain ⟨x, hx, hc⟩ := ha.synSent_poll hout tw timedOut
      exact .opened ⟨x, .blank, hx, (hp.withWire []).agrees (.inr rfl) rfl, hc⟩
    | passive =>
      show LinkInv ⟨(op.apply _ _).2, (op.apply _ _).1⟩
      rcases hp.apply (by decide) l.active op with
        ⟨wire, hsub, happly⟩ | ⟨p, wire, _, _, hwire, _⟩
      · rw [happly]
        rw [hout] at hsub
        exact .answered (ha.withWire wire) hp (sublist_nil.mp hsub) hback
      · rw [hout] at hwire
        cases hwire
  | opened h =>
    cases e with
    | active =>
      exact .opened (h.apply hadm.1.1 hadm.2 hfresh)
    | passive =>
      exact .opened (h.symm.apply hadm.1.2 hadm.2 hfresh).symm

/-- **Delivery**: from the opening of the link on, in every run in which no
end leaves `ESTABLISHED` and nothing outdated is retransmitted, the chunks
received at either end are the first of those queued at the other, and what
is done has been received. -/
theorem link_delivered {activeBuf passiveBuf : Bytes} (ha : activeBuf.length = 512)
    (hp : passiveBuf.length = 512) (ops : List (End × LinkOp))
    (hadm : Along Link.step Link.Admissible (Link.start activeBuf passiveBuf) ops)
    (hfresh : Along Link.step Link.Fresh (Link.start activeBuf passiveBuf) ops) :
    let l := run Link.step (Link.start activeBuf passiveBuf) ops
    Delivered l.active l.passive ∧ Delivered l.passive l.active := by
  have hinv : LinkInv (run Link.step (Link.start activeBuf passiveBuf) ops) :=
    run_inv (fun _ _ h hok => h.step hok.1 hok.2) ops (hadm.and hfresh) (.start ha hp)
  exact hinv.delivered

/-- Buffers of zeros. -/
def Link.startZero : Link := .start (replicate 512 0) (replicate 512 0)

/-- The link is opened, and a message sent each way; one of them is lost and
sent again. -/
def resendOps : List (End × LinkOp) :=
  [(.passive, .poll true false false), (.active, .poll true false false),
    (.passive, .poll true false false), (.active, .send [1, 2]), (.passive, .send [3, 4]),
    (.active, .poll false false false), (.passive, .lose 0), (.active, .poll false false true),
    (.passive, .poll true false false), (.active, .poll true false false)]

theorem link_delivered_resend : Delivered (run Link.step .startZero resendOps).active
        (run Link.step .startZero resendOps).passive ∧
      Delivered (run Link.step .startZero resendOps).passive
        (run Link.step .startZero resendOps).active :=
  link_delivered length_replicate length_replicate resendOps (by decide +kernel)
    (by decide +kernel)

/-- The passive end has a packet underway that is lost. It accepts a first
chunk, and acknowledges it; the second chunk is lost. The packet is
retransmitted with the acknowledgement it was made with, which is what the
active end waits for. -/
def staleOps : List (End × LinkOp) :=
  [(.passive, .poll true false false), (.active, .poll true false false),
    (.passive, .poll true false false), (.passive, .send [9, 9]),
    (.passive, .poll false false false), (.active, .lose 0), (.active, .send [1, 1]),
    (.active, .poll false false false), (.passive, .poll true false false),
    (.active, .poll true false false), (.active, .send [2, 2]),
    (.active, .poll false false false), (.passive, .lose 0),
    (.passive, .poll false false true), (.active, .poll true false false)]

/-- The second chunk is done at the active end, and was never received. -/
theorem link_stale_retransmission :
    ¬ ∀ (activeBuf passiveBuf : Bytes) (ops : List (End × LinkOp)), activeBuf.length = 512 →
        passiveBuf.length = 512 →
        Along Link.step Link.Admissible (Link.start activeBuf passiveBuf) ops →
          let l := run Link.step (Link.start activeBuf passiveBuf) ops
          Delivered l.active l.passive ∧ Delivered l.passive l.active := by
  intro h
  have hlost := h (replicate 512 0) (replicate 512 0) staleOps length_replicate
    length_replicate (by decide +kernel)
  have hdone : ¬ Delivered (run Link.step .startZero staleOps).active
      (run Link.step .startZero staleOps).passive := by
    decide +kernel
  exact hdone hlost.1

end Barebox.Ratp
