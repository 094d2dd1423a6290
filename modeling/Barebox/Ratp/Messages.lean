import Barebox.Ratp.Model

/-!
# RATP messages, in and out

Two things have to hold for a message to arrive as it was sent, once its
packets arrive: its chunks have to come out of the packets as they went in,
and `ratp_recv` has to put the chunks of one message together, and no more.

`ratp_recv` measures up to the first end of a message and then copies the
whole queue. So messages come out one per call exactly if there is never
more than one in the queue (`recv_framed_iff`).

A chunk of a single byte is sent in the length field, and `msg_recv` takes
the length field for a length: it only treats a zero as data. So a message
arrives unless its last chunk has one byte, that byte is not zero, and the
receive buffer does not happen to hold the same byte
(`chunks_transferred_iff`).
-/

namespace Barebox.Ratp

open Lib List

/-! ## Framing -/

/-- A message in chunks: the last one, and those in front of it. -/
structure Chunked where
  init : List Bytes
  last : Bytes

def Chunked.bytes (m : Chunked) : Bytes := m.init.flatten ++ m.last

/-- Chunks in the receive queue that do not end a message. -/
def openChunks (chunks : List Bytes) : List RatpMessage := chunks.map fun c => ⟨c, false⟩

/-- A whole message in the receive queue. -/
def Chunked.queue (m : Chunked) : List RatpMessage := openChunks m.init ++ [⟨m.last, true⟩]

/-- Messages, and the beginning of another one. -/
def queueOf (msgs : List Chunked) (rest : List Bytes) : List RatpMessage :=
  msgs.flatMap Chunked.queue ++ openChunks rest

/-- `n` calls of `ratp_recv`. -/
def recvCalls : Nat → RatpInternal → List (Except Errno Bytes) × RatpInternal
  | 0, ri => ([], ri)
  | n + 1, ri =>
    let (r, ri) := ratpRecv ri
    let (rs, ri) := recvCalls n ri
    (r :: rs, ri)

/-- An open connection with this receive queue. -/
def RatpInternal.withQueue (ri : RatpInternal) (recvmsg : List RatpMessage) : RatpInternal :=
  { ri with state := .established, recvmsg := recvmsg }

/-- One message per call, then `-EAGAIN`, and what is not complete stays. -/
def Framed (ri : RatpInternal) (msgs : List Chunked) (rest : List Bytes) : Prop :=
  recvCalls (msgs.length + 1) (ri.withQueue (queueOf msgs rest))
    = (msgs.map (fun m => .ok m.bytes) ++ [.error .EAGAIN], ri.withQueue (openChunks rest))

theorem flatMap_openChunks (chunks : List Bytes) :
    (openChunks chunks).flatMap (·.buf) = chunks.flatten := by
  unfold openChunks
  rw [flatMap_map]
  exact flatMap_id'

theorem eorLength_openChunks (chunks : List Bytes) : eorLength (openChunks chunks) = none := by
  induction chunks with
  | nil => rfl
  | cons c chunks ih =>
    show (eorLength (openChunks chunks)).map _ = none
    rw [ih]
    rfl

/-- The first loop finds the first message. -/
theorem eorLength_queue (m : Chunked) (l : List RatpMessage) :
    eorLength (m.queue ++ l) = some m.bytes.length := by
  obtain ⟨init, last⟩ := m
  induction init with
  | nil => rfl
  | cons c init ih =>
    show (eorLength ((Chunked.mk init last).queue ++ l)).map (c.length + ·) = _
    rw [ih]
    show some (c.length + (init.flatten ++ last).length) = some (c ++ init.flatten ++ last).length
    rw [length_append, length_append, length_append, Nat.add_assoc]

theorem ratpRecv_open (ri : RatpInternal) {q : List RatpMessage} (h : eorLength q = none) :
    ratpRecv (ri.withQueue q) = (.error .EAGAIN, ri.withQueue q) := by
  unfold ratpRecv
  rw [if_neg (fun hne => hne rfl), show eorLength (ri.withQueue q).recvmsg = none from h]

/-- A call with a message at the head of the queue: it takes all there is,
or writes past the end of its buffer. -/
theorem ratpRecv_message (ri : RatpInternal) (m : Chunked) (l : List RatpMessage) :
    ratpRecv (ri.withQueue (m.queue ++ l))
      = if l.flatMap (·.buf) = [] then (.ok m.bytes, ri.withQueue [])
        else (.error .EFAULT, ri.withQueue (m.queue ++ l)) := by
  have hcopied : (ri.withQueue (m.queue ++ l)).recvmsg.flatMap (·.buf)
      = m.bytes ++ l.flatMap (·.buf) := by
    show (m.queue ++ l).flatMap (·.buf) = _
    rw [flatMap_append, Chunked.queue, flatMap_append, flatMap_openChunks]
    show m.init.flatten ++ (m.last ++ []) ++ _ = _
    rw [append_nil]
    rfl
  unfold ratpRecv
  rw [if_neg (fun hne => hne rfl), show eorLength (ri.withQueue (m.queue ++ l)).recvmsg
    = some m.bytes.length from eorLength_queue m l]
  dsimp only
  rw [hcopied, length_append]
  by_cases hnil : l.flatMap (·.buf) = []
  · rw [if_neg (by rw [hnil, length_nil]; omega), hnil, append_nil]
    rfl
  · have hpos := length_pos_iff.mpr hnil
    rw [if_neg hnil, if_pos (by omega)]

/-- Calls that find no message. -/
theorem recvCalls_open (ri : RatpInternal) {q : List RatpMessage} (h : eorLength q = none) :
    ∀ n, recvCalls n (ri.withQueue q) = (replicate n (.error .EAGAIN), ri.withQueue q) := by
  intro n
  induction n with
  | zero => rfl
  | succ n ih =>
    rw [recvCalls, ratpRecv_open ri h]
    dsimp only
    rw [ih]
    rfl

/-- **Framing** works exactly when the queue holds one whole message, or
none. -/
theorem recv_framed_iff (ri : RatpInternal) (msgs : List Chunked) (rest : List Bytes) :
    Framed ri msgs rest ↔ msgs = [] ∨ ∃ m, msgs = [m] ∧ rest = [] := by
  unfold Framed
  cases msgs with
  | nil =>
    refine ⟨fun _ => Or.inl rfl, fun _ => ?_⟩
    exact recvCalls_open ri (eorLength_openChunks rest) 1
  | cons m ms =>
    have hqueue : queueOf (m :: ms) rest = m.queue ++ queueOf ms rest := by
      unfold queueOf
      rw [flatMap_cons, append_assoc]
    rw [length_cons, recvCalls, hqueue, ratpRecv_message]
    by_cases hl : (queueOf ms rest).flatMap (·.buf) = []
    · rw [if_pos hl]
      -- nothing is left in the queue, so the further calls return EAGAIN
      dsimp only
      rw [recvCalls_open ri rfl (ms.length + 1)]
      constructor
      · intro h
        obtain ⟨hresults, hri⟩ := Prod.mk.inj h
        have hopen : openChunks rest = [] := (congrArg RatpInternal.recvmsg hri).symm
        have hms : replicate (ms.length + 1) (Except.error Errno.EAGAIN)
            = ms.map (fun m => .ok m.bytes) ++ [.error .EAGAIN] := (List.cons.inj hresults).2
        cases ms with
        | nil => exact Or.inr ⟨m, rfl, map_eq_nil_iff.mp hopen⟩
        | cons m' ms =>
          have hhead := (List.cons.inj hms).1
          cases hhead
      · intro h
        rcases h with h | ⟨m', h, rfl⟩
        · cases h
        · cases h
          rfl
    · -- what is left is copied past the end of the buffer
      rw [if_neg hl]
      constructor
      · intro h
        have hhead := (List.cons.inj (Prod.mk.inj h).1).1
        cases hhead
      · intro h
        rcases h with h | ⟨m', h, rfl⟩
        · cases h
        · cases h
          exact absurd rfl hl

/-- Two messages of one byte each. -/
theorem recv_framed_two :
    ¬ ∀ (ri : RatpInternal) (msgs : List Chunked) (rest : List Bytes), Framed ri msgs rest := by
  intro h
  have htwo := h (ratpStart false []) [⟨[], [1]⟩, ⟨[], [2]⟩] []
  have hoks := congrArg (fun x => x.1.map Except.isOk) htwo
  revert hoks
  decide +kernel

/-! ## Cutting a message into chunks -/

theorem intLen_of_lt {len : Nat} (h : len < 2 ^ 31) : intLen len = len := by
  unfold intLen
  omega

theorem cutChunks_succ (n : Nat) {data : Bytes} (h : data ≠ []) :
    cutChunks (n + 1) data = if min (intLen data.length) 255 ≤ 0 then none
      else (cutChunks n (data.drop (min (intLen data.length) 255).toNat)).map
        (data.take (min (intLen data.length) 255).toNat :: ·) := by
  cases data with
  | nil => exact absurd rfl h
  | cons b data => rfl

/-- Messages that are too long for an `int` are not cut. -/
theorem length_lt_of_cutChunks : ∀ {n : Nat} {data : Bytes} {chunks : List Bytes},
    cutChunks n data = some chunks → data.length < 2 ^ 31
  | _, [], _, _ => by
    decide
  | 0, _ :: _, _, h => by cases h
  | n + 1, b :: data, chunks, h => by
    rw [cutChunks_succ n (cons_ne_nil b data)] at h
    split at h
    · cases h
    next hnow =>
    obtain ⟨rest, hrest, -⟩ := Option.map_eq_some_iff.mp h
    have hlt := length_lt_of_cutChunks hrest
    rw [length_drop] at hlt
    unfold intLen at hnow hlt
    split at hnow <;> omega

/-- A message of less than `2 ^ 31` bytes is cut into pieces of 255 bytes,
and a last one of 1 to 255 bytes. -/
theorem cutChunks_eq : ∀ {n : Nat} {data : Bytes}, data.length ≤ n → data.length < 2 ^ 31 →
    data ≠ [] → ∃ full last, cutChunks n data = some (full ++ [last]) ∧
      (∀ c ∈ full, c.length = 255) ∧ 1 ≤ last.length ∧ last.length ≤ 255 ∧
      full.flatten ++ last = data
  | 0, data, hn, _, hne => absurd (length_eq_zero_iff.mp (Nat.le_zero.mp hn)) hne
  | n + 1, data, hn, hlt, hne => by
    have hpos := length_pos_iff.mpr hne
    have hcut : cutChunks (n + 1) data
        = (cutChunks n (data.drop (min data.length 255))).map
            (data.take (min data.length 255) :: ·) := by
      have hnow : (min (data.length : Int) 255).toNat = min data.length 255 := by omega
      rw [cutChunks_succ n hne, intLen_of_lt hlt, if_neg (by omega), hnow]
    by_cases hlast : data.length ≤ 255
    · refine ⟨[], data, ?_, nofun, hpos, hlast, rfl⟩
      rw [hcut, Nat.min_eq_left hlast, drop_length, take_length]
      cases n with
      | zero => rfl
      | succ n => rfl
    · have hdrop : (data.drop 255).length = data.length - 255 := length_drop
      obtain ⟨full, last, hrest, hfull, hlo, hhi, hflat⟩ :=
        cutChunks_eq (show (data.drop 255).length ≤ n by omega) (by omega)
          (fun h => by rw [h, length_nil] at hdrop; omega)
      refine ⟨data.take 255 :: full, last, ?_, ?_, hlo, hhi, ?_⟩
      · rw [hcut, Nat.min_eq_right (by omega), hrest]
        rfl
      · exact forall_mem_cons.mpr ⟨by rw [length_take]; omega, hfull⟩
      · rw [flatten_cons, append_assoc, hflat, take_append_drop]

variable {full : List Bytes} {last buf : Bytes} {m : RatpMessage}

/-- The last chunk is a single byte just if the length is one more than a multiple of 255. -/
theorem length_mod_chunks (hfull : ∀ c ∈ full, c.length = 255) (hlo : 1 ≤ last.length) (hhi : last.length ≤ 255) :
    (full.flatten ++ last).length % 255 = 1 ↔ last.length = 1 := by
  have hsum : full.flatten.length = 255 * full.length := by
    induction full with
    | nil => rfl
    | cons c full ih =>
      rw [flatten_cons, length_append, length_cons,
        ih (fun d hd => hfull d (mem_cons_of_mem _ hd)), hfull c (mem_cons_self)]
      omega
  rw [length_append]
  omega

/-- The last chunk ends the record. -/
theorem toMessages_concat :
    toMessages (full ++ [last]) = openChunks full ++ [⟨last, true⟩] := by
  induction full with
  | nil => rfl
  | cons c full ih =>
    have hcons : ∀ l : List Bytes, l ≠ [] → toMessages (c :: l) = ⟨c, false⟩ :: toMessages l := by
      intro l hl
      obtain ⟨d, l, rfl⟩ := exists_cons_of_ne_nil hl
      rfl
    rw [cons_append, hcons _ (by simp), ih]
    rfl

/-! ## From sender to receiver -/

/-- `n` data packets are made, each acknowledged before the next one; `acks`
are the values `sn_received` has at those times. -/
def sendChunks (acks : Nat → Bool) : Nat → RatpInternal → RatpInternal
  | 0, ri => ri
  | n + 1, ri =>
    sendChunks acks n
      { ratpSendNextData { ri with snReceived := acks n } with sendmsgCurrent := none }

/-- `n` packets are read from a stream, and put into the receive queue. -/
def recvChunks : Nat → RatpInternal → Bytes → RatpInternal
  | 0, ri, _ => ri
  | n + 1, ri, s =>
    match ratpRecvPkt ri.recvbuf s with
    | (.ok, buf, s) => recvChunks n (msgRecv { ri with recvbuf := buf } (viewPkt buf)) s
    | (.err _, buf, _) => { ri with recvbuf := buf }

/-- A message is queued at an idle sender, its packets go byte by byte to a
receiver with an empty queue, and what arrives is the message. -/
def Transferred (snd rcv : RatpInternal) (acks : Nat → Bool) (data : Bytes) : Prop :=
  ∃ snd', ratpSendComplete
      { snd with state := .established, sendmsgCurrent := none, sendmsg := [], wire := [] } data
      = .ok snd' ∧
    (recvChunks snd'.sendmsg.length { rcv with recvmsg := [] }
      ((sendChunks acks snd'.sendmsg.length snd').wire.flatMap Packet.bytes)).recvmsg.flatMap (·.buf)
      = data

/-- The first byte behind the header in the receive buffer when the last
packet arrives. -/
def staleByte (recvbuf data : Bytes) : UInt8 :=
  if data.length = 1 then recvbuf.getD 4 0 else data.getD (data.length - 256) 0

/-- A last chunk of one byte is zero, or it is one and so is the byte that
is left in the receive buffer. -/
def LastByteOk (recvbuf data : Bytes) : Prop :=
  data.length % 255 = 1 →
    data.getLast? = some 0 ∨ (data.getLast? = some 1 ∧ staleByte recvbuf data = 1)

/-- The packets made for messages, whatever their numbers. -/
def PacketsFor (ms : List RatpMessage) (ps : List Packet) : Prop :=
  List.Forall₂ (fun m p => ∃ sn an, p = dataPacket m sn an) ms ps

/-- Each chunk goes out in a packet of its own, in order. -/
theorem sendChunks_wire (acks : Nat → Bool) : ∀ (ms : List RatpMessage) {ri : RatpInternal},
    ri.sendmsg = ms → ri.sendmsgCurrent = none →
      ∃ ps, (sendChunks acks ms.length ri).wire = ri.wire ++ ps ∧ PacketsFor ms ps
  | [], ri, _, _ => ⟨[], (append_nil _).symm, .nil⟩
  | m :: ms, ri, hmsg, hcur => by
    let ri₁ : RatpInternal :=
      { ratpSendNextData { ri with snReceived := acks ms.length } with sendmsgCurrent := none }
    have hqueue : ri₁.sendmsg = ms ∧
        ri₁.wire = ri.wire ++ [dataPacket m (!ri.snSent) (!acks ms.length)] := by
      show (ratpSendNextData _).sendmsg = ms ∧ (ratpSendNextData _).wire = _
      unfold ratpSendNextData
      rw [hcur, hmsg]
      unfold ratpSendPkt
      dsimp only
      split
      · exact ⟨rfl, rfl⟩
      · exact ⟨rfl, rfl⟩
    obtain ⟨ps, hwire, hall⟩ := sendChunks_wire acks ms hqueue.1 rfl
    refine ⟨dataPacket m (!ri.snSent) (!acks ms.length) :: ps, ?_, .cons ⟨_, _, rfl⟩ hall⟩
    show (sendChunks acks ms.length ri₁).wire = _
    rw [hwire, hqueue.2, append_assoc]
    rfl

/-- What `msg_recv` makes of a chunk, with `buf` the receive buffer before
its packet arrives. -/
def received (buf : Bytes) : Bytes → Bytes
  | [b] => if b = 0 then [0] else slice 4 b.toNat buf
  | c => c

theorem received_single (b : UInt8) :
    received buf [b] = if b = 0 then [0] else slice 4 b.toNat buf := rfl

theorem received_long (buf : Bytes) {c : Bytes} (h : c.length ≠ 1) : received buf c = c := by
  unfold received
  split
  · exact absurd rfl h
  · rfl

theorem dataPacket_long (h : m.buf.length ≠ 1) (sn an : Bool) :
    dataPacket m sn an = ⟨{ sn := sn, an := an, ack := true, eor := m.eor },
      UInt8.ofNat m.buf.length, m.buf⟩ := by
  unfold dataPacket
  split
  · next hb =>
    rw [hb] at h
    exact absurd rfl h
  · rfl

theorem dataPacket_single {b : UInt8} (h : m.buf = [b]) (sn an : Bool) : dataPacket m sn an
      = ⟨{ sn := sn, an := an, ack := true, eor := m.eor, so := true }, b, []⟩ := by
  unfold dataPacket
  rw [h]

/-- The packet of a chunk fits the receive buffer, and is what it says. -/
theorem dataPacket_sized (hlen : m.buf.length ≤ 255) (sn an : Bool) :
    (dataPacket m sn an).Sized ∧ (dataPacket m sn an).bytes.length ≤ 261 := by
  by_cases hone : m.buf.length = 1
  · obtain ⟨b, hb⟩ := length_eq_one_iff.mp hone
    rw [dataPacket_single hb]
    exact ⟨⟨nofun, (fun _ => rfl)⟩, (by decide : 4 ≤ 261)⟩
  · rw [dataPacket_long hone]
    refine ⟨⟨fun _ _ => ?_, fun hbare => ?_⟩, ?_⟩
    · rw [UInt8.toNat_ofNat', Nat.mod_eq_of_lt (by omega)]
    · rcases hbare with h | h
      · cases h
      · cases h
    · rw [Packet.bytes_eq, length_append]
      show 4 + _ ≤ 261
      split
      · decide
      · rw [length_append]
        show 4 + (m.buf.length + 2) ≤ 261
        omega

/-- One chunk arrives. -/
theorem recvMessage_dataPacket (hlo : 1 ≤ m.buf.length) (hhi : m.buf.length ≤ 255) (sn an : Bool) :
    recvMessage (viewPkt (overwrite 0 (dataPacket m sn an).bytes buf))
      = ⟨received buf m.buf, m.eor⟩ := by
  rw [viewPkt_bytes]
  by_cases hone : m.buf.length = 1
  · obtain ⟨b, hb⟩ := length_eq_one_iff.mp hone
    rw [dataPacket_single hb, hb, received_single]
    unfold recvMessage
    by_cases hzero : b = 0
    · rw [if_neg (not_not_intro hzero), if_pos hzero, hzero]
    · rw [if_pos hzero, if_neg hzero]
      refine congrArg (RatpMessage.mk · m.eor) (slice_overwrite_after ?_ (Nat.zero_le _))
      exact Nat.le_refl 4
  · have hlen : (UInt8.ofNat m.buf.length).toNat = m.buf.length := by
      exact Nat.mod_eq_of_lt (by omega)
    rw [received_long buf hone, dataPacket_long hone, slice_bytes buf hlen.symm]
    unfold recvMessage
    rw [if_pos]
    intro hzero
    rw [show (UInt8.ofNat m.buf.length) = 0 from hzero] at hlen
    have : (0 : UInt8).toNat = 0 := rfl
    omega

/-- A chunk leaves its first byte behind the header. -/
theorem getD_dataPacket (h : 2 ≤ m.buf.length) (sn an : Bool) (buf : Bytes) :
    (overwrite 0 (dataPacket m sn an).bytes buf).getD 4 0 = m.buf.getD 0 0 := by
  rw [dataPacket_long (by omega)]
  cases hb : m.buf with
  | nil =>
    rw [hb] at h
    exact absurd h (by decide)
  | cons x c =>
    rfl

/-- The receiver after one more packet. -/
theorem recvChunks_succ {ri : RatpInternal} (hlo : 1 ≤ m.buf.length)
    (hhi : m.buf.length ≤ 255) (hbuf : ri.recvbuf.length = 512) (sn an : Bool) (n : Nat) (s : Bytes) :
    recvChunks (n + 1) ri ((dataPacket m sn an).bytes ++ s)
      = recvChunks n
          { ri with
            recvbuf := overwrite 0 (dataPacket m sn an).bytes ri.recvbuf
            recvmsg := ri.recvmsg ++ [⟨received ri.recvbuf m.buf, m.eor⟩] } s := by
  obtain ⟨hsized, hlen⟩ := dataPacket_sized hhi sn an
  rw [recvChunks, ratpRecvPkt_bytes s hsized (by omega)]
  dsimp only
  rw [msgRecv, recvMessage_dataPacket hlo hhi]

/-- Full chunks arrive as they are, and leave the first byte of the last one
behind the header. -/
theorem recvChunks_full : ∀ (full : List Bytes) {ms : List RatpMessage} {ps : List Packet}
    {ri : RatpInternal} (n : Nat), (∀ c ∈ full, c.length = 255) → ri.recvbuf.length = 512 →
    PacketsFor (openChunks full ++ ms) ps →
    ∃ buf ps', PacketsFor ms ps' ∧ buf.length = 512 ∧ (full = [] → buf = ri.recvbuf) ∧
      (∀ c, full.getLast? = some c → buf.getD 4 0 = c.getD 0 0) ∧
      recvChunks (full.length + n) ri (ps.flatMap Packet.bytes)
        = recvChunks n { ri with recvbuf := buf, recvmsg := ri.recvmsg ++ openChunks full }
            (ps'.flatMap Packet.bytes)
  | [], ms, ps, ri, n, _, hbuf, hps => by
    refine ⟨ri.recvbuf, ps, hps, hbuf, fun _ => rfl, nofun, ?_⟩
    rw [show openChunks [] = [] from rfl, append_nil, length_nil, Nat.zero_add]
  | c :: full, ms, ps, ri, n, hfull, hbuf, hps => by
    cases hps with
    | @cons _ p _ ps hp hps =>
    obtain ⟨sn, an, rfl⟩ := hp
    have hc : c.length = 255 := hfull c (mem_cons_self)
    -- a chunk of 255 bytes is not the last one, so the loop goes on
    let m : RatpMessage := ⟨c, false⟩
    have hlo : 2 ≤ m.buf.length := by
      show 2 ≤ c.length
      omega
    let ri₁ : RatpInternal :=
      { ri with
        recvbuf := overwrite 0 (dataPacket m sn an).bytes ri.recvbuf
        recvmsg := ri.recvmsg ++ [m] }
    have hlen : (dataPacket m sn an).bytes.length ≤ 261 :=
      (dataPacket_sized (Nat.le_of_eq hc) sn an).2
    have hbuf₁ : ri₁.recvbuf.length = 512 := by
      rw [overwrite_length (by omega), hbuf]
    have hstep : recvChunks (full.length + n + 1) ri
        ((dataPacket m sn an).bytes ++ ps.flatMap Packet.bytes)
          = recvChunks (full.length + n) ri₁ (ps.flatMap Packet.bytes) := by
      rw [recvChunks_succ (by omega) (Nat.le_of_eq hc) hbuf, received_long _ (by omega)]
    obtain ⟨buf, ps', hps', hlen', hnil, hlast, hrun⟩ := recvChunks_full full n
      (fun d hd => hfull d (mem_cons_of_mem _ hd)) hbuf₁ hps
    refine ⟨buf, ps', hps', hlen', nofun, ?_, ?_⟩
    · intro d hd
      cases full with
      | nil =>
        cases hd
        rw [hnil rfl]
        exact getD_dataPacket hlo sn an ri.recvbuf
      | cons e full =>
        refine hlast d ?_
        exact hd
    · rw [flatMap_cons, length_cons,
        show full.length + 1 + n = full.length + n + 1 by omega, hstep, hrun]
      rw [append_assoc]
      rfl

/-- The last chunk. -/
theorem received_last_iff (hlo : 1 ≤ last.length) (hbuf : buf.length = 512) : received buf last = last ↔
      (last.length = 1 → last.getLast? = some 0 ∨ (last.getLast? = some 1 ∧ buf.getD 4 0 = 1)) := by
  by_cases hone : last.length = 1
  · obtain ⟨b, rfl⟩ := length_eq_one_iff.mp hone
    rw [received_single]
    by_cases hzero : b = 0
    · rw [hzero]
      exact ⟨fun _ _ => Or.inl rfl, fun _ => rfl⟩
    have hb := b.toNat_lt
    have hlen : (slice 4 b.toNat buf).length = b.toNat := slice_length (by omega)
    have hslice : slice 4 1 buf = [buf.getD 4 0] := slice_one (by omega)
    rw [if_neg hzero]
    constructor
    · intro h _
      rw [h] at hlen
      obtain rfl : b = 1 := UInt8.toNat_inj.mp hlen.symm
      exact Or.inr ⟨rfl, singleton_inj.mp (hslice.symm.trans h)⟩
    · intro h
      rcases h rfl with h | ⟨h, hstale⟩
      · exact absurd (Option.some.inj h) hzero
      · cases h
        exact hslice.trans (congrArg (fun x => [x]) hstale)
  · rw [received_long buf hone]
    exact ⟨fun _ h => absurd h hone, fun _ => rfl⟩

/-- What arrives of a message that was cut into chunks. -/
theorem recvChunks_all {rcv : RatpInternal} {ps : List Packet}
    (hfull : ∀ c ∈ full, c.length = 255) (hlo : 1 ≤ last.length) (hhi : last.length ≤ 255)
    (hbuf : rcv.recvbuf.length = 512) (hps : PacketsFor (openChunks full ++ [⟨last, true⟩]) ps) :
    ∃ buf, buf.length = 512 ∧ (full = [] → buf = rcv.recvbuf) ∧
      (∀ c, full.getLast? = some c → buf.getD 4 0 = c.getD 0 0) ∧
      (recvChunks (full.length + 1) { rcv with recvmsg := [] }
        (ps.flatMap Packet.bytes)).recvmsg.flatMap (·.buf) = full.flatten ++ received buf last := by
  have hbuf : ({ rcv with recvmsg := [] } : RatpInternal).recvbuf.length = 512 := hbuf
  obtain ⟨buf, ps', hps', hlen, hnil, hlast, hrun⟩ := recvChunks_full full 1 hfull hbuf hps
  refine ⟨buf, hlen, hnil, hlast, ?_⟩
  cases hps' with
  | @cons _ p _ ps' hp hrest =>
  obtain ⟨sn, an, rfl⟩ := hp
  rw [hrun, flatMap_cons, recvChunks_succ hlo hhi hlen]
  show ([] ++ openChunks full ++ [RatpMessage.mk (received buf last) true]).flatMap _ = _
  rw [nil_append, flatMap_append, flatMap_openChunks]
  show full.flatten ++ (received buf last ++ []) = _
  rw [append_nil]

theorem getLast?_append_of_pos {a b : Bytes} (h : 1 ≤ b.length) : (a ++ b).getLast? = b.getLast? := by
  rw [getLast?_append, getLast?_eq_some_getLast (ne_nil_of_length_pos h)]
  rfl

/-- The byte in front of a last chunk that has one byte. -/
theorem staleByte_eq {recvbuf : Bytes} (hfull : ∀ c ∈ full, c.length = 255) (hone : last.length = 1)
    (hnil : full = [] → buf = recvbuf) (hlast : ∀ c, full.getLast? = some c → buf.getD 4 0 = c.getD 0 0) :
    staleByte recvbuf (full.flatten ++ last) = buf.getD 4 0 := by
  unfold staleByte
  rcases eq_nil_or_concat full with rfl | ⟨init, c, rfl⟩
  · rw [hnil rfl]
    exact if_pos hone
  rw [concat_eq_append] at *
  have hc : c.length = 255 := hfull c (by simp)
  rw [hlast c (by simp), flatten_append, flatten_singleton, length_append,
    length_append, hone, if_neg (by omega), hc,
    show init.flatten.length + 255 + 1 - 256 = init.flatten.length by omega]
  cases c with
  | nil => cases hc
  | cons x c =>
    rw [append_assoc, getD_eq_getElem?_getD, getElem?_append_right (Nat.le_refl _),
      Nat.sub_self]
    rfl

/-- **A message arrives** as it was sent, from any sender and at any
receiver, if and only if it is shorter than `2 ^ 31` bytes and a last chunk
of one byte is zero (or is one, and found by chance). -/
theorem chunks_transferred_iff (snd rcv : RatpInternal) (acks : Nat → Bool) {data : Bytes}
    (hne : data ≠ []) (hbuf : rcv.recvbuf.length = 512) :
    Transferred snd rcv acks data ↔ data.length < 2 ^ 31 ∧ LastByteOk rcv.recvbuf data := by
  by_cases hlt : data.length < 2 ^ 31
  case neg =>
    refine ⟨fun ⟨snd', hsend, _⟩ => ?_, fun h => absurd h.1 hlt⟩
    unfold ratpSendComplete at hsend
    rw [if_neg (fun h => h rfl), if_neg hne] at hsend
    split at hsend
    · cases hsend
    · next hcut => exact absurd (length_lt_of_cutChunks hcut) hlt
  obtain ⟨full, last, hcut, hfull, hlo, hhi, hflat⟩ := cutChunks_eq (Nat.le_refl _) hlt hne
  let idle : RatpInternal :=
    { snd with state := .established, sendmsgCurrent := none, sendmsg := [], wire := [] }
  let ms := openChunks full ++ [⟨last, true⟩]
  have hsend : ratpSendComplete idle data = .ok { idle with sendmsg := ms } := by
    unfold ratpSendComplete
    rw [if_neg hne, hcut]
    dsimp only
    rw [toMessages_concat]
    rfl
  have hcount : ms.length = full.length + 1 := by
    rw [length_append, openChunks, length_map]
    rfl
  have hqueue : ({ idle with sendmsg := ms } : RatpInternal).sendmsg = ms := rfl
  obtain ⟨ps, hwire, hps⟩ := sendChunks_wire acks ms hqueue rfl
  obtain ⟨buf, hlen, hnil, hstale, hgot⟩ := recvChunks_all hfull hlo hhi hbuf hps
  -- the sum of the chunks, of which all but the last are as they were
  have htransferred : Transferred snd rcv acks data ↔ received buf last = last := by
    have hiff : Transferred snd rcv acks data ↔ full.flatten ++ received buf last = data := by
      constructor
      · rintro ⟨snd', hsnd', hdata⟩
        obtain rfl : { idle with sendmsg := ms } = snd' := Except.ok.inj (hsend.symm.trans hsnd')
        rw [← hdata, hwire, hcount]
        exact hgot.symm
      · intro hdata
        refine ⟨_, hsend, ?_⟩
        rw [hwire, hcount]
        exact hgot.trans hdata
    rw [hiff, ← hflat, append_cancel_left_eq]
  have hmod := length_mod_chunks hfull hlo hhi
  rw [hflat] at hmod
  rw [htransferred, received_last_iff hlo hlen]
  unfold LastByteOk
  rw [hmod, ← hflat, getLast?_append_of_pos hlo]
  constructor
  · intro h
    refine ⟨by rw [hflat]; exact hlt, fun hone => ?_⟩
    rw [staleByte_eq hfull hone hnil hstale]
    exact h hone
  · intro h hone
    have hok := h.2 hone
    rw [staleByte_eq hfull hone hnil hstale] at hok
    exact hok

/-- Three bytes that arrive. -/
theorem chunks_transferred_three :
    Transferred (ratpStart true (replicate 512 0)) (ratpStart false (replicate 512 0))
      (fun _ => true) [1, 2, 3] :=
  (chunks_transferred_iff _ _ _ (by decide) length_replicate).mpr
    ⟨by decide, fun h => absurd h (by decide)⟩

/-- The byte `5` alone is announced in the length octet, and is taken for a
length: five bytes arrive. -/
theorem chunks_single_byte :
    ¬ ∀ (snd rcv : RatpInternal) (acks : Nat → Bool) (data : Bytes), data ≠ [] →
        rcv.recvbuf.length = 512 → Transferred snd rcv acks data := by
  intro h
  obtain ⟨snd', hsend, hgot⟩ := h (ratpStart true (replicate 512 0))
    (ratpStart false (replicate 512 0)) (fun _ => true) [5] (by decide) length_replicate
  cases hsend
  revert hgot
  decide +kernel

end Barebox.Ratp
