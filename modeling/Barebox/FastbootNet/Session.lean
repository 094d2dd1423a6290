import Barebox.Lib.Run
import Barebox.FastbootNet.Model

/-!
# A session

The host starts a session with an `INIT` packet and goes on with `FASTBOOT` packets, the
next one only when the last one was answered. Packets are lost, duplicated and delayed: any
of them may arrive at any time from when it was sent on (`Turn.arrive`).

Numbers are of 16 bits. Two things follow from that:

- with an answer to packet 65535 the number is 0 again, and `fastboot_check_retransmit`
  compares the packet with -1: the answer is not sent again;
- a packet that was underway while 65536 others were answered is taken for a new one.

And after `fastboot_net_abort` there is no answer left that could be sent again.
`session_iff` says that this is all.
-/

namespace Barebox.FastbootNet

open Lib

/-- The host: the number of its first packet, and what its packets have in them -/
structure Host where
  first : UInt16
  data : Nat → Bytes

/-- The header of packet `i` -/
def Host.header (H : Host) (i : Nat) : Header :=
  ⟨if i = 0 then idInit else idFastboot, H.first + UInt16.ofNat i⟩

/-- The device, and what has happened: the packet that the host is at, the answers of the
device, and the packets that it has handed on -/
structure System where
  fbn : Net
  host : Nat
  answers : List Bytes
  handed : List Nat

inductive Turn where
  /-- packet `i` arrives, if the host has sent it -/
  | arrive (i : Nat) (o : Outside)
  /-- the host looks for the device -/
  | query (seq : UInt16)
  /-- an answer reaches the host -/
  | next
  /-- a command writes a message -/
  | write (buf : Bytes)
  | work
  | startDownload (size : Nat)
  | poll

def payloads (l : List Sent) : List Bytes :=
  l.filterMap fun
    | .packet b => some b
    | .fault => none

/-- An answer is what is sent when the number goes up. -/
def System.after (s : System) (r : Net × List Sent) : System :=
  { s with
    fbn := r.1
    answers := if r.1.sequenceNumber = s.fbn.sequenceNumber then s.answers else s.answers ++ payloads r.2 }

def Host.step (H : Host) (s : System) : Turn → System
  | .arrive i o =>
    if s.host < i then s
    else
      let s' := s.after (fastbootHandler s.fbn (H.header i) (H.data i) o)
      if Hands s.fbn (H.header i) then { s' with handed := s.handed ++ [i] } else s'
  | .query seq => s.after (fastbootHandler s.fbn ⟨idQuery, seq⟩ [] ⟨true, none⟩)
  | .next => if s.host < s.answers.length then { s with host := s.host + 1 } else s
  | .write buf => s.after (writeNetFinish s.fbn buf)
  | .work => s.after (fastbootDoWork s.fbn)
  | .startDownload size => { s with fbn := startDownload s.fbn size }
  | .poll => { s with fbn := fastbootPoll s.fbn }

/-- The session begins with the answer to the `INIT` packet, whatever the device did before. -/
def Host.start (H : Host) (before : Net) : System :=
  let r := fastbootHandler { before with sequenceNumber := H.first } (H.header 0) (H.data 0) ⟨true, none⟩
  ⟨r.1, 0, payloads r.2, []⟩

/-! ## What is expected -/

/-- A packet is handed on once, and after those before it; the packet that was answered last
is answered with this answer again. -/
def Host.Once (H : Host) (s : System) : Turn → Prop
  | .arrive i o =>
    i ≤ s.host →
      (Hands s.fbn (H.header i) → ∀ j ∈ s.handed, j < i)
        ∧ (i + 1 = s.answers.length →
          (fastbootHandler s.fbn (H.header i) (H.data i) o).2 = s.answers.getLast?.toList.map .packet)
  | _ => True

/-! ## What it takes -/

/-- No packet comes 65536 answers late when the device waits for the next one, and when the
packet that was answered last comes again its number is not 65535 and there was no abort since. -/
def Host.InTime (H : Host) (s : System) : Turn → Prop
  | .arrive i _ =>
    i ≤ s.host →
      (0 < i → i < s.answers.length → 65536 ∣ s.answers.length - i → s.fbn.sequenceNumberSeen = false →
          ∀ j ∈ s.handed, j < i)
        ∧ (i + 1 = s.answers.length → (H.header i).seq ≠ 65535 ∧ s.fbn.lastPayload ≠ none)
  | _ => True

/-! ## The device -/

/-- What a turn does to the device: the number stays, and the last answer too unless there
was an abort; or it goes up by one with an answer, which is kept. -/
def Moves (fbn : Net) (r : Net × List Sent) : Prop :=
  (fbn.connected = true → r.1.connected = true)
    ∧ ((r.1.sequenceNumber = fbn.sequenceNumber ∧ (r.1.sequenceNumberSeen = false → fbn.sequenceNumberSeen = false)
        ∧ (r.1.lastPayload = fbn.lastPayload ∨ r.1.lastPayload = none))
      ∨ (r.1.sequenceNumber = fbn.sequenceNumber + 1
        ∧ ∃ packet, r.2 = [.packet packet] ∧ r.1.lastPayload = some packet))

theorem Moves.refl (fbn : Net) (sent : List Sent) : Moves fbn (fbn, sent) :=
  ⟨fun h => h, Or.inl ⟨rfl, fun h => h, Or.inl rfl⟩⟩

theorem moves_abort (fbn : Net) (sent : List Sent) : Moves fbn (fastbootNetAbort fbn, sent) :=
  ⟨fun h => h, Or.inl ⟨rfl, fun h => h, Or.inr rfl⟩⟩

theorem moves_send (fbn : Net) (header : Header) (errorMsg : Option Bytes) :
    Moves fbn (fastbootSend fbn header errorMsg) := by
  unfold fastbootSend
  dsimp only
  generalize (if errorMsg.isSome = true then (⟨idError, header.seq⟩ : Header) else header) = sent
  by_cases habort : errorMsg.isSome = true ∧ fbn.sequenceNumber = header.seq ∧ fbn.connected = true
  · split
    next => exact ⟨fun h => h, Or.inr ⟨rfl, _, rfl, rfl⟩⟩
    next => exact moves_abort ..
  · split
    next => exact ⟨fun h => h, Or.inr ⟨rfl, _, rfl, rfl⟩⟩
    next => exact Moves.refl ..

theorem moves_finish (fbn : Net) (buf : Bytes) : Moves fbn (writeNetFinish fbn buf) := by
  unfold writeNetFinish
  split
  next => exact moves_abort ..
  next =>
  split
  next => exact moves_send ..
  next =>
  split
  next => exact moves_send ..
  next => exact ⟨fun h => h, Or.inr ⟨rfl, _, rfl, rfl⟩⟩

theorem moves_write (fbn : Net) (buf : Bytes) : Moves fbn (fastbootWriteNet fbn buf) := by
  unfold fastbootWriteNet
  split
  next => exact Moves.refl ..
  next => exact moves_finish ..

variable {fbn : Net} {r : Net × List Sent} {header : Header} {H : Host} {s : System} {i : Nat}

/-- The other fields do not matter. -/
theorem Moves.congr {fbn' : Net} (h : Moves fbn' r)
    (hsame : fbn'.connected = fbn.connected ∧ fbn'.sequenceNumber = fbn.sequenceNumber
      ∧ fbn'.sequenceNumberSeen = fbn.sequenceNumberSeen ∧ fbn'.lastPayload = fbn.lastPayload) : Moves fbn r := by
  obtain ⟨hconnected, hnumber, hseen, hlast⟩ := hsame
  unfold Moves at h ⊢
  rwa [hconnected, hnumber, hseen, hlast] at h

/-- The session is started anew. -/
theorem Moves.of_abort (h : Moves (fastbootNetAbort { fbn with connected := true }) r) : Moves fbn r := by
  obtain ⟨hconnected, ⟨hnumber, hseen, hlast⟩ | hup⟩ := h
  · exact ⟨fun _ => hconnected rfl, Or.inl ⟨hnumber, hseen, Or.inr (hlast.elim id id)⟩⟩
  · exact ⟨fun _ => hconnected rfl, Or.inr hup⟩

/-- A command or a piece of a download, … -/
theorem moves_handle (header : Header) (data : Bytes) (o : Outside) :
    Moves fbn (fastbootHandleTypeFastboot fbn header data o) := by
  unfold fastbootHandleTypeFastboot
  dsimp only
  generalize (if data = [] then MaySend.message else MaySend.ack) = maySend
  split
  next =>
    split
    next => exact Moves.refl fbn []
    next =>
    unfold fastbootDataDownload
    split
    next => exact (moves_send ..).congr ⟨rfl, rfl, rfl, rfl⟩
    next =>
    split
    next => exact (moves_send ..).congr ⟨rfl, rfl, rfl, rfl⟩
    next => exact (moves_write ..).congr ⟨rfl, rfl, rfl, rfl⟩
  next =>
  split
  next => exact (moves_send ..).congr ⟨rfl, rfl, rfl, rfl⟩
  next =>
  split
  next => exact Moves.refl fbn []
  next => split <;> exact Moves.refl fbn []

/-- … the deferred work, … -/
theorem moves_work : Moves fbn (fastbootDoWork fbn) := by
  unfold fastbootDoWork
  split
  next => exact Moves.refl ..
  next => exact Moves.refl fbn []
  next => exact (moves_write ..).congr ⟨rfl, rfl, rfl, rfl⟩

/-- … the poll … -/
theorem moves_poll (fbn : Net) (sent : List Sent) : Moves fbn (fastbootPoll fbn, sent) := by
  unfold fastbootPoll
  split
  next => exact moves_abort ..
  next => exact Moves.refl ..

/-- … and every packet that is not handed on are moves. -/
theorem moves_handler (h : ¬ Hands fbn header) (data : Bytes) (o : Outside) :
    Moves fbn (fastbootHandler fbn header data o) := by
  unfold fastbootHandler
  split
  next => exact moves_send ..
  next =>
  split
  next =>
    split
    next => exact Moves.refl ..
    next =>
    split
    next => exact (Moves.refl ..).of_abort
    next => exact (moves_send ..).of_abort
  next =>
  split
  next hid =>
    split
    next => exact Moves.refl ..
    next hconnected =>
    split
    next => exact Moves.refl ..
    next hnumber =>
    split
    next hseen =>
      exact absurd ⟨hid, (Bool.not_eq_false _).mp hconnected, Classical.not_not.mp hnumber, hseen⟩ h
    next => exact Moves.refl ..
  next => exact moves_send ..

/-- A packet that is handed on -/
theorem handler_of_hands (h : Hands fbn header) (data : Bytes) (o : Outside) : fastbootHandler fbn header data o
      = fastbootHandleTypeFastboot { fbn with sequenceNumberSeen := true } header data o := by
  obtain ⟨hid, hconnected, hnumber, hseen⟩ := h
  unfold fastbootHandler
  rw [if_neg (by rw [hid]; decide), if_neg (by rw [hid]; decide), if_pos hid, if_neg (by rw [hconnected]; decide),
    if_neg (by rw [hnumber]; exact fun h => h rfl), if_pos hseen]

/-- A packet of the current session is answered. -/
theorem send_current (hnumber : fbn.sequenceNumber = header.seq)
    (hconnected : fbn.connected = true) (hid : header.id ≠ idQuery) : ∃ packet, fastbootSend fbn header none
      = ({ fbn with
            sequenceNumber := fbn.sequenceNumber + 1
            sequenceNumberSeen := false
            lastPayload := some packet }, [.packet packet]) := by
  refine ⟨header.bytes ++ responseData header.id fbn.sequenceNumber [], ?_⟩
  exact if_pos ⟨⟨hnumber, hconnected⟩, hid⟩

/-- The `INIT` packet of a session -/
theorem handler_init (hid : header.id = idInit) (hnumber : header.seq = fbn.sequenceNumber) (data : Bytes) :
    ∃ packet, fastbootHandler fbn header data ⟨true, none⟩
      = ({ fastbootNetAbort { fbn with connected := true } with
            sequenceNumber := fbn.sequenceNumber + 1
            sequenceNumberSeen := false
            lastPayload := some packet }, [.packet packet]) := by
  unfold fastbootHandler
  rw [if_neg (by rw [hid]; decide), if_pos hid, if_neg (fun h => h hnumber)]
  exact @send_current (fastbootNetAbort { fbn with connected := true }) header hnumber.symm rfl (by rw [hid]; decide)

/-- A packet of the session that is not the current one -/
theorem handler_other (hid : header.id = idInit ∨ header.id = idFastboot)
    (hconnected : fbn.connected = true) (hnumber : header.seq ≠ fbn.sequenceNumber) (data : Bytes) (o : Outside) :
    fastbootHandler fbn header data o = (fbn, fastbootCheckRetransmit fbn header) := by
  unfold fastbootHandler
  rcases hid with hid | hid
  · rw [if_neg (by rw [hid]; decide), if_pos hid, if_pos hnumber]
  · rw [if_neg (by rw [hid]; decide), if_neg (by rw [hid]; decide), if_pos hid,
      if_neg (by rw [hconnected]; decide), if_pos hnumber]

/-! ## Along the run -/

structure Host.Inv (H : Host) (s : System) : Prop where
  answered : 0 < s.answers.length
  connected : s.fbn.connected = true
  number : s.fbn.sequenceNumber = H.first + UInt16.ofNat s.answers.length
  last : ∀ payload, s.fbn.lastPayload = some payload → s.answers.getLast? = some payload
  host : s.host ≤ s.answers.length
  handed : ∀ j ∈ s.handed, j ≤ s.answers.length
  unseen : s.fbn.sequenceNumberSeen = false → ∀ j ∈ s.handed, j < s.answers.length

theorem ofNat_succ_add (n : UInt16) (k : Nat) : n + UInt16.ofNat (k + 1) = n + UInt16.ofNat k + 1 := by
  rw [UInt16.ofNat_add, UInt16.add_assoc]
  rfl

theorem add_one_ne (n : UInt16) : n + 1 ≠ n := by
  intro h
  simp at h

/-- A turn of the device, in which `handed` are the packets that were handed on -/
theorem Host.Inv.after (hinv : H.Inv s) {seen : Bool}
    (hmoves : Moves { s.fbn with sequenceNumberSeen := seen } r) {handed : List Nat}
    (hle : ∀ j ∈ handed, j ≤ s.answers.length) (hlt : seen = false → ∀ j ∈ handed, j < s.answers.length) :
    H.Inv { s.after r with handed := handed } := by
  obtain ⟨hconnected, ⟨hnumber, hseen, hlast⟩ | ⟨hnumber, packet, hsent, hlast⟩⟩ := hmoves
  · have hanswers : (s.after r).answers = s.answers := if_pos hnumber
    refine ⟨?_, hconnected hinv.connected, ?_, ?_, ?_, ?_, ?_⟩ <;> dsimp only <;> rw [hanswers]
    · exact hinv.answered
    · exact hnumber.trans hinv.number
    · intro payload hpayload
      rcases hlast with hsame | hnone
      · exact hinv.last payload (hsame ▸ hpayload)
      · exact absurd (hnone ▸ hpayload : none = some payload) nofun
    · exact hinv.host
    · exact hle
    · exact fun h => hlt (hseen h)
  · -- an answer went out and took the next number
    have hne : r.1.sequenceNumber ≠ s.fbn.sequenceNumber := by
      rw [hnumber]
      exact add_one_ne _
    have hanswers : (s.after r).answers = s.answers ++ [packet] := by
      unfold System.after
      rw [if_neg hne, hsent]
      rfl
    have hlength : (s.answers ++ [packet]).length = s.answers.length + 1 := List.length_append
    refine ⟨?_, hconnected hinv.connected, ?_, ?_, ?_, ?_, ?_⟩ <;> dsimp only <;> rw [hanswers]
    · rw [hlength]
      exact Nat.succ_pos _
    · rw [hlength, ofNat_succ_add, ← hinv.number]
      exact hnumber
    · intro payload hpayload
      rw [List.getLast?_concat]
      exact hlast ▸ hpayload
    · rw [hlength]
      exact Nat.le_succ_of_le hinv.host
    · intro j hj
      rw [hlength]
      exact Nat.le_succ_of_le (hle j hj)
    · intro _ j hj
      rw [hlength]
      exact Nat.lt_succ_of_le (hle j hj)

theorem Host.Inv.moves (hinv : H.Inv s) (hmoves : Moves s.fbn r) : H.Inv (s.after r) :=
  hinv.after hmoves hinv.handed hinv.unseen

/-- The step, for every turn of the system. -/
theorem inv_step (H : Host) (s : System) (t : Turn) (hinv : H.Inv s) : H.Inv (H.step s t) := by
  cases t with
  | arrive i o =>
    rw [Host.step]
    split
    next => exact hinv
    next hhost =>
    have hi : i ≤ s.answers.length := by
      have := hinv.host
      omega
    split
    next hhands =>
      rw [handler_of_hands hhands]
      exact hinv.after (moves_handle ..)
        (List.forall_mem_append.mpr ⟨hinv.handed, List.forall_mem_singleton.mpr hi⟩) nofun
    next hhands => exact hinv.moves (moves_handler hhands ..)
  | query seq =>
    -- a query hands nothing to the command layer
    refine hinv.moves (moves_handler ?_ ..)
    exact fun h => absurd h.1 (show idQuery ≠ idFastboot by decide)
  | next =>
    rw [Host.step]
    split
    next hnext => exact { hinv with host := hnext }
    next => exact hinv
  | write buf => exact hinv.moves (moves_finish ..)
  | work => exact hinv.moves (moves_work ..)
  | startDownload size => exact { hinv with }
  | poll =>
    have hpoll := hinv.moves (moves_poll s.fbn [])
    have hsame : s.after (fastbootPoll s.fbn, []) = H.step s .poll := by
      have hnumber : (fastbootPoll s.fbn).sequenceNumber = s.fbn.sequenceNumber := by
        unfold fastbootPoll
        split <;> rfl
      unfold System.after Host.step
      rw [if_pos hnumber]
    rwa [hsame] at hpoll

theorem inv_start (H : Host) (before : Net) : H.Inv (H.start before) := by
  have hnumber : (H.header 0).seq = H.first := UInt16.add_zero _
  obtain ⟨packet, hinit⟩ := @handler_init { before with sequenceNumber := H.first } (H.header 0) rfl hnumber (H.data 0)
  unfold Host.start
  rw [hinit]
  exact ⟨Nat.one_pos, rfl, rfl, fun _ h => h, Nat.zero_le _, nofun, nofun⟩

/-! ## The packets -/

theorem header_seq_eq_iff (H : Host) {n : Nat} (h : i ≤ n) :
    (H.header i).seq = H.first + UInt16.ofNat n ↔ 65536 ∣ n - i := by
  have hcancel : (H.header i).seq = H.first + UInt16.ofNat n ↔ i % 65536 = n % 65536 := by
    rw [Host.header, UInt16.add_right_inj, UInt16.ofNat_eq_iff_mod_eq_toNat, UInt16.toNat_ofNat']
  rw [hcancel]
  omega

/-- Which packets are handed on, in terms of the answers given so far. -/
theorem hands_iff (hinv : H.Inv s) (hi : i ≤ s.answers.length) :
    Hands s.fbn (H.header i) ↔ 0 < i ∧ 65536 ∣ s.answers.length - i ∧ s.fbn.sequenceNumberSeen = false := by
  have hid : (H.header i).id = idFastboot ↔ 0 < i := by
    unfold Host.header
    dsimp only
    split
    next hzero => exact ⟨fun h => absurd h (by decide), fun h => absurd hzero (Nat.ne_of_gt h)⟩
    next hpos => exact ⟨fun _ => Nat.pos_of_ne_zero hpos, fun _ => rfl⟩
  unfold Hands
  rw [hid, hinv.number, header_seq_eq_iff H hi]
  exact and_congr_right fun _ => and_iff_right hinv.connected

/-- The packet that was answered last comes again. -/
theorem repeat_iff (hinv : H.Inv s) (hi : i + 1 = s.answers.length) (o : Outside) :
    (fastbootHandler s.fbn (H.header i) (H.data i) o).2 = s.answers.getLast?.toList.map .packet
      ↔ (H.header i).seq ≠ 65535 ∧ s.fbn.lastPayload ≠ none := by
  have hnext : s.fbn.sequenceNumber = (H.header i).seq + 1 := by
    rw [hinv.number, ← hi, ofNat_succ_add]
    rfl
  have hid : (H.header i).id = idInit ∨ (H.header i).id = idFastboot := by
    unfold Host.header
    split
    next => exact Or.inl rfl
    next => exact Or.inr rfl
  -- the C difference is an `int`, which does not wrap at the request 65535
  have hdifference : ((H.header i).seq.toNat : Int) = (s.fbn.sequenceNumber.toNat : Int) - 1
      ↔ (H.header i).seq ≠ 65535 := by
    have hlt := (H.header i).seq.toNat_lt
    rw [hnext, Ne, ← UInt16.toNat_inj, UInt16.toNat_add, UInt16.toNat_one]
    show _ ↔ ¬ _ = 65535
    omega
  have hothers : (H.header i).seq ≠ s.fbn.sequenceNumber := fun h => add_one_ne _ (hnext.symm.trans h.symm)
  rw [handler_other hid hinv.connected hothers]
  unfold fastbootCheckRetransmit
  obtain ⟨payload, hpayload⟩ : ∃ payload, s.answers.getLast? = some payload :=
    Option.ne_none_iff_exists'.mp fun h => by simp [List.getLast?_eq_none_iff.mp h] at hi
  rw [hpayload]
  split
  next h =>
    rw [and_iff_right (hdifference.mp h.1)]
    cases hlast : s.fbn.lastPayload with
    | none => simp
    | some last =>
      have hsame := (hinv.last last hlast).symm.trans hpayload
      simpa using hsame
  next h =>
  have hseq : ¬ (H.header i).seq ≠ 65535 := fun hne => h ⟨hdifference.mpr hne, hinv.connected⟩
  simp [hseq]

/-- What is asked of a turn is just what it takes. -/
theorem once_iff (hinv : H.Inv s) (t : Turn) : H.Once s t ↔ H.InTime s t := by
  cases t with
  | arrive i o =>
    refine imp_congr_right fun hhost => ?_
    have hi : i ≤ s.answers.length := Nat.le_trans hhost hinv.host
    refine and_congr ?_ (imp_congr_right fun hrepeat => repeat_iff hinv hrepeat o)
    rw [hands_iff hinv hi]
    constructor
    · exact fun h hpos _ hlate hseen => h ⟨hpos, hlate, hseen⟩
    · intro h ⟨hpos, hlate, hseen⟩
      rcases Nat.lt_or_eq_of_le hi with hlt | heq
      · exact h hpos hlt hlate hseen
      · exact heq ▸ hinv.unseen hseen
  | query | next | write | work | startDownload | poll => exact Iff.rfl

/-- Every packet is handed on once and in order, and repeats are answered, exactly in the
sessions where nothing comes 65536 answers late, no packet 65535 is repeated after its answer
and none after an abort. -/
theorem session_iff (H : Host) (before : Net) (turns : List Turn) :
    Along H.step H.Once (H.start before) turns ↔ Along H.step H.InTime (H.start before) turns :=
  Along.iff_of_inv (fun _ t hinv _ => once_iff hinv t) (fun s t hinv _ _ => inv_step H s t hinv) turns
    (Along.of_forall turns _ fun _ _ => trivial) (inv_start H before)

/-- The packet with number 65535 is a command. The device answers it; the answer is lost and
the host repeats the packet. -/
def wrapHost : Host := ⟨65534, fun _ => [0x78]⟩

def wrapBefore : Net := ⟨⟨0, 0⟩, [], false, false, false, .notSend, false, 0, none, 0, 0⟩

theorem wrap_not_answered : ¬ Along wrapHost.step wrapHost.Once (wrapHost.start wrapBefore)
        [.next, .arrive 1 ⟨true, none⟩, .work, .arrive 1 ⟨true, none⟩] := by
  intro h
  have hrepeat := (h.2.2.2.1 (by decide)).2 (by decide)
  revert hrepeat
  decide

end Barebox.FastbootNet
