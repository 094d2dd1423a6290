import Barebox.Xymodem.Receiver

/-!
# Reception of a file

`Phase` says where the receiver is when the sender is at some place. `reliable_iff` is for
all runs: every turn is as expected if and only if every turn is good. Not good are

- a write that fails or is short: the block is answered with `ACK` all the same;
- a repeated block 255, which is answered with `NAK`;
- the end of a file that was longer before: it is not cut to its new length;
- an announced length that is no `int`.
-/

namespace Barebox.Xymodem

open Lib List

/-- Where the receiver is -/
def Session.Phase (S : Session) (place : Place) (acked : Bool) (p : Ctxt) : Prop :=
  match place with
  | .header => if acked then Receiving S 0 p else Heading S p ∧ p.closed = []
  | .body j =>
    if j + acked.toNat ≤ S.blocks.length then Receiving S (j + acked.toNat) p
    else Heading S p ∧ p.closed = [S.payload S.blocks.length]

variable {j : Nat} {p : Ctxt}

variable {S : Session} {old : Bytes} {place : Place} {acked : Bool} {rx : Ctxt}

theorem Session.phase_body (S : Session) (h : j + acked.toNat ≤ S.blocks.length) :
    S.Phase (.body j) acked p ↔ Receiving S (j + acked.toNat) p := by
  unfold Session.Phase
  dsimp only
  rw [if_pos h]

theorem Session.phase_end (S : Session) (h : S.blocks.length < j + acked.toNat) :
    S.Phase (.body j) acked p ↔ Heading S p ∧ p.closed = [S.payload S.blocks.length] := by
  unfold Session.Phase
  dsimp only
  rw [if_neg (Nat.not_le.mpr h)]

theorem Session.phase_cases (S : Session) (place : Place) (acked : Bool) :
    (∃ c, ∀ p, S.Phase place acked p ↔ Receiving S c p)
      ∨ ∃ closed, ∀ p, S.Phase place acked p ↔ Heading S p ∧ p.closed = closed := by
  unfold Session.Phase
  cases place with
  | header =>
    cases acked with
    | false => exact Or.inr ⟨_, fun _ => Iff.rfl⟩
    | true => exact Or.inl ⟨_, fun _ => Iff.rfl⟩
  | body j =>
    dsimp only
    split
    next => exact Or.inl ⟨_, fun _ => Iff.rfl⟩
    next => exact Or.inr ⟨_, fun _ => Iff.rfl⟩

/-- What holds as long as all is good. -/
structure Inv (S : Session) (old : Bytes) (s : System) : Prop where
  header : s.place = .header → S.header ≠ none
  body : ∀ j, s.place = .body j → j + s.acked.toNat ≤ S.blocks.length + 1
  written : s.rx.written = S.payload (S.taken s.place s.acked)
  closed : s.rx.closed ≠ [] → S.taken s.place s.acked = S.blocks.length ∧ ∀ h ∈ S.header, old.length ≤ h.length
  phase : s.rx.waits → S.Phase s.place s.acked s.rx

/-- The sender goes on. -/
theorem Inv.next (h : Inv S old ⟨place, true, rx⟩) : Inv S old ⟨place.next, false, rx⟩ := by
  cases place with
  | header =>
    have htaken : S.taken (.body 0) false = S.taken .header true := Nat.min_eq_right (Nat.zero_le _)
    refine ⟨nofun, fun j hj => ?_, ?_, ?_, fun hw => ?_⟩
    · cases hj
      exact Nat.zero_le _
    · rw [show (Place.header.next) = .body 0 from rfl, htaken]
      exact h.written
    · rw [show (Place.header.next) = .body 0 from rfl, htaken]
      exact h.closed
    · exact (S.phase_body (Nat.zero_le _)).mpr (h.phase hw)
  | body j =>
    refine ⟨nofun, fun k hk => ?_, h.written, h.closed, h.phase⟩
    cases hk
    exact h.body j rfl

/-- The answer, and what the receiver does then -/
def Session.RoundIff (S : Session) (old : Bytes) (s : System) (r : Round) : Prop :=
  (S.Reliable old s r ↔ S.Lossless old s r) ∧ (S.Lossless old s r →
    Inv S old ⟨s.place, s.acked || ack ∈ (xymodemTurn s.rx r).2, (xymodemTurn s.rx r).1⟩)

section

variable {r : Round}

theorem contentOf_length {new : Bytes} (h : old.length ≤ new.length) : (contentOf old new).length = new.length := by
  unfold contentOf
  rw [overwrite_zero, drop_eq_nil_of_le h, append_nil]

/-- What a turn takes, in front of a block and at the end. -/
theorem lossless_body (hw : rx.waits) (hframe : S.frame (.body j) = some (rx.read r.input)) :
    S.Lossless old ⟨.body j, acked, rx⟩ r
      ↔ if j < S.blocks.length then if acked then (j + 1) % 256 ≠ 255 else S.WritesWhole j r.write
        else acked = false → rx.state = .receiveBody → ∀ h ∈ S.header, old.length ≤ h.length := by
  refine ⟨fun h => h hw hframe j rfl, fun h _ _ k hk => ?_⟩
  cases hk
  exact h

/-- Nothing changes for the sender. -/
theorem round_same (h : Inv S old ⟨place, acked, rx⟩)
    (hacked : (acked || decide (ack ∈ (xymodemTurn rx r).2)) = acked)
    (hwritten : (xymodemTurn rx r).1.written = rx.written) (hclosed : (xymodemTurn rx r).1.closed = rx.closed)
    (hphase : (xymodemTurn rx r).1.waits → S.Phase place acked (xymodemTurn rx r).1)
    (hrepeated : rx.waits → S.frame place = some (rx.read r.input) → ack ∈ (xymodemTurn rx r).2)
    (hfull : ∀ j b, place = .body j → S.blocks[j]? = some b → ack ∉ (xymodemTurn rx r).2)
    (hlossless : S.Lossless old ⟨place, acked, rx⟩ r) : S.RoundIff old ⟨place, acked, rx⟩ r := by
  unfold Session.RoundIff
  rw [hacked]
  constructor
  · refine iff_of_true ⟨fun _ => ?_, fun _ hw _ hread => hrepeated hw hread,
      fun j b hj hb _ hmem => absurd hmem (hfull j b hj hb), fun _ hc hd hh => ?_⟩ hlossless
    · rw [hacked, hwritten]
      exact h.written
    · rw [hclosed] at hc
      obtain ⟨hall, hold⟩ := h.closed hc
      have hlen := Session.payload_length hh
      rw [hwritten, h.written, hall, contentOf_length (by rw [hlen]; exact hold hd hh), hlen]
  · intro _
    refine ⟨h.header, h.body, hwritten.trans h.written, ?_, hphase⟩
    rw [hclosed]
    exact h.closed

/-- Nothing is taken. -/
theorem round_kept (h : Inv S old ⟨place, acked, rx⟩) (hfail : rx.waits → S.frame place ≠ some (rx.read r.input))
    (hwritten : (xymodemTurn rx r).1.written = rx.written) (hclosed : (xymodemTurn rx r).1.closed = rx.closed)
    (hphase : (xymodemTurn rx r).1.waits → S.Phase place acked (xymodemTurn rx r).1)
    (hack : ack ∉ (xymodemTurn rx r).2) : S.RoundIff old ⟨place, acked, rx⟩ r :=
  round_same h (by rw [decide_eq_false hack, Bool.or_false]) hwritten hclosed hphase
    (fun hw hread => absurd hread (hfail hw)) (fun _ _ _ _ => hack) fun hw hread => absurd hread (hfail hw)

/-- The receiver is in the midst of the file afterwards. -/
theorem reliable_of_holds (hholds : Holds S (S.taken place (acked || ack ∈ (xymodemTurn rx r).2)) (xymodemTurn rx r).1)
    (hrepeated : acked = true → ack ∈ (xymodemTurn rx r).2)
    (hfull : ∀ j b, place = .body j → S.blocks[j]? = some b → acked = false →
      min r.write (xferMax rx b.data.length) = ((S.payload (j + 1)).length - (S.payload j).length : Nat)) :
    S.Reliable old ⟨place, acked, rx⟩ r where
  written _ := hholds.written
  repeated hacked _ _ _ := hrepeated hacked
  full j b hplace hb hacked _ := hfull j b hplace hb hacked
  length _ hclosed := absurd hholds.closed hclosed

variable {c : Nat}

/-- The invariant from its parts. -/
theorem Holds.inv (h : Holds S c rx) (hheader : place = .header → S.header ≠ none)
    (hbody : ∀ j, place = .body j → j + acked.toNat ≤ S.blocks.length + 1) (htaken : S.taken place acked = c)
    (hphase : Receiving S c rx → S.Phase place acked rx) : Inv S old ⟨place, acked, rx⟩ :=
  ⟨hheader, hbody, h.written.trans (congrArg S.payload htaken.symm), fun hclosed => absurd h.closed hclosed,
    fun hw => hphase (h.receiving hw)⟩

theorem Session.frame_ne_error (S : Session) (place : Place) (e : Errno) : S.frame place ≠ some (.error e) := by
  unfold Session.frame
  cases place with
  | header => cases S.header <;> nofun
  | body j =>
    dsimp only
    split
    next => nofun
    next => split <;> nofun

/-- A frame that is not right -/
theorem round_failed (h : Inv S old ⟨place, acked, rx⟩) (hw : rx.waits) {e : Errno} (he : e ≠ .ECONNABORTED)
    (hread : rx.read r.input = .error e) : S.RoundIff old ⟨place, acked, rx⟩ r := by
  have hframe : S.frame place ≠ some (rx.read r.input) := hread ▸ S.frame_ne_error place e
  rcases S.phase_cases place acked with ⟨c, hphase⟩ | ⟨closed, hphase⟩
  · -- in the midst of the file
    have hp := (hphase _).mp (h.phase hw)
    obtain ⟨q, hq, _, _, hturn⟩ := turn_of_receiving hp r
    obtain ⟨hholds, hack⟩ := hq.error he r.write
    rw [← hread, ← hturn] at hholds hack
    refine round_kept h (fun _ => hframe) ?_ ?_ (fun hw => (hphase _).mpr (hholds.receiving hw)) hack
    · rw [hholds.written, hp.holds.written]
    · rw [hholds.closed, hp.closed]
  · -- while a header is waited for
    obtain ⟨hp, hbefore⟩ := (hphase _).mp (h.phase hw)
    obtain ⟨q, hq, hfd, hclosed, hturn⟩ := turn_of_heading hp r
    obtain ⟨hfd', hclosed', hwaits, hack⟩ := hq.fail_or he r.stale
    rw [← hread, ← hturn] at hfd' hclosed' hwaits hack
    have hsame := hclosed'.trans hclosed
    refine round_kept h (fun _ => hframe) ?_ hsame (fun hw => (hphase _).mpr ⟨hwaits hw, hsame.trans hbefore⟩) hack
    unfold Ctxt.written
    rw [hfd', hfd, hclosed', hclosed]

/-- A block is there again. -/
theorem round_again (h : Inv S old ⟨place, true, rx⟩) (hp : Receiving S c rx) (htaken : S.taken place true = c)
    (hphase : ∀ p, Receiving S c p → S.Phase place true p) {seq : UInt8} {data : Bytes}
    (hseq : seq.toNat = c % 256) (hread : rx.read r.input = .block seq data)
    (hframe : S.frame place = some (rx.read r.input)) (hlossless : S.Lossless old ⟨place, true, rx⟩ r ↔ c % 256 ≠ 255) :
    S.RoundIff old ⟨place, true, rx⟩ r := by
  obtain ⟨q, hq, _, _, hturn⟩ := turn_of_receiving hp r
  obtain ⟨hholds, hack⟩ := hq.again hseq data r.write
  rw [← hread, ← hturn] at hholds hack
  refine ⟨?_, fun _ => hholds.inv h.header h.body htaken (hphase _)⟩
  rw [hlossless, ← hack]
  constructor
  · intro hreliable
    refine hreliable.repeated rfl hp.waits ?_ hframe
    rw [hread]
    exact nofun
  · exact fun hmem => reliable_of_holds (htaken.symm ▸ hholds) (fun _ => hmem) nofun

variable {b : Block}

/-- The next block is there. -/
theorem round_block (hb : S.blocks[j]? = some b) (hp : Receiving S j rx)
    (hread : rx.read r.input = .block (UInt8.ofNat (j + 1)) b.data)
    (hframe : S.frame (.body j) = some (rx.read r.input)) : S.RoundIff old ⟨.body j, false, rx⟩ r := by
  obtain ⟨q, hq, _, _, hturn⟩ := turn_of_receiving hp r
  obtain ⟨hack, htaken'⟩ := hq.block hb r.write
  rw [← hread, ← hturn] at htaken' hack
  have hholds : S.WritesWhole j r.write → Holds S (j + 1) (xymodemTurn rx r).1 := fun h => (htaken' h).1.holds
  have hlt : j < S.blocks.length := (List.getElem?_eq_some_iff.mp hb).1
  have htaken : S.taken (.body j) true = j + 1 := Nat.min_eq_right hlt
  have hanswered : (false || decide (ack ∈ (xymodemTurn rx r).2)) = true := decide_eq_true hack
  unfold Session.RoundIff
  rw [hanswered, lossless_body hp.waits hframe, if_pos hlt]
  refine ⟨⟨fun h => (hp.xferMax_iff hb r.write).mp (h.full j b rfl hb rfl hack), fun h => ?_⟩, fun h => ?_⟩
  · refine reliable_of_holds ?_ (fun _ => hack) fun k b' hk hb' _ => ?_
    · rw [hanswered, htaken]
      exact hholds h
    · cases hk
      cases hb.symm.trans hb'
      exact (hp.xferMax_iff hb r.write).mpr h
  · refine (hholds h).inv nofun (fun k hk => ?_) htaken fun hr => (S.phase_body hlt).mpr hr
    cases hk
    exact Nat.succ_le_succ (Nat.le_of_lt hlt)

theorem no_block_at_end (hj : Place.body S.blocks.length = .body j) (hb : S.blocks[j]? = some b) :
    False := by
  cases hj
  exact Nat.lt_irrefl _ (List.getElem?_eq_some_iff.mp hb).1

/-- The end of the file is there. -/
theorem round_eot (h : Inv S old ⟨.body S.blocks.length, false, rx⟩) (hp : Receiving S S.blocks.length rx)
    (hframe : S.frame (.body S.blocks.length) = some (rx.read r.input)) (hread : rx.read r.input = .eot) :
    S.RoundIff old ⟨.body S.blocks.length, false, rx⟩ r := by
  obtain ⟨q, hq, hstate, _, hturn⟩ := turn_of_receiving hp r
  have heot := hq.eot r.write
  rw [← hread, ← hturn, hstate] at heot
  have htaken : ∀ acked, S.taken (.body S.blocks.length) acked = S.blocks.length :=
    fun _ => Nat.min_eq_left (Nat.le_add_right ..)
  unfold Session.RoundIff
  rw [lossless_body hp.waits hframe, if_neg (Nat.lt_irrefl _), forall_prop_of_true rfl]
  -- the end is acknowledged in the body only
  by_cases hbody : rx.state = .receiveBody
  · rw [if_pos hbody] at heot
    obtain ⟨hack, hclosed, hwaiting⟩ := heot
    have hwritten : (xymodemTurn rx r).1.written = S.payload S.blocks.length := by
      unfold Ctxt.written
      rw [hclosed]
      rfl
    rw [decide_eq_true hack]
    constructor
    · constructor
      · intro hreliable _ hd hh
        have hlen := hreliable.length (hframe ▸ (fun hne => nomatch hne)) (by rw [hclosed]; exact cons_ne_nil _ _) hd hh
        rw [contentOf, overwrite_zero, length_append, length_drop] at hlen
        omega
      · intro hold
        refine ⟨(fun _ => by rw [htaken]; exact hwritten), nofun, fun j b hj hb => (no_block_at_end hj hb).elim,
          fun _ _ hd hh => ?_⟩
        have hlen := Session.payload_length hh
        rw [hwritten, contentOf_length (by rw [hlen]; exact hold hbody hd hh), hlen]
    · intro hold
      refine ⟨h.header, fun j hj => ?_, ?_, fun _ => ⟨htaken _, hold hbody⟩, fun hw => ?_⟩
      · cases hj
        exact Nat.le_refl _
      · exact hwritten.trans (congrArg S.payload (htaken true).symm)
      · obtain ⟨hstate', hmode, hcrc⟩ := hwaiting hw
        exact (S.phase_end (Nat.lt_succ_self _)).mpr ⟨⟨hmode, hcrc, hstate'⟩, hclosed⟩
  · -- without a block before it the end is not answered
    rw [if_neg hbody] at heot
    obtain ⟨hholds, hack⟩ := heot
    have hkept : (false || decide (ack ∈ (xymodemTurn rx r).2)) = false := decide_eq_false hack
    rw [hkept]
    refine ⟨iff_of_true (reliable_of_holds ?_ nofun fun j b hj hb => (no_block_at_end hj hb).elim)
      fun h => absurd h hbody, fun _ => hholds.inv h.header h.body (htaken _) ?_⟩
    · rw [htaken]
      exact hholds
    · exact fun hr => (S.phase_body (Nat.le_refl _)).mpr hr

/-- The header is there. -/
theorem round_header (h : Inv S old ⟨.header, acked, rx⟩) (hp : Heading S rx) (hclosed : rx.closed = []) {hd : Header}
    (hh : S.header = some hd) (hread : rx.read r.input = .block 0 hd.data) : S.RoundIff old ⟨.header, acked, rx⟩ r := by
  obtain ⟨q, hq, _, hclosed', hturn⟩ := turn_of_heading hp r
  obtain ⟨hack, hreceiving⟩ := hq.header (hclosed'.trans hclosed) hh 0 r.stale
  rw [← hread, ← hturn] at hack hreceiving
  have hanswered : (acked || decide (ack ∈ (xymodemTurn rx r).2)) = true := by
    rw [decide_eq_true hack, Bool.or_true]
  unfold Session.RoundIff
  rw [hanswered]
  exact ⟨iff_of_true (reliable_of_holds hreceiving.holds (fun _ => hack) nofun) nofun,
    fun _ => hreceiving.holds.inv h.header nofun rfl id⟩

/-- The end of the file is there again. -/
theorem round_finished (h : Inv S old ⟨.body S.blocks.length, true, rx⟩) (hp : Heading S rx)
    (hread : rx.read r.input = .eot) : S.RoundIff old ⟨.body S.blocks.length, true, rx⟩ r := by
  obtain ⟨q, hq, hfd, hclosed, hturn⟩ := turn_of_heading hp r
  obtain ⟨hack, hfd', hclosed', hwaits⟩ := hq.eot r.stale
  rw [← hread, ← hturn] at hack hfd' hclosed' hwaits
  have hwritten : (xymodemTurn rx r).1.written = rx.written := by
    unfold Ctxt.written
    rw [hfd', hfd, hclosed', hclosed]
  refine round_same h rfl hwritten (hclosed'.trans hclosed) (fun hw => absurd hw hwaits)
    (fun _ _ => hack) (fun j b hj hb => (no_block_at_end hj hb).elim) fun hw hframe => (lossless_body hw hframe).mpr ?_ hw hframe
  rw [if_neg (Nat.lt_irrefl _)]
  exact nofun

/-- A frame arrives as it is, or as an error. -/
theorem Session.Admissible.cases (hadm : S.Admissible ⟨place, acked, rx⟩ r) (hframe : S.frame place ≠ none) :
    S.frame place = some (rx.read r.input) ∨ ∃ e, e ≠ .ECONNABORTED ∧ rx.read r.input = .error e := by
  obtain ⟨f, hf⟩ := Option.ne_none_iff_exists'.mp hframe
  rcases hadm f hf with hread | hread | hread
  · exact Or.inl (hread ▸ hf)
  · exact Or.inr ⟨.EBADMSG, nofun, hread⟩
  · exact Or.inr ⟨.ETIMEDOUT, nofun, hread⟩

/-- While the sender is at the header -/
theorem round_at_header (h : Inv S old ⟨.header, acked, rx⟩) (hw : rx.waits)
    (hframe : S.frame .header = some (rx.read r.input)) : S.RoundIff old ⟨.header, acked, rx⟩ r := by
  have hphase := h.phase hw
  obtain ⟨hd, hh⟩ := Option.ne_none_iff_exists'.mp (h.header rfl)
  have hread : rx.read r.input = .block 0 hd.data := by
    rw [Session.frame, hh] at hframe
    exact (Option.some.inj hframe).symm
  cases acked with
  | false => exact round_header h hphase.1 hphase.2 hh hread
  | true => exact round_again h hphase rfl (fun _ hp => hp) rfl hread hframe (iff_of_true nofun (by decide))

/-- While it is at a block -/
theorem round_at_block (hb : S.blocks[j]? = some b) (h : Inv S old ⟨.body j, acked, rx⟩) (hw : rx.waits)
    (hframe : S.frame (.body j) = some (rx.read r.input)) : S.RoundIff old ⟨.body j, acked, rx⟩ r := by
  have hphase := h.phase hw
  have hlt : j < S.blocks.length := (List.getElem?_eq_some_iff.mp hb).1
  have hread : rx.read r.input = .block (UInt8.ofNat (j + 1)) b.data := by
    rw [Session.frame, hb] at hframe
    exact (Option.some.inj hframe).symm
  cases acked with
  | false => exact round_block hb ((S.phase_body (Nat.le_of_lt hlt)).mp hphase) hread hframe
  | true =>
    have hp : Receiving S (j + 1) rx := (S.phase_body hlt).mp hphase
    refine round_again h hp (Nat.min_eq_right hlt) (fun _ hp => (S.phase_body hlt).mpr hp) rfl hread hframe ?_
    rw [lossless_body hw hframe, if_pos hlt, if_pos rfl]

/-- While it is at the end -/
theorem round_at_end (h : Inv S old ⟨.body S.blocks.length, acked, rx⟩) (hw : rx.waits)
    (hframe : S.frame (.body S.blocks.length) = some (rx.read r.input)) :
    S.RoundIff old ⟨.body S.blocks.length, acked, rx⟩ r := by
  have hphase := h.phase hw
  have hread : rx.read r.input = .eot := by
    rw [Session.frame, getElem?_eq_none (Nat.le_refl _)] at hframe
    rw [if_pos rfl] at hframe
    exact (Option.some.inj hframe).symm
  cases acked with
  | false => exact round_eot h ((S.phase_body (Nat.le_refl _)).mp hphase) hframe hread
  | true => exact round_finished h ((S.phase_end (Nat.lt_succ_self _)).mp hphase).1 hread

/-- One round, for every place the sender may be at. -/
theorem round_iff (h : Inv S old ⟨place, acked, rx⟩) (hframe : S.frame place ≠ none)
    (hadm : S.Admissible ⟨place, acked, rx⟩ r) : S.RoundIff old ⟨place, acked, rx⟩ r := by
  by_cases hw : rx.waits
  · rcases hadm.cases hframe with hread | ⟨e, he, hread⟩
    · cases place with
      | header => exact round_at_header h hw hread
      | body j =>
        cases hb : S.blocks[j]? with
        | some b => exact round_at_block hb h hw hread
        | none =>
          obtain rfl : j = S.blocks.length := by
            refine Classical.byContradiction fun hne => hframe ?_
            rw [Session.frame, hb]
            exact if_neg hne
          exact round_at_end h hw hread
    · exact round_failed h hw he hread
  · have hturn := turn_of_ended hw r
    refine round_kept h (fun hw' => absurd hw' hw) ?_ ?_ ?_ ?_ <;> rw [hturn]
    · exact fun hw' => absurd hw' hw
    · exact not_mem_nil

variable {s : System}

/-- The sender that is done sends nothing. -/
theorem reliable_of_done (hframe : S.frame s.place = none) : S.Reliable old s r ∧ S.Lossless old s r := by
  refine ⟨⟨fun hne => absurd hframe hne, (fun _ _ _ hf => nomatch hframe.symm.trans hf), fun j b hplace hb => ?_,
    fun hne => absurd hframe hne⟩, (fun _ hf => nomatch hframe.symm.trans hf)⟩
  rw [hplace, Session.frame, hb] at hframe
  nomatch hframe

/-- The step: the round is reliable just if nothing is lost in it, and then the invariant goes on.
-/
theorem step_iff (h : Inv S old s) (hadm : S.Admissible s r) :
    (S.Reliable old s r ↔ S.Lossless old s r) ∧ (S.Lossless old s r → Inv S old (S.step s r)) := by
  unfold Session.step
  by_cases hframe : S.frame s.place = none
  · obtain ⟨hreliable, hlossless⟩ := @reliable_of_done S old r s hframe
    rw [if_pos hframe]
    exact ⟨iff_of_true hreliable hlossless, fun _ => h⟩
  · obtain ⟨hiff, hinv⟩ := round_iff h hframe hadm
    rw [if_neg hframe]
    refine ⟨hiff, fun hlossless => ?_⟩
    have hnext := hinv hlossless
    dsimp only
    split
    next hack =>
      rw [decide_eq_true hack.1, Bool.or_true] at hnext
      exact hnext.next
    next => exact hnext

end

/-- Without a header the blocks come first. -/
theorem start_receiving (hh : S.header = none) :
    S.start.place = .body 0 ∧ S.start.rx.crcMode = .crc16 ∧ Receiving S 0 S.start.rx := by
  have hmode : S.mode = .xmodem := by
    unfold Session.mode
    rw [hh]
    rfl
  unfold Session.start
  rw [hmode, hh]
  refine ⟨rfl, rfl, hmode.symm, nofun, Or.inr ⟨rfl, rfl⟩, rfl, ?_, rfl, ?_⟩
  · rw [Session.payload_zero]
    rfl
  · exact fun h hsome => nomatch hh.symm.trans hsome

theorem start_inv (S : Session) (old : Bytes) : Inv S old S.start := by
  cases hh : S.header with
  | none =>
    obtain ⟨hplace, _, hreceiving⟩ := start_receiving hh
    have hzero : S.taken S.start.place S.start.acked = 0 := by
      rw [hplace]
      exact Nat.min_eq_right (Nat.zero_le _)
    refine @Holds.inv S old S.start.place S.start.acked S.start.rx 0 hreceiving.holds
      (fun h => nomatch hplace.symm.trans h) (fun j hj => ?_) hzero fun h => ?_
    · rw [hplace] at hj
      cases hj
      exact Nat.zero_le _
    · rw [hplace]
      exact (S.phase_body (Nat.zero_le _)).mpr h
  | some hd =>
    have hmode : S.mode = .ymodem := by
      unfold Session.mode
      rw [hh]
      rfl
    unfold Session.start
    rw [hmode, hh]
    refine ⟨fun _ => ?_, nofun, ?_, (fun h => absurd rfl h),
      fun _ => ⟨⟨hmode.symm, nofun, rfl⟩, rfl⟩⟩
    · rw [hh]
      exact nofun
    · exact Session.payload_zero.symm

/-- Reception is reliable in all turns of a run if and only if all turns are good. -/
theorem reliable_iff (S : Session) (old : Bytes) (rounds : List Round)
    (hadm : Along S.step S.Admissible S.start rounds) :
    Along S.step (S.Reliable old) S.start rounds ↔ Along S.step (S.Lossless old) S.start rounds :=
  Along.iff_of_inv (fun _ _ h hok => (step_iff h hok).1) (fun _ _ h hok => (step_iff h hok).2) rounds hadm
    (start_inv S old)

/-! ## Frames on the line -/

def encode (crcMode : CrcMode) : Read → Bytes
  | .block seq data =>
    (if data.length = 128 then soh else stx) :: seq :: (255 - seq) :: (data ++ checkBytes crcMode data)
  | .eot => [eot]
  | .error _ => []

/-- A block that is encoded is read back, with either check. -/
theorem readData_encode (crcMode : CrcMode) (seq : UInt8) (data : Bytes) :
    readData crcMode data.length (seq :: (255 - seq) :: (data ++ checkBytes crcMode data)) = .block seq data := by
  have hdata : (data ++ checkBytes crcMode data).take data.length = data := take_left
  have hcheck : slice data.length (checkBytes crcMode data).length (data ++ checkBytes crcMode data)
      = checkBytes crcMode data := by
    unfold slice
    rw [drop_left, take_length]
  unfold readData
  dsimp only
  rw [if_neg (fun hne => hne rfl), hdata, hcheck, if_neg (Nat.lt_irrefl _), if_neg (Nat.lt_irrefl _),
    if_neg (fun hne => hne rfl)]

/-- A block that arrives as it was sent is read. -/
theorem xyReadBlock_encode (crcMode : CrcMode) (totalCan : Nat) (seq : UInt8) (b : Block) :
    (xyReadBlock crcMode totalCan (encode crcMode (.block seq b.data))).1 = .block seq b.data := by
  unfold encode xyReadBlock
  rcases b.size with hsize | hsize
  · rw [if_pos hsize, ← hsize]
    exact readData_encode ..
  · have hhdr : (if b.data.length = 128 then soh else stx) = stx := if_neg (by rw [hsize]; decide)
    rw [hhdr, ← hsize]
    exact readData_encode ..

/-! ## Block 255 -/

def zeroBlock : Block := ⟨replicate 128 0, Or.inl length_replicate⟩

def manyBlocks : Session := ⟨none, replicate 255 zeroBlock, nofun⟩

/-- Block `j + 1` arrives and is written. -/
def zeroRound (j : Nat) (delivered : Bool) : Round :=
  ⟨encode .crc16 (.block (UInt8.ofNat (j + 1)) zeroBlock.data), [], 128, delivered⟩

/-- `j` blocks were received, and the sender knows. -/
structure AtBlock (j : Nat) (s : System) : Prop where
  place : s.place = .body j
  acked : s.acked = false
  crcMode : s.rx.crcMode = .crc16
  receiving : Receiving manyBlocks j s.rx

theorem manyBlocks_get (h : j < 255) : manyBlocks.blocks[j]? = some zeroBlock := by
  show (replicate 255 zeroBlock)[j]? = _
  rw [getElem?_replicate, if_pos h]

theorem manyBlocks_frame (h : j < 255) :
    manyBlocks.frame (.body j) = some (.block (UInt8.ofNat (j + 1)) zeroBlock.data) := by
  rw [Session.frame, manyBlocks_get h]

theorem manyBlocks_payload (j : Nat) (h : j < 255) :
    (manyBlocks.payload (j + 1)).length - (manyBlocks.payload j).length = 128 := by
  obtain ⟨more, _, hmore, hall, _⟩ := Session.payload_succ (manyBlocks_get h)
  rw [hmore, hall rfl]
  exact length_replicate

theorem zeroRound_writesWhole (hj : j < 255) (delivered : Bool) : manyBlocks.WritesWhole j (zeroRound j delivered).write := by
  refine ⟨?_, nofun⟩
  rw [manyBlocks_payload j hj]
  exact Int.le_refl _

/-- A block that arrives is read. -/
theorem zeroRound_read (hcrc : p.crcMode = .crc16) (delivered : Bool) :
    p.read (zeroRound j delivered).input = .block (UInt8.ofNat (j + 1)) zeroBlock.data := by
  unfold Ctxt.read zeroRound
  rw [hcrc]
  exact xyReadBlock_encode ..

variable {s : System}

section

variable (h : AtBlock j s) (hj : j < 255)
include h hj

/-- The long session: a block that arrives is taken, … -/
theorem AtBlock.turn (delivered : Bool) : ack ∈ (xymodemTurn s.rx (zeroRound j delivered)).2
      ∧ Receiving manyBlocks (j + 1) (xymodemTurn s.rx (zeroRound j delivered)).1
      ∧ (xymodemTurn s.rx (zeroRound j delivered)).1.crcMode = .crc16 := by
  obtain ⟨q, hq, _, hcrc, hturn⟩ := turn_of_receiving h.receiving (zeroRound j delivered)
  obtain ⟨hack, htaken⟩ := hq.block (manyBlocks_get hj) (zeroRound j delivered).write
  obtain ⟨hreceiving, hcrc'⟩ := htaken (zeroRound_writesWhole hj delivered)
  rw [hturn, zeroRound_read h.crcMode]
  exact ⟨hack, hreceiving, hcrc'.trans (hcrc.trans h.crcMode)⟩

theorem AtBlock.frame_ne : manyBlocks.frame s.place ≠ none := by
  rw [h.place, manyBlocks_frame hj]
  exact nofun

/-- … and the sender goes on to the next one. -/
theorem AtBlock.step : AtBlock (j + 1) (manyBlocks.step s (zeroRound j true)) := by
  obtain ⟨hack, hreceiving, hcrc⟩ := h.turn hj true
  unfold Session.step
  rw [if_neg (h.frame_ne hj)]
  dsimp only
  rw [if_pos ⟨hack, rfl⟩, h.place]
  exact ⟨rfl, rfl, hcrc, hreceiving⟩

theorem AtBlock.admissible (delivered : Bool) : manyBlocks.Admissible s (zeroRound j delivered) := by
  intro f hf
  rw [h.place, manyBlocks_frame hj] at hf
  rw [zeroRound_read h.crcMode]
  exact Or.inl (Option.some.inj hf)

end

/-- All blocks up to some block -/
theorem AtBlock.run (n : Nat) (hn : n ≤ 255) :
    Along manyBlocks.step manyBlocks.Admissible manyBlocks.start ((range n).map (zeroRound · true))
      ∧ AtBlock n (Lib.run manyBlocks.step manyBlocks.start ((range n).map (zeroRound · true))) := by
  induction n with
  | zero =>
    obtain ⟨hplace, hcrc, hreceiving⟩ := @start_receiving manyBlocks rfl
    exact ⟨trivial, hplace, rfl, hcrc, hreceiving⟩
  | succ n ih =>
    obtain ⟨hadm, hat⟩ := ih (by omega)
    rw [range_succ, map_append, Along.append_iff, run_append]
    exact ⟨⟨hadm, hat.admissible (by omega) true, trivial⟩, hat.step (by omega)⟩

/-- The answer to a block is lost. -/
theorem AtBlock.unanswered (h : AtBlock j s) (hj : j < 255) :
    ∃ rx, manyBlocks.step s (zeroRound j false) = ⟨.body j, true, rx⟩ ∧ Receiving manyBlocks (j + 1) rx
      ∧ ∀ delivered, rx.read (zeroRound j delivered).input = .block (UInt8.ofNat (j + 1)) zeroBlock.data
        ∧ manyBlocks.Admissible ⟨.body j, true, rx⟩ (zeroRound j delivered) := by
  obtain ⟨hack, hreceiving, hcrc⟩ := h.turn hj false
  refine ⟨_, ?_, hreceiving, fun delivered => ⟨zeroRound_read hcrc delivered, fun f hf => Or.inl ?_⟩⟩
  · unfold Session.step
    rw [if_neg (h.frame_ne hj)]
    dsimp only
    rw [if_neg (fun h => nomatch h.2), h.place, h.acked, decide_eq_true hack]
    rfl
  · exact (zeroRound_read hcrc delivered).trans (Option.some.inj ((manyBlocks_frame hj).symm.trans hf))

/-- A block whose answer was lost is written once. -/
theorem zeroBlock_twice :
    Along manyBlocks.step (manyBlocks.Reliable []) manyBlocks.start [zeroRound 0 false, zeroRound 0 true] := by
  have hat : AtBlock 0 manyBlocks.start := (AtBlock.run 0 (Nat.zero_le _)).2
  obtain ⟨rx, hstep, _, hagain⟩ := hat.unanswered (by decide)
  have hblock : 0 < manyBlocks.blocks.length := by
    rw [show manyBlocks.blocks = replicate 255 zeroBlock from rfl, length_replicate]
    decide
  refine (reliable_iff manyBlocks [] [zeroRound 0 false, zeroRound 0 true] ⟨hat.admissible (by decide) false, ?_, trivial⟩).mpr
    ⟨fun _ _ j hj => ?_, ?_, trivial⟩
  · rw [hstep]
    exact (hagain true).2
  · cases hat.place.symm.trans hj
    have hacked : ¬ manyBlocks.start.acked = true := nofun
    rw [if_pos hblock, if_neg hacked]
    exact zeroRound_writesWhole (by decide) false
  · rw [hstep]
    intro _ _ j hj
    cases hj
    rw [if_pos hblock, if_pos rfl]
    decide

/-- The answer to block 255 is lost, and the block is sent again: it is answered with `NAK`. -/
theorem AtBlock.refused (h : AtBlock j s) (hj : j < 255) (hlast : (j + 1) % 256 = 255) :
    Along manyBlocks.step manyBlocks.Admissible s [zeroRound j false, zeroRound j false]
      ∧ ¬ Along manyBlocks.step (manyBlocks.Reliable []) s [zeroRound j false, zeroRound j false] := by
  obtain ⟨rx, hstep, hreceiving, hagain⟩ := h.unanswered hj
  obtain ⟨hread, hadm⟩ := hagain false
  constructor
  · refine ⟨h.admissible hj false, ?_, trivial⟩
    rw [hstep]
    exact hadm
  · rintro ⟨_, hreliable, _⟩
    rw [hstep] at hreliable
    obtain ⟨q, hq, _, _, hturn⟩ := turn_of_receiving hreceiving (zeroRound j false)
    have hmem := hreliable.repeated rfl hreceiving.waits (by rw [hread]; exact fun h => nomatch h)
      ((manyBlocks_frame hj).trans (congrArg _ hread.symm))
    rw [hturn, hread, (hq.again rfl zeroBlock.data (zeroRound j false).write).2] at hmem
    exact hmem hlast

theorem block255_refused : Along manyBlocks.step manyBlocks.Admissible manyBlocks.start
        ((range 254).map (zeroRound · true) ++ [zeroRound 254 false, zeroRound 254 false])
      ∧ ¬ Along manyBlocks.step (manyBlocks.Reliable []) manyBlocks.start
        ((range 254).map (zeroRound · true) ++ [zeroRound 254 false, zeroRound 254 false]) := by
  obtain ⟨hadm, hat⟩ := AtBlock.run 254 (by decide)
  obtain ⟨hadm', hrefused⟩ := hat.refused (by decide) (by decide)
  rw [Along.append_iff, Along.append_iff]
  exact ⟨⟨hadm, hadm'⟩, fun h => hrefused h.2⟩

end Barebox.Xymodem
