import Barebox.Xymodem.Session

/-!
# The receiver

What a turn does with a header, with a block and with the end of a file, when `c` blocks
were received (`Receiving`) or a header is waited for (`Heading`). A block that is expected
is answered with `ACK` in any case (`Receiving.block`), a copy of the last one unless it is
block 255 (`Receiving.again`): `check_blk_seq` compares it with -1 then.
-/

namespace Barebox.Xymodem

open Lib List

/-! ## The header -/

/-- The digits give their number, as far as the lower 32 bits are concerned. -/
theorem parseInteger_digits (digits : Bytes) {res res' : Nat} (h : ∀ c ∈ digits, isdigit c = true)
    (hres : res % 2 ^ 32 = res' % 2 ^ 32) : (parseInteger 10 digits res).1 % 2 ^ 32
      = digits.foldl (fun res c => res * 10 + (c.toNat - 0x30)) res' % 2 ^ 32 := by
  induction digits generalizing res res' with
  | nil => exact hres
  | cons c digits ih =>
    have hc : 0x30 ≤ c ∧ c ≤ 0x39 := of_decide_eq_true (h c (mem_cons_self))
    have hval : digitVal c = some (c.toNat - 0x30) := if_pos hc
    have hlt : c.toNat - 0x30 < 10 := by
      have : c.toNat ≤ 0x39 := hc.2
      omega
    rw [parseInteger, hval]
    dsimp only
    rw [if_neg (Nat.not_le.mpr hlt), foldl_cons]
    exact ih (fun d hd => h d (mem_cons_of_mem _ hd)) (by omega)

theorem bmod_congr {m n : Nat} (h : m % 2 ^ 32 = n % 2 ^ 32) : Int.bmod m (2 ^ 32) = Int.bmod n (2 ^ 32) := by
  rw [Int.bmod_def, Int.bmod_def]
  omega

theorem bmod_le (n : Nat) : Int.bmod n (2 ^ 32) ≤ n := by
  rw [Int.bmod_def]
  omega

theorem bmod_lt (n : Nat) : Int.bmod n (2 ^ 32) < 2 ^ 31 := by
  rw [Int.bmod_def]
  omega

theorem bmod_eq_self {i : Int} (h : 0 ≤ i) (hlt : i < 2 ^ 31) : Int.bmod i (2 ^ 32) = i := by
  rw [Int.bmod_def]
  omega

/-- A header is parsed as it is meant, whatever is behind it. -/
theorem parseFirstBlock_header (h : Header) (behind : Bytes) :
    ∃ name, name ≠ []
      ∧ parseFirstBlock (h.data ++ behind) h.data.length = some (name, Int.bmod h.length (2 ^ 32)) := by
  have hname : (h.data ++ behind).takeWhile (· ≠ 0) = h.name := by
    unfold Header.data
    rw [append_assoc, takeWhile_append_of_pos fun c hc => decide_eq_true (h.noZero c hc)]
    simp
  have hrest : (h.data ++ behind).drop (h.name.length + 1) = h.digits ++ (h.rest ++ behind) := by
    unfold Header.data
    rw [append_assoc, ← drop_drop, drop_left, ← append_assoc]
    rfl
  -- the number ends at the first zero or blank, and a digit is neither
  have hdigit : ∀ c ∈ h.digits, decide (c ≠ 0 ∧ c ≠ 0x20) = true := by
    intro c hc
    have : 0x30 ≤ c ∧ c ≤ 0x39 := of_decide_eq_true (h.decimal c hc)
    refine decide_eq_true ⟨?_, ?_⟩
    · rintro rfl
      exact absurd this.1 (by decide)
    · rintro rfl
      exact absurd this.1 (by decide)
  have hnum : (h.digits ++ (h.rest ++ behind)).takeWhile (fun c => decide (c ≠ 0 ∧ c ≠ 0x20)) = h.digits := by
    rw [takeWhile_append_of_pos hdigit]
    cases hr : h.rest with
    | nil =>
      have hends := h.ends
      rw [hr] at hends
      rcases hends with hends | hends <;> nomatch hends
    | cons c rest =>
      have hends := h.ends
      rw [hr] at hends
      rcases hends with hends | hends <;> cases hends <;> simp
  refine ⟨h.name.take 1023, ?_, ?_⟩
  · intro hnil
    rcases take_eq_nil_iff.mp hnil with hzero | hnil
    · nomatch hzero
    · exact h.named hnil
  · have hle : ¬ h.data.length < h.name.length := by
      unfold Header.data
      rw [length_append]
      omega
    unfold parseFirstBlock
    dsimp only
    rw [hname, if_neg hle, hrest, hnum]
    have hvalue : (simpleStrtoull h.digits 10).1 % 2 ^ 32 = h.length % 2 ^ 32 :=
      parseInteger_digits h.digits h.decimal rfl
    rw [bmod_congr hvalue]

/-! ## What is sent -/

namespace Session

variable {S : Session} {j : Nat} {b : Block}

theorem sent_succ (hb : S.blocks[j]? = some b) :
    ((S.blocks.take (j + 1)).map (·.data)).flatten = ((S.blocks.take j).map (·.data)).flatten ++ b.data := by
  rw [take_add_one, hb]
  simp

theorem payload_none (h : S.header = none) (n : Nat) : S.payload n = ((S.blocks.take n).map (·.data)).flatten := by
  unfold payload
  rw [h]

theorem payload_some {h : Header} (hh : S.header = some h) (n : Nat) :
    S.payload n = (((S.blocks.take n).map (·.data)).flatten).take h.length := by
  unfold payload
  rw [hh]

/-- Of a block as much as belongs to the file -/
theorem payload_succ (hb : S.blocks[j]? = some b) :
    ∃ more, S.payload (j + 1) = S.payload j ++ b.data.take more
      ∧ (S.payload (j + 1)).length - (S.payload j).length = more
      ∧ (S.header = none → more = b.data.length)
      ∧ ∀ h, S.header = some h → more = min b.data.length (h.length - (S.payload j).length)
        ∧ (S.payload j).length ≤ h.length := by
  cases hh : S.header with
  | none =>
    have heq : S.payload (j + 1) = S.payload j ++ b.data := by
      rw [payload_none hh, payload_none hh, sent_succ hb]
    refine ⟨b.data.length, ?_, ?_, fun _ => rfl, nofun⟩
    · rw [take_length, heq]
    · rw [heq, length_append]
      omega
  | some h =>
    have heq : S.payload (j + 1) = S.payload j ++ b.data.take (h.length - (S.payload j).length) := by
      rw [payload_some hh, payload_some hh, sent_succ hb, take_append, length_take]
      congr 2
      omega
    have hle : (S.payload j).length ≤ h.length := by
      rw [payload_some hh]
      exact length_take_le ..
    refine ⟨min b.data.length (h.length - (S.payload j).length), ?_, ?_, nofun,
      fun h' hh' => ?_⟩
    · rw [heq]
      congr 1
      rw [take_eq_take_iff]
      omega
    · rw [heq, length_append, length_take]
      omega
    · cases hh'
      exact ⟨rfl, hle⟩

/-- All blocks together make the file. -/
theorem payload_length {h : Header} (hh : S.header = some h) : (S.payload S.blocks.length).length = h.length := by
  rw [payload_some hh, take_length, length_take]
  have := S.enough h hh
  omega

theorem payload_zero : S.payload 0 = [] := by
  unfold payload
  cases S.header with
  | none => rfl
  | some h => exact take_nil

end Session

/-! ## Answers -/

theorem blockAck_eq {mode : Mode} {crcMode : CrcMode} (hm : mode ≠ .ymodemG) (hc : crcMode ≠ .none) :
    blockAck mode crcMode = [ack] := by
  cases crcMode <;> cases mode <;> first | rfl | contradiction

theorem ack_not_mem_nack (mode : Mode) (crcMode : CrcMode) : ack ∉ blockNack mode crcMode := by
  cases crcMode <;> cases mode <;> decide

theorem ack_not_mem_invite (mode : Mode) (crcMode : CrcMode) : ack ∉ [invite mode crcMode] := by
  cases crcMode <;> cases mode <;> decide

theorem Session.mode_ne (S : Session) : S.mode ≠ .ymodemG := by
  unfold Session.mode
  split <;> exact nofun

/-! ## The receiver -/

/-- `c` blocks were received. -/
structure Receiving (S : Session) (c : Nat) (p : Ctxt) : Prop where
  mode : p.mode = S.mode
  crcMode : p.crcMode ≠ .none
  state : p.state = .receiveBody ∨ p.state = .negociateCrc ∧ c = 0
  closed : p.closed = []
  fd : p.fd = some (S.payload c)
  nextBlk : p.nextBlk = ((c + 1) % 256 : Nat)
  lengths : ∀ h, S.header = some h →
    p.fileLen = Int.bmod h.length (2 ^ 32) ∧ p.nbReceived = ((S.payload c).length : Int)

/-- They are in the file, also if the receiver has given up. -/
structure Holds (S : Session) (c : Nat) (p : Ctxt) : Prop where
  closed : p.closed = []
  fd : p.fd = some (S.payload c)
  receiving : p.waits → Receiving S c p

variable {S : Session} {c : Nat} {p : Ctxt}

theorem Receiving.waits (h : Receiving S c p) : p.waits :=
  h.state.elim (fun hstate => Or.inr (Or.inr hstate)) fun hstate => Or.inr (Or.inl hstate.1)

theorem Receiving.holds (h : Receiving S c p) : Holds S c p :=
  ⟨h.closed, h.fd, fun _ => h⟩

theorem Holds.written (h : Holds S c p) : p.written = S.payload c := by
  unfold Ctxt.written
  rw [h.closed, h.fd]
  rfl

section

theorem not_waits_fail (p : Ctxt) : ¬ p.fail.waits := by
  rintro (h | h | h) <;> nomatch h

section

variable (h : Receiving S c p)
include h

/-- Giving up changes nothing else. -/
theorem Receiving.fail : Holds S c p.fail :=
  ⟨h.closed, h.fd, fun hw => absurd hw (not_waits_fail p)⟩

theorem Receiving.retry : Holds S c p.retry := by
  have hcount : Receiving S c { p with sameBlkRetries := p.sameBlkRetries + 1 } :=
    ⟨h.mode, h.crcMode, h.state, h.closed, h.fd, h.nextBlk, h.lengths⟩
  unfold Ctxt.retry
  dsimp only
  split
  next => exact hcount.fail
  next => exact hcount.holds

theorem Receiving.body : Receiving S c { p with state := .receiveBody } :=
  ⟨h.mode, h.crcMode, Or.inl rfl, h.closed, h.fd, h.nextBlk, h.lengths⟩

/-- The negotiation tries both kinds of check before the first block. -/
theorem Receiving.negociateCrc (hc : c = 0) (hstate : p.state = .negociateCrc) :
    Receiving S c (negociateCrc p).1 where
  mode := h.mode
  crcMode := by
    show (if _ then CrcMode.add8 else p.crcMode) ≠ .none
    split
    next => exact nofun
    next => exact h.crcMode
  state := Or.inr ⟨hstate, hc⟩
  closed := h.closed
  fd := h.fd
  nextBlk := by
    subst hc
    rfl
  lengths := h.lengths

theorem Receiving.ack_eq : blockAck p.mode p.crcMode = [ack] :=
  blockAck_eq (h.mode ▸ S.mode_ne) h.crcMode

theorem Receiving.refuse : Holds S c (refuse p).1 ∧ ack ∉ (refuse p).2 := by
  unfold Xymodem.refuse
  rw [if_neg (h.mode ▸ S.mode_ne)]
  exact ⟨h.retry, ack_not_mem_nack _ _⟩

/-- What is not right is not taken. -/
theorem Receiving.error {e : Errno} (he : e ≠ .ECONNABORTED) (write : Int) :
    Holds S c (bodyTurn p (.error e) write).1 ∧ ack ∉ (bodyTurn p (.error e) write).2 := by
  unfold bodyTurn
  dsimp only
  by_cases hstate : p.state = .negociateCrc
  · have hc : c = 0 := by
      rcases h.state with hbody | ⟨_, hc⟩
      · exact nomatch hstate.symm.trans hbody
      · exact hc
    rw [if_pos hstate]
    exact ⟨(h.negociateCrc hc hstate).holds, ack_not_mem_invite _ _⟩
  · rw [if_neg hstate, if_neg he]
    exact h.refuse

/-- A copy of the last block is answered with `ACK`, unless it is block 255. -/
theorem Receiving.again {seq : UInt8} (hseq : seq.toNat = c % 256) (data : Bytes) (write : Int) :
    Holds S c (bodyTurn p (.block seq data) write).1
      ∧ (ack ∈ (bodyTurn p (.block seq data) write).2 ↔ c % 256 ≠ 255) := by
  have hnext := h.nextBlk
  unfold bodyTurn
  dsimp only
  by_cases hlast : c % 256 = 255
  · have hcheck : checkBlkSeq p.nextBlk seq = .error .EILSEQ := by
      have hzero : p.nextBlk = 0 := by omega
      unfold checkBlkSeq
      rw [hzero, if_neg (by rw [hseq, hlast]; decide), if_pos (by omega)]
    rw [hcheck]
    obtain ⟨hholds, hnack⟩ := h.body.refuse
    exact ⟨hholds, iff_of_false hnack fun hne => hne hlast⟩
  · have hcheck : checkBlkSeq p.nextBlk seq = .error .EALREADY := by
      have hprev : p.nextBlk - 1 = (c % 256 : Nat) := by omega
      unfold checkBlkSeq
      rw [hprev, if_pos]
      rw [Int.tmod_eq_emod_of_nonneg (Int.natCast_nonneg _)]
      omega
    rw [hcheck]
    refine ⟨h.body.retry, iff_of_true ?_ hlast⟩
    rw [h.ack_eq]
    exact mem_singleton_self _

/-- A file that ends is closed. -/
theorem Receiving.eot (write : Int) : if p.state = .receiveBody then
      ack ∈ (bodyTurn p .eot write).2 ∧ (bodyTurn p .eot write).1.closed = [S.payload c]
        ∧ ((bodyTurn p .eot write).1.waits → (bodyTurn p .eot write).1.state = .getFilename
          ∧ (bodyTurn p .eot write).1.mode = S.mode ∧ (bodyTurn p .eot write).1.crcMode ≠ .none)
    else Holds S c (bodyTurn p .eot write).1 ∧ ack ∉ (bodyTurn p .eot write).2 := by
  unfold bodyTurn
  split
  next hstate =>
    rw [hstate, if_neg nofun]
    have hclosed : p.closed ++ p.fd.toList = [S.payload c] := by
      rw [h.closed, h.fd]
      rfl
    unfold finishFile
    dsimp only
    split
    next =>
      refine ⟨mem_singleton_self _, hclosed, ?_⟩
      rintro (hw | hw | hw) <;> nomatch hw
    next => exact ⟨mem_cons_self, hclosed, fun _ => ⟨rfl, h.mode, nofun⟩⟩
  next hstate =>
  obtain ⟨hstate, hc⟩ := h.state.resolve_left hstate
  rw [if_pos hstate]
  exact ⟨(h.negociateCrc hc hstate).holds, ack_not_mem_invite _ _⟩

variable {b : Block}

/-- `write` takes the bytes that belong to the file if and only if it is good. -/
theorem Receiving.xferMax_iff (hb : S.blocks[c]? = some b) (write : Int) :
    min write (xferMax p b.data.length) = ((S.payload (c + 1)).length - (S.payload c).length : Nat)
      ↔ S.WritesWhole c write := by
  obtain ⟨more, _, hmore, hx, hy⟩ := Session.payload_succ hb
  unfold Session.WritesWhole xferMax
  dsimp only
  rw [hmore, h.mode]
  cases hh : S.header with
  | none =>
    have hmode : S.mode = .xmodem := by
      unfold Session.mode
      rw [hh]
      rfl
    have hall := hx hh
    rw [if_pos hmode]
    constructor
    · intro hmin
      refine ⟨by omega, nofun⟩
    · intro ⟨hle, _⟩
      omega
  | some hd =>
    have hmode : S.mode ≠ .xmodem := by
      unfold Session.mode
      rw [hh]
      exact nofun
    obtain ⟨hall, hle⟩ := hy hd hh
    obtain ⟨hlen, hnb⟩ := h.lengths hd hh
    have hbmod := bmod_le hd.length
    have hroom : (∀ h ∈ some hd, (more : Int) ≤ Int.bmod h.length (2 ^ 32) - (S.payload c).length)
        ↔ (more : Int) ≤ Int.bmod hd.length (2 ^ 32) - (S.payload c).length :=
      ⟨fun hall => hall hd rfl, fun hroom h hmem => Option.some.inj hmem ▸ hroom⟩
    rw [if_neg hmode, hlen, hroom]
    generalize Int.bmod hd.length (2 ^ 32) = len at hbmod ⊢
    omega

/-- The next block is answered with `ACK`; if the write is good it is in the file. -/
theorem Receiving.block (hb : S.blocks[c]? = some b) (write : Int) :
    ack ∈ (bodyTurn p (.block (UInt8.ofNat (c + 1)) b.data) write).2
      ∧ (S.WritesWhole c write → Receiving S (c + 1) (bodyTurn p (.block (UInt8.ofNat (c + 1)) b.data) write).1
        ∧ (bodyTurn p (.block (UInt8.ofNat (c + 1)) b.data) write).1.crcMode = p.crcMode) := by
  have hseq : (UInt8.ofNat (c + 1)).toNat = (c + 1) % 256 := rfl
  have hnext := h.nextBlk
  -- the number that is expected, also at the wrap to zero
  have hcheck : checkBlkSeq p.nextBlk (UInt8.ofNat (c + 1)) = .ok () := by
    unfold checkBlkSeq
    rw [hseq, hnext, if_neg, if_neg (fun hne => hne rfl)]
    by_cases hzero : (c + 1) % 256 = 0
    · rw [hzero]
      decide
    · rw [Int.tmod_eq_emod_of_nonneg (by omega)]
      omega
  unfold bodyTurn
  dsimp only
  rw [hcheck]
  have hack : ack ∈ blockAck p.mode p.crcMode := by
    rw [h.ack_eq]
    exact mem_singleton_self _
  refine ⟨hack, fun hlossless => ?_⟩
  have hrc := (h.xferMax_iff hb write).mpr hlossless
  obtain ⟨more, hpayload, hmore, hx, hy⟩ := Session.payload_succ hb
  rw [hmore] at hrc
  unfold writeBlock
  rw [show xferMax { p with state := .receiveBody } b.data.length = xferMax p b.data.length from rfl, hrc]
  refine ⟨⟨h.mode, h.crcMode, Or.inl rfl, h.closed, ?_, ?_, fun hd hh => ?_⟩, rfl⟩
  · rw [h.fd, hpayload]
    rfl
  · show ((UInt8.ofNat (c + 1)).toNat + 1 : Int) % 256 = _
    omega
  · obtain ⟨hlen, hnb⟩ := h.lengths hd hh
    obtain ⟨hall, hle⟩ := hy hd hh
    have hroom := hlossless.2 hd hh
    refine ⟨hlen, ?_⟩
    have hint := bmod_lt hd.length
    have hlength : (S.payload (c + 1)).length = (S.payload c).length + more := by
      rw [hpayload, length_append, length_take]
      omega
    rw [hnb, hlength, bmod_eq_self (by omega) (by omega)]
    rfl

end

/-- Before and after the file a header is waited for. -/
structure Heading (S : Session) (p : Ctxt) : Prop where
  mode : p.mode = S.mode
  crcMode : p.crcMode ≠ .none
  state : p.state = .getFilename

/-- A header that is not read: the receiver asks again or gives up, and no file is touched. -/
theorem Heading.fail_or (h : Heading S p) {e : Errno} (he : e ≠ .ECONNABORTED) (stale : Bytes) :
    (headerTurn p (.error e) stale).1.fd = p.fd ∧ (headerTurn p (.error e) stale).1.closed = p.closed
      ∧ ((headerTurn p (.error e) stale).1.waits → Heading S (headerTurn p (.error e) stale).1)
      ∧ ack ∉ (headerTurn p (.error e) stale).2 := by
  have hcrc : (if maxRetriesWithCrc ≤ p.tries then CrcMode.add8 else p.crcMode) ≠ .none := by
    split
    next => exact nofun
    next => exact h.crcMode
  unfold headerTurn
  dsimp only
  rw [if_neg he]
  split
  next => exact ⟨rfl, rfl, fun _ => ⟨h.mode, hcrc, h.state⟩, ack_not_mem_invite _ _⟩
  next => exact ⟨rfl, rfl, fun hw => absurd hw (not_waits_fail _), not_mem_nil⟩

/-- The header of the file -/
theorem Heading.header (h : Heading S p) (hclosed : p.closed = []) {hd : Header} (hh : S.header = some hd)
    (seq : UInt8) (stale : Bytes) :
    ack ∈ (headerTurn p (.block seq hd.data) stale).2 ∧ Receiving S 0 (headerTurn p (.block seq hd.data) stale).1 := by
  unfold headerTurn headerBlock
  dsimp only
  obtain ⟨name, hname, hparse⟩ := parseFirstBlock_header hd ((if p.tries = 0 then [] else stale).drop hd.data.length)
  rw [hparse]
  dsimp only
  rw [if_neg hname]
  constructor
  · refine mem_append_left _ ?_
    rw [blockAck_eq (h.mode ▸ S.mode_ne) h.crcMode]
    exact mem_singleton_self _
  · have hstart : Receiving S 0 { p with
        nextBlk := 1, fileLen := Int.bmod hd.length (2 ^ 32), nbReceived := 0, state := .negociateCrc, fd := some [] } := by
      refine ⟨h.mode, h.crcMode, Or.inr ⟨rfl, rfl⟩, hclosed, ?_, rfl, fun hd' hh' => ?_⟩
      · rw [Session.payload_zero]
      · cases hh.symm.trans hh'
        dsimp only
        rw [Session.payload_zero]
        exact ⟨rfl, Int.natCast_zero.symm⟩
    exact hstart.negociateCrc rfl rfl

/-- `EOT` again, in place of a header -/
theorem Heading.eot (h : Heading S p) (stale : Bytes) :
    ack ∈ (headerTurn p .eot stale).2 ∧ (headerTurn p .eot stale).1.fd = p.fd
      ∧ (headerTurn p .eot stale).1.closed = p.closed ∧ ¬ (headerTurn p .eot stale).1.waits := by
  have hack : ack ∈ blockAck p.mode p.crcMode := by
    rw [blockAck_eq (h.mode ▸ S.mode_ne) h.crcMode]
    exact mem_singleton_self _
  unfold headerTurn
  generalize (if p.tries = 0 then [] else stale) = buf
  dsimp only
  unfold headerBlock
  dsimp only
  cases hparse : parseFirstBlock buf 0 with
  | none => exact ⟨hack, rfl, rfl, not_waits_fail _⟩
  | some header =>
    -- a block of length 0 has no name
    have hname : header.1 = [] := by
      unfold parseFirstBlock at hparse
      dsimp only at hparse
      split at hparse
      next => nomatch hparse
      next hle =>
      have hnil : buf.takeWhile (· ≠ 0) = [] := length_eq_zero_iff.mp (Nat.le_zero.mp (Nat.le_of_not_lt hle))
      rw [← Option.some.inj hparse, hnil]
      rfl
    dsimp only
    rw [if_pos hname]
    refine ⟨hack, rfl, rfl, ?_⟩
    rintro (hw | hw | hw) <;> nomatch hw

end

/-! ## Turns -/

section

theorem turn_of_receiving (h : Receiving S c p) (r : Round) :
    ∃ q, Receiving S c q ∧ q.state = p.state ∧ q.crcMode = p.crcMode
      ∧ xymodemTurn p r = bodyTurn q (p.read r.input) r.write := by
  refine ⟨{ p with totalCan := (xyReadBlock p.crcMode p.totalCan r.input).2 },
    ⟨h.mode, h.crcMode, h.state, h.closed, h.fd, h.nextBlk, h.lengths⟩, rfl, rfl, ?_⟩
  unfold xymodemTurn
  rcases h.state with hstate | ⟨hstate, _⟩ <;> rw [hstate]

theorem turn_of_heading (h : Heading S p) (r : Round) :
    ∃ q, Heading S q ∧ q.fd = p.fd ∧ q.closed = p.closed
      ∧ xymodemTurn p r = headerTurn q (p.read r.input) r.stale := by
  refine ⟨{ p with totalCan := (xyReadBlock p.crcMode p.totalCan r.input).2 }, ⟨h.mode, h.crcMode, h.state⟩, rfl, rfl, ?_⟩
  unfold xymodemTurn
  rw [h.state]

theorem turn_of_ended (h : ¬ p.waits) (r : Round) : xymodemTurn p r = (p, []) := by
  unfold xymodemTurn
  cases hstate : p.state with
  | getFilename => exact absurd (Or.inl hstate) h
  | negociateCrc => exact absurd (Or.inr (Or.inl hstate)) h
  | receiveBody => exact absurd (Or.inr (Or.inr hstate)) h
  | finishedFile => rfl
  | finishedXfer => rfl
  | failed => rfl

end

end Barebox.Xymodem
