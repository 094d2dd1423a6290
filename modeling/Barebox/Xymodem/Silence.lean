import Barebox.Xymodem.Receiver

/-!
# The end of a reception — `lib/xymodem.c`

After a while the sender is silent: every further call of `xy_read_block` times out. The
tries for a header are counted, and so are those for a block in the midst of a file, so that
the receiver gives up (`patience`). Those for the first block of a file are not, and neither
`EOT` nor `CAN` is looked at then: a reception ends if and only if the receiver does not wait
for such a block when the sender falls silent (`reception_ends_iff`).
-/

namespace Barebox.Xymodem

open Lib

def turn (p : Ctxt) (r : Round) : Ctxt := (xymodemTurn p r).1

/-- `do_load_serial_xmodem`, `do_load_serial_ymodem` or `do_load_serial_ymodemg` returns, however it
goes on after the last byte. -/
def Ends (mode : Mode) (rounds : List Round) : Prop :=
  ∃ n, ∀ l : List Round, (∀ r ∈ l, r.input = []) → l.length = n →
    ¬ (run turn (xymodemOpen mode) (rounds ++ l)).waits

/-- How many more times nothing may arrive -/
def patience (p : Ctxt) : Nat :=
  match p.state with
  | .getFilename => maxRetries - p.tries
  | .receiveBody => maxRetries - p.sameBlkRetries + 1
  | _ => 0

variable {p : Ctxt} {r : Round}

theorem turn_eq (hr : r.input = []) : turn p r = match p.state with
    | .getFilename => (headerTurn p (.error .ETIMEDOUT) r.stale).1
    | .negociateCrc | .receiveBody => (bodyTurn p (.error .ETIMEDOUT) r.write).1
    | .finishedFile | .finishedXfer | .failed => p := by
  unfold turn xymodemTurn
  rw [hr]
  cases p with
  | mk _ _ state => cases state <;> rfl

/-- There is no end to the wait for the first block. -/
theorem turn_stuck (hr : r.input = []) (hp : p.state = .negociateCrc) : (turn p r).state = .negociateCrc := by
  rw [turn_eq hr, hp]
  unfold bodyTurn
  dsimp only
  rw [if_pos hp]
  exact hp

/-- There is one to any other. -/
theorem turn_silent (hr : r.input = []) (hp : p.state ≠ .negociateCrc) : (turn p r).state ≠ .negociateCrc
    ∧ ((turn p r).waits → patience (turn p r) < patience p) := by
  have hfail : ∀ q : Ctxt, q.fail.state ≠ .negociateCrc ∧ (q.fail.waits → patience q.fail < patience p) :=
    fun q => ⟨nofun, fun h => absurd h (not_waits_fail q)⟩
  rw [turn_eq hr]
  cases hs : p.state with
  | getFilename =>
    -- a silent turn costs a retry, or ends the transfer
    unfold headerTurn
    dsimp only
    rw [if_neg (by decide)]
    split
    next hlt =>
      refine ⟨fun h => hp h, fun _ => ?_⟩
      unfold patience
      rw [hs]
      dsimp only
      omega
    next => exact hfail _
  | negociateCrc => exact absurd hs hp
  | receiveBody =>
    unfold bodyTurn refuse Ctxt.retry
    dsimp only
    rw [if_neg hp, if_neg (by decide)]
    split
    next => exact hfail p
    next =>
    split
    next => exact hfail _
    next hle =>
    refine ⟨fun h => hp h, fun _ => ?_⟩
    unfold patience
    rw [hs]
    dsimp only
    omega
  | _ => exact ⟨hp, fun h => by unfold Ctxt.waits at h; rw [hs] at h; simp at h⟩

theorem run_stuck : ∀ (n : Nat) {p : Ctxt}, p.state = .negociateCrc →
    (run turn p (List.replicate n ⟨[], [], 0, false⟩)).state = .negociateCrc
  | 0, _, hp => hp
  | n + 1, _, hp => run_stuck n (turn_stuck rfl hp)

theorem run_ended (hp : ¬ p.waits) (l : List Round) : run turn p l = p := by
  induction l with
  | nil => rfl
  | cons r l ih =>
    rw [run_cons, turn, turn_of_ended hp]
    exact ih

theorem run_silent : ∀ (l : List Round) {p : Ctxt}, (∀ r ∈ l, r.input = []) → p.state ≠ .negociateCrc →
    patience p < l.length → ¬ (run turn p l).waits
  | [], _, _, _, hlt => absurd hlt (Nat.not_lt_zero _)
  | r :: l, p, hl, hp, hlt => by
    obtain ⟨hr, hl⟩ := List.forall_mem_cons.mp hl
    obtain ⟨hp', hless⟩ := turn_silent hr hp
    by_cases hw : (turn p r).waits
    · exact run_silent l hl hp' (Nat.lt_of_lt_of_le (hless hw) (Nat.le_of_lt_succ hlt))
    · rw [run_cons, run_ended hw]
      exact hw

theorem not_ends {mode : Mode} {rounds : List Round}
    (h : (run turn (xymodemOpen mode) rounds).state = .negociateCrc) : ¬ Ends mode rounds := by
  intro ⟨n, hends⟩
  refine hends (List.replicate n ⟨[], [], 0, false⟩) (fun r hr => ?_) List.length_replicate ?_
  · rw [List.eq_of_mem_replicate hr]
  · rw [run_append]
    exact .inr (.inl (run_stuck n h))

/-- **Receptions end**, except where the first block of a file is waited for. -/
theorem reception_ends_iff (mode : Mode) (rounds : List Round) :
    Ends mode rounds ↔ (run turn (xymodemOpen mode) rounds).state ≠ .negociateCrc := by
  constructor
  · exact fun hends h => not_ends h hends
  · intro h
    refine ⟨patience (run turn (xymodemOpen mode) rounds) + 1, fun l hl hlen => ?_⟩
    rw [run_append]
    exact run_silent l hl h (hlen ▸ Nat.lt_succ_self _)

/-- An empty file: the `EOT` that comes first is passed over. -/
theorem empty_file_waits : ¬ ∀ mode rounds, Ends mode rounds :=
  fun h => not_ends rfl (h .xmodem [⟨[eot], [], 0, false⟩])

end Barebox.Xymodem
