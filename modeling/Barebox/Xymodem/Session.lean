import Barebox.Lib.Run
import Barebox.Xymodem.Model

/-!
# A sender and the line

The sender of one file: the header (Y-Modem only), the blocks with their numbers modulo 256,
and `EOT`. It sends the next frame when it gets an `ACK`, and the same one again otherwise.

The line may garble a frame, so that `xy_read_block` times out or sees that it is not right
(`Admissible`), and may lose the answer.
-/

namespace Barebox.Xymodem

open Lib

/-- A block of data has 128 bytes, or 1024. -/
structure Block where
  data : Bytes
  size : data.length = 128 ∨ data.length = 1024

/-- The header of a file: its name and its length, in decimal. A space may follow. -/
structure Header where
  name : Bytes
  digits : Bytes
  rest : Bytes
  named : name ≠ []
  noZero : ∀ c ∈ name, c ≠ 0
  decimal : ∀ c ∈ digits, isdigit c = true
  ends : rest.head? = some 0 ∨ rest.head? = some 0x20
  size : (name ++ 0 :: (digits ++ rest)).length = 128 ∨ (name ++ 0 :: (digits ++ rest)).length = 1024

def Header.data (h : Header) : Bytes := h.name ++ 0 :: (h.digits ++ h.rest)

/-- The announced length -/
def Header.length (h : Header) : Nat := digitsValue h.digits

/-- What is sent. With a header (Y-Modem) there are enough blocks for the announced length. -/
structure Session where
  header : Option Header
  blocks : List Block
  enough : ∀ h ∈ header, h.length ≤ ((blocks.map (·.data)).flatten).length

namespace Session

variable (S : Session)

def mode : Mode := if S.header.isSome then .ymodem else .xmodem

/-- What is to be in the file after some blocks -/
def payload (n : Nat) : Bytes :=
  let sent := ((S.blocks.take n).map (·.data)).flatten
  match S.header with
  | none => sent
  | some h => sent.take h.length

end Session

/-- Where the sender is: at the header, or at the block behind `j` others. `EOT` is behind the last. -/
inductive Place where
  | header
  | body (j : Nat)
  deriving DecidableEq

def Place.next : Place → Place
  | .header => .body 0
  | .body j => .body (j + 1)

/-- The frame that is sent, as it is to be read -/
def Session.frame (S : Session) : Place → Option Read
  | .header => S.header.map fun h => .block 0 h.data
  | .body j =>
    match S.blocks[j]? with
    | some b => some (.block (UInt8.ofNat (j + 1)) b.data)
    | none => if j = S.blocks.length then some .eot else none

/-- The sender and the receiver; `acked` says that the receiver has answered the frame with
`ACK`, though the sender has not got that. -/
structure System where
  place : Place
  acked : Bool
  rx : Ctxt

/-- The frame is sent (again), and answered. -/
def Session.step (S : Session) (s : System) (r : Round) : System :=
  if S.frame s.place = none then s
  else
    let (rx, replies) := xymodemTurn s.rx r
    if ack ∈ replies ∧ r.delivered then ⟨s.place.next, false, rx⟩ else ⟨s.place, s.acked || ack ∈ replies, rx⟩

def Session.start (S : Session) : System :=
  ⟨if S.header.isSome then .header else .body 0, false, xymodemOpen S.mode⟩

/-- What arrives is the frame, or is seen not to be right. -/
def Session.Admissible (S : Session) (s : System) (r : Round) : Prop :=
  ∀ f, S.frame s.place = some f → s.rx.read r.input = f ∨ s.rx.read r.input = .error .EBADMSG
    ∨ s.rx.read r.input = .error .ETIMEDOUT

/-! ## What is expected -/

/-- The number of blocks that the receiver has answered with `ACK` -/
def Session.taken (S : Session) : Place → Bool → Nat
  | .header, _ => 0
  | .body j, acked => min S.blocks.length (j + acked.toNat)

/-- What was written to the file -/
def Ctxt.written (p : Ctxt) : Bytes := ((p.closed ++ p.fd.toList).head?).getD []

/-- What is in a file then that had something in it before -/
def contentOf (old new : Bytes) : Bytes := overwrite 0 new old

/-- In each turn: the blocks that were answered with `ACK` are in the file, once and in
order, and nothing else; a repeated copy of such a block is answered with `ACK`; a block is
answered with `ACK` only if it was written in full; and a file that is closed has the
announced length. -/
structure Session.Reliable (S : Session) (old : Bytes) (s : System) (r : Round) : Prop where
  written : S.frame s.place ≠ none →
    (xymodemTurn s.rx r).1.written = S.payload (S.taken s.place (s.acked || ack ∈ (xymodemTurn s.rx r).2))
  repeated : s.acked = true → s.rx.waits → s.rx.read r.input ≠ .eot →
    S.frame s.place = some (s.rx.read r.input) → ack ∈ (xymodemTurn s.rx r).2
  full : ∀ j b, s.place = .body j → S.blocks[j]? = some b → s.acked = false → ack ∈ (xymodemTurn s.rx r).2 →
    min r.write (xferMax s.rx b.data.length) = ((S.payload (j + 1)).length - (S.payload j).length : Nat)
  length : S.frame s.place ≠ none → (xymodemTurn s.rx r).1.closed ≠ [] → ∀ h ∈ S.header,
    (contentOf old (xymodemTurn s.rx r).1.written).length = h.length

/-! ## What it takes -/

/-- A block is written in full: the announced length, as an `int`, still has room for it. -/
def Session.WritesWhole (S : Session) (j : Nat) (write : Int) : Prop :=
  let sofar := (S.payload j).length
  let more := (S.payload (j + 1)).length - sofar
  (more : Int) ≤ write ∧ ∀ h ∈ S.header, (more : Int) ≤ Int.bmod h.length (2 ^ 32) - sofar

/-- A frame that arrives: blocks are written in full, block 255 is not repeated, and the
file was not longer before. -/
def Session.Lossless (S : Session) (old : Bytes) (s : System) (r : Round) : Prop :=
  s.rx.waits → S.frame s.place = some (s.rx.read r.input) → ∀ j, s.place = .body j →
    if j < S.blocks.length then
      if s.acked then (j + 1) % 256 ≠ 255 else S.WritesWhole j r.write
    else s.acked = false → s.rx.state = .receiveBody → ∀ h ∈ S.header, old.length ≤ h.length

end Barebox.Xymodem
