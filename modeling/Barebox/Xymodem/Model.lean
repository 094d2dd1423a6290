import Barebox.Strtox
import Barebox.Ratp.Packet

/-!
# X-Modem, Y-Modem — `lib/xymodem.c`

A receiver that asks for blocks and answers each of them. `xymodemTurn` is one call of
`xy_read_block` with all that comes after it, up to the next such call.

Mirroring notes:
- `input` is what arrives while `xy_read_block` waits; if it is not enough the call times
  out. What it has not read is lost, or is part of the next `input`.
- `write` returns `min write xfer_max`: a negative number is an error, others count the bytes
  that were written. A negative `xfer_max` is taken as such an error.
- a file that cannot be opened is one that cannot be written.
- `EOT` does not fill the buffer, and a block of 128 bytes only the beginning of it. What failed
  attempts have left there is `stale`.
- `fd` has what was written to the file that is open, `closed` what was written to the others.
- the counters that are only printed are left out.
-/

namespace Barebox.Xymodem

open Lib

def soh : UInt8 := 0x01
def stx : UInt8 := 0x02
def eot : UInt8 := 0x04
def ack : UInt8 := 0x06
def nak : UInt8 := 0x15
def can : UInt8 := 0x18

/-- `PROTO_XMODEM`, `PROTO_YMODEM`, `PROTO_YMODEM_G` -/
inductive Mode where
  | xmodem | ymodem | ymodemG
  deriving DecidableEq

/-- `CRC_NONE`, `CRC_ADD8`, `CRC_CRC16` -/
inductive CrcMode where
  | none | add8 | crc16
  deriving DecidableEq

inductive ProtoState where
  | getFilename | negociateCrc | receiveBody | finishedFile | finishedXfer
  -- `xymodem_handle` has returned an error
  | failed
  deriving DecidableEq

def maxRetries : Nat := 10
def maxRetriesWithCrc : Nat := 5
def maxCanBeforeAbort : Nat := 5

/-- `struct xyz_ctxt`, and the counters of `xymodem_handle` and `xy_get_file_header` -/
structure Ctxt where
  mode : Mode
  crcMode : CrcMode
  state : ProtoState
  fileLen : Int
  nbReceived : Int
  nextBlk : Int
  totalCan : Nat
  tries : Nat
  crcTries : Nat
  sameBlkRetries : Nat
  fd : Option Bytes
  closed : List Bytes

/-! ## Blocks -/

/-- `invite_filename_hdr` and `invite_file_body`, which are the same -/
def invite : Mode → CrcMode → UInt8
  | _, .none => 0
  | .ymodemG, _ => 0x47
  | _, .add8 => nak
  | _, .crc16 => 0x43

/-- `xy_block_ack` -/
def blockAck : Mode → CrcMode → Bytes
  | _, .none => []
  | .ymodemG, _ => []
  | _, _ => [ack]

/-- `xy_block_nack` -/
def blockNack : Mode → CrcMode → Bytes
  | _, .none => []
  | .ymodemG, _ => []
  | _, _ => [nak]

/-- What `xy_read_block` returns -/
inductive Read where
  | block (seq : UInt8) (data : Bytes)
  | eot
  | error (e : Errno)
  deriving DecidableEq

/-- The bytes that check a block -/
def checkBytes (crcMode : CrcMode) (data : Bytes) : Bytes :=
  match crcMode with
  | .none => []
  | .add8 => [data.foldl (· + ·) 0]
  | .crc16 => beBytes 2 (Ratp.crcItuT 0 data).toNat

/-- `xy_read_block` behind the first byte of a block -/
def readData (crcMode : CrcMode) (dataLen : Nat) (input : Bytes) : Read :=
  match input with
  | seq :: inverse :: input =>
    if 255 - seq ≠ inverse then .error .EBADMSG
    else
      let data := input.take dataLen
      let check := checkBytes crcMode data
      let found := slice dataLen check.length input
      if data.length < dataLen then .error .ETIMEDOUT
      else if found.length < check.length then .error .ETIMEDOUT
      else if found ≠ check then .error .EBADMSG
      else .block seq data
  | _ => .error .ETIMEDOUT

/-- `xy_read_block`, with `total_CAN` -/
def xyReadBlock (crcMode : CrcMode) : Nat → Bytes → Read × Nat
  | totalCan, [] => (.error .ETIMEDOUT, totalCan)
  | totalCan, hdr :: input =>
    if hdr = soh then (readData crcMode 128 input, totalCan)
    else if hdr = stx then (readData crcMode 1024 input, totalCan)
    else if hdr = can then
      if maxCanBeforeAbort < totalCan then (.error .ECONNABORTED, totalCan + 1)
      else xyReadBlock crcMode (totalCan + 1) input
    else if hdr = eot then (.eot, totalCan)
    else xyReadBlock crcMode totalCan input

/-- `check_blk_seq`; the remainder is that of C -/
def checkBlkSeq (nextBlk : Int) (seq : UInt8) : Except Errno Unit :=
  if (seq.toNat : Int) = Int.tmod (nextBlk - 1) 256 then .error .EALREADY
  else if (seq.toNat : Int) ≠ nextBlk then .error .EILSEQ
  else .ok ()

/-! ## The header of a file -/

/-- `parse_first_block`: the name and the length. What is behind the buffer is zero. -/
def parseFirstBlock (buf : Bytes) (len : Nat) : Option (Bytes × Int) :=
  let name := buf.takeWhile (· ≠ 0)
  if len < name.length then none
  else
    let num := (buf.drop (name.length + 1)).takeWhile fun c => c ≠ 0 ∧ c ≠ 0x20
    some (name.take 1023, Int.bmod (simpleStrtoull num 10).1 (2 ^ 32))

def Ctxt.fail (p : Ctxt) : Ctxt := { p with state := .failed }

/-- `PROTO_STATE_GET_FILENAME`, up to the first block -/
def getFilename (p : Ctxt) : Ctxt × Bytes :=
  ({ p with state := .getFilename, crcTries := 0, crcMode := .crc16, tries := 0 }, [invite p.mode .crc16])

/-- `PROTO_STATE_NEGOCIATE_CRC`, up to a block -/
def negociateCrc (p : Ctxt) : Ctxt × Bytes :=
  ({ p with
      nextBlk := 1
      crcTries := p.crcTries + 1
      crcMode := if maxRetriesWithCrc < p.crcTries then .add8 else p.crcMode },
    [invite p.mode p.crcMode])

/-- `xy_get_file_header` and `xy_await_header` with a block -/
def headerBlock (p : Ctxt) (buf : Bytes) (len : Nat) : Ctxt × Bytes :=
  let p := { p with nextBlk := 1 }
  match parseFirstBlock buf len with
  | none => (p.fail, blockAck p.mode p.crcMode)
  | some (name, fileLen) =>
    let p := { p with fileLen := fileLen, nbReceived := 0 }
    if name = [] then ({ p with state := .finishedXfer }, blockAck p.mode p.crcMode)
    else
      let (q, invites) := negociateCrc { p with state := .negociateCrc, fd := some [] }
      (q, blockAck p.mode p.crcMode ++ invites)

/-- The loop of `xy_get_file_header`; the number of tries goes up by two. -/
def headerTurn (p : Ctxt) (read : Read) (stale : Bytes) : Ctxt × Bytes :=
  -- the buffer is cleared before the first attempt only
  let stale := if p.tries = 0 then [] else stale
  match read with
  | .block _ data => headerBlock p (data ++ stale.drop data.length) data.length
  | .eot => headerBlock p stale 0
  | .error e =>
    if e = .ECONNABORTED then (p.fail, [])
    else
      let p := { p with crcMode := if maxRetriesWithCrc ≤ p.tries then .add8 else p.crcMode, tries := p.tries + 2 }
      if p.tries < maxRetries then (p, [invite p.mode p.crcMode]) else (p.fail, [])

/-! ## The body of a file -/

/-- The end of the loop of `xymodem_handle`, after an error -/
def Ctxt.retry (p : Ctxt) : Ctxt :=
  let p := { p with sameBlkRetries := p.sameBlkRetries + 1 }
  if maxRetries < p.sameBlkRetries then p.fail else p

/-- `xfer_max` -/
def xferMax (p : Ctxt) (len : Nat) : Int :=
  if p.mode = .xmodem then len else min len (p.fileLen - p.nbReceived)

/-- A block that is expected; `rc` is what `write` returns. -/
def writeBlock (p : Ctxt) (seq : UInt8) (data : Bytes) (rc : Int) : Ctxt × Bytes :=
  let q := { p with
    fd := p.fd.map (· ++ data.take rc.toNat)
    nextBlk := (seq.toNat + 1) % 256
    nbReceived := Int.bmod (p.nbReceived + rc) (2 ^ 32) }
  (if rc < 0 then q.retry else { q with sameBlkRetries := 0 }, blockAck p.mode p.crcMode)

/-- `xy_finish_file` and `PROTO_STATE_FINISHED_FILE` -/
def finishFile (p : Ctxt) : Ctxt × Bytes :=
  let p := { p with fd := none, closed := p.closed ++ p.fd.toList, sameBlkRetries := 0 }
  if p.mode = .xmodem then ({ p with state := .finishedXfer }, [ack])
  else
    let (q, invites) := getFilename p
    (q, ack :: invites)

/-- `-ETIMEDOUT`, `-EBADMSG`, `-EILSEQ` -/
def refuse (p : Ctxt) : Ctxt × Bytes :=
  if p.mode = .ymodemG then (p.fail, []) else (p.retry, blockNack p.mode p.crcMode)

/-- `PROTO_STATE_NEGOCIATE_CRC` and `PROTO_STATE_RECEIVE_BODY`. In the first only a block is looked at. -/
def bodyTurn (p : Ctxt) (read : Read) (write : Int) : Ctxt × Bytes :=
  match read with
  | .block seq data =>
    let p := { p with state := .receiveBody }
    match checkBlkSeq p.nextBlk seq with
    | .error .EALREADY => (p.retry, blockAck p.mode p.crcMode)
    | .error _ => refuse p
    | .ok () => writeBlock p seq data (min write (xferMax p data.length))
  | .eot => if p.state = .negociateCrc then negociateCrc p else finishFile p
  | .error e =>
    if p.state = .negociateCrc then negociateCrc p
    else if e = .ECONNABORTED then (p.fail, [])
    else refuse p

/-! ## Turns -/

/-- What happens while `xy_read_block` waits, and after it -/
structure Round where
  input : Bytes
  stale : Bytes
  write : Int
  /-- the answer reaches the sender -/
  delivered : Bool

/-- What `xy_read_block` returns next -/
def Ctxt.read (p : Ctxt) (input : Bytes) : Read := (xyReadBlock p.crcMode p.totalCan input).1

def Ctxt.waits (p : Ctxt) : Prop := p.state = .getFilename ∨ p.state = .negociateCrc ∨ p.state = .receiveBody

instance (p : Ctxt) : Decidable p.waits := inferInstanceAs (Decidable (_ ∨ _))

/-- A block, and what is done and answered -/
def xymodemTurn (p : Ctxt) (r : Round) : Ctxt × Bytes :=
  let read := p.read r.input
  let q := { p with totalCan := (xyReadBlock p.crcMode p.totalCan r.input).2 }
  match p.state with
  | .getFilename => headerTurn q read r.stale
  | .negociateCrc | .receiveBody => bodyTurn q read r.write
  | .finishedFile | .finishedXfer | .failed => (p, [])

/-- `xymodem_open`, up to the first block -/
def xymodemOpen (mode : Mode) : Ctxt :=
  let p : Ctxt := {
    mode := mode, crcMode := .crc16, state := .negociateCrc, fileLen := 0, nbReceived := 0, nextBlk := 0, totalCan := 0,
    tries := 0, crcTries := 0, sameBlkRetries := 0, fd := none, closed := [] }
  if mode = .xmodem then (negociateCrc { p with fd := some [] }).1 else (getFilename p).1

end Barebox.Xymodem
