import Barebox.Base
import Barebox.Lib.Bytes

/-!
# The bad block aware NAND device — `drivers/mtd/nand/nand-bb.c`

A device over an MTD device that leaves out the bad eraseblocks. It keeps an
offset of its own into the raw device, which reads, seeks and flushed buffers
move on; the offset that the callers pass along is not looked at.

Mirroring notes:
- the chip is a byte for each raw offset. Programming clears bits, and a read,
  a write or an erase may fail at any place (`readError`, `writeError`,
  `eraseError`).
- `size_t` is as wide as `loff_t`. `int` has 32 bits, and a conversion to it
  is `Int.bmod`.
- `while` loops have fuel. Each turn moves on in the device or in the data, and
  the fuel is more than there is of either.
- `nand_bb_write` converts the count to `int`. `none` stands for what comes of a
  negative one (a `memcpy` of about the whole address space) and of zero (the
  turn changes nothing, and is repeated for ever).
- `malloc` hands out a buffer with something in it, which is an argument.
-/

namespace Barebox.Nandbb

open Lib

/-- `struct mtd_info`, and how the chip behaves. -/
structure Mtd where
  size : Nat
  erasesize : Nat
  pos : 0 < erasesize
  /-- By number of the eraseblock. -/
  bad : Nat → Bool
  readError : Nat → Option Errno
  writeError : Nat → Option Errno
  eraseError : Nat → Option Errno

/-- What is in the chip, by raw offset. -/
abbrev Flash := Nat → UInt8

/-- `mtd_block_isbad` -/
def Mtd.blockIsbad (mtd : Mtd) (ofs : Nat) : Bool := mtd.bad (ofs / mtd.erasesize)

/-- `mtd_read` -/
def mtdRead (mtd : Mtd) (flash : Flash) (from_ len : Nat) : Except Errno Bytes :=
  match (List.range' from_ len).findSome? mtd.readError with
  | some e => .error e
  | none => .ok ((List.range' from_ len).map flash)

/-- The bits of `buf` that are clear are cleared in the chip. -/
def program (flash : Flash) (ofs : Nat) (buf : Bytes) : Flash := fun i =>
  if ofs ≤ i ∧ i < ofs + buf.length then flash i &&& buf.getD (i - ofs) 0 else flash i

/-- `mtd_write` -/
def mtdWrite (mtd : Mtd) (flash : Flash) (ofs : Nat) (buf : Bytes) : Except Errno Flash :=
  match (List.range' ofs buf.length).findSome? mtd.writeError with
  | some e => .error e
  | none => .ok (program flash ofs buf)

/-- `struct nand_bb` -/
structure Bb where
  opened : Bool
  needsWrite : Bool
  offset : Nat
  flags : Nat
  writebuf : Bytes

/-- `BB_WRITEBUF_SIZE` -/
def writebufSize : Nat := 8192

/-! ## Reading -/

/-- The loop of `nand_bb_read`. -/
def readLoop (mtd : Mtd) (flash : Flash) : Nat → Nat → Nat → Bytes → Nat × Except Errno Bytes
  | 0, offset, _, buf => (offset, .ok buf)
  | fuel + 1, offset, count, buf =>
    if count = 0 then (offset, .ok buf)
    else if mtd.size ≤ offset then (offset, .ok buf)
    else if mtd.blockIsbad offset then readLoop mtd flash fuel (offset + mtd.erasesize) count buf
    else
      let now := min (min count (mtd.erasesize - offset % mtd.erasesize)) (mtd.size - offset)
      match mtdRead mtd flash offset now with
      | .error e => (offset, .error e)
      | .ok data => readLoop mtd flash fuel (offset + now) (count - now) (buf ++ data)

/-- `nand_bb_read`: the bytes that are in the buffer afterwards, and what is
returned. -/
def nandBbRead (mtd : Mtd) (flash : Flash) (bb : Bb) (count _offset : Nat) :
    Bb × Except Errno (Bytes × Int) :=
  let (offset, ret) := readLoop mtd flash (mtd.size + 1) bb.offset count []
  ({ bb with offset := offset }, ret.map fun buf => (buf, Int.bmod buf.length (2 ^ 32)))

/-- The loop of `nand_bb_lseek`. -/
def lseekLoop (mtd : Mtd) : Nat → Nat → Nat → Option Nat
  | 0, _, _ => none
  | fuel + 1, rawPos, offset =>
    if mtd.size ≤ rawPos then none
    else
      let now := min offset mtd.erasesize
      let (rawPos, offset) := if mtd.blockIsbad rawPos then (rawPos + mtd.erasesize, offset)
        else (rawPos + now, offset - now)
      if offset = 0 then some rawPos else lseekLoop mtd fuel rawPos offset

/-- The loop of `nand_bb_calc_size`. -/
def calcSizeLoop (mtd : Mtd) : Nat → Nat → Nat → Nat
  | 0, _, size => size
  | fuel + 1, pos, size =>
    if mtd.size ≤ pos then size
    else calcSizeLoop mtd fuel (pos + mtd.erasesize)
      (if mtd.blockIsbad pos then size else size + mtd.erasesize)

/-- `nand_bb_calc_size`, for a `cdev` that has been zeroed -/
def nandBbCalcSize (mtd : Mtd) : Nat := calcSizeLoop mtd (mtd.size + 1) 0 0

/-- `O_ACCMODE` -/
def accmode (flags : Nat) : Nat := flags % 4

/-- `nand_bb_lseek` -/
def nandBbLseek (mtd : Mtd) (bb : Bb) (offset : Nat) : Bb × Except Errno Unit :=
  if accmode bb.flags ≠ 0 then (bb, .error .ENOSYS)
  else
    match lseekLoop mtd (mtd.size + 1) 0 offset with
    | some rawPos => ({ bb with offset := rawPos }, .ok ())
    | none => (bb, .error .EINVAL)

/-! ## Writing -/

/-- The loop of `nand_bb_write_buf`: the chip, `bb->offset` and what is
returned. -/
def writeBufLoop (mtd : Mtd) : Nat → Flash → Nat → Nat → Bytes → Flash × Nat × Except Errno Unit
  | 0, flash, offset, _, _ => (flash, offset, .ok ())
  | fuel + 1, flash, offset, curOfs, buf =>
    if buf.length = 0 then (flash, offset, .ok ())
    else if mtd.size ≤ curOfs then (flash, offset, .error .ENOSPC)
    else if mtd.blockIsbad curOfs then
      writeBufLoop mtd fuel flash (offset + mtd.erasesize) (curOfs + mtd.erasesize) buf
    else
      let now := min buf.length mtd.erasesize
      if mtd.size - curOfs < now then (flash, offset, .error .ENOSPC)
      else
        match mtdWrite mtd flash curOfs (buf.take now) with
        | .error e => (flash, offset, .error e)
        | .ok flash => writeBufLoop mtd fuel flash offset (curOfs + now) (buf.drop now)

/-- `nand_bb_write_buf` -/
def nandBbWriteBuf (mtd : Mtd) (flash : Flash) (bb : Bb) (count : Nat) :
    Flash × Bb × Except Errno Unit :=
  let (flash, offset, ret) := writeBufLoop mtd (mtd.size + 2) flash bb.offset
    (bb.offset - bb.offset % writebufSize) (bb.writebuf.take count)
  (flash, { bb with offset := offset }, ret)

/-- The loop of `nand_bb_write`. -/
def writeLoop (mtd : Mtd) : Nat → Flash → Bb → Bytes → Flash × Bb × Option (Except Errno Unit)
  | 0, flash, bb, _ => (flash, bb, some (.ok ()))
  | fuel + 1, flash, bb, buf =>
    if buf.length = 0 then (flash, bb, some (.ok ()))
    else
      let wroffs := bb.offset % writebufSize
      let now := min (Int.bmod buf.length (2 ^ 32)) (writebufSize - wroffs : Nat)
      if now ≤ 0 then (flash, bb, none)
      else
        let now := now.toNat
        let bb := { bb with writebuf := overwrite wroffs (buf.take now) bb.writebuf }
        if wroffs + now = writebufSize then
          match nandBbWriteBuf mtd flash { bb with needsWrite := false } writebufSize with
          | (flash, bb, .error e) => (flash, bb, some (.error e))
          | (flash, bb, .ok ()) =>
            writeLoop mtd fuel flash { bb with offset := bb.offset + now } (buf.drop now)
        else writeLoop mtd fuel flash { bb with needsWrite := true, offset := bb.offset + now } (buf.drop now)

/-- `nand_bb_write` -/
def nandBbWrite (mtd : Mtd) (flash : Flash) (bb : Bb) (buf : Bytes) (_offset : Nat) :
    Flash × Bb × Option (Except Errno Int) :=
  let (flash, bb, ret) := writeLoop mtd (buf.length + 1) flash bb buf
  (flash, bb, ret.map fun ret => ret.map fun _ => Int.bmod buf.length (2 ^ 32))

/-- `nand_bb_open` -/
def nandBbOpen (bb : Bb) (flags : Nat) (malloc : Bytes) : Bb × Except Errno Unit :=
  if bb.opened then (bb, .error .EBUSY)
  else ({ opened := true, needsWrite := false, offset := 0, flags := flags, writebuf := malloc }, .ok ())

/-- `nand_bb_close` -/
def nandBbClose (mtd : Mtd) (flash : Flash) (bb : Bb) : Flash × Bb × Except Errno Unit :=
  let (flash, bb) :=
    if bb.needsWrite then
      let (flash, bb, _ret) := nandBbWriteBuf mtd flash bb (bb.offset % writebufSize)
      (flash, bb)
    else (flash, bb)
  (flash, { bb with opened := false, writebuf := [] }, .ok ())

/-! ## Erasing -/

/-- The loop of `nand_bb_erase`: the addresses that `mtd_erase` is called for,
and what is returned. -/
def eraseLoop (mtd : Mtd) : Nat → Nat → Int → List Nat × Except Errno Unit
  | 0, _, _ => ([], .ok ())
  | fuel + 1, offset, count =>
    if count = 0 then ([], .ok ())
    else if mtd.size < offset + mtd.erasesize then ([], .ok ())
    else if mtd.blockIsbad offset then eraseLoop mtd fuel (offset + mtd.erasesize) count
    else
      match mtd.eraseError offset with
      | some e => ([offset], .error e)
      | none =>
        let (erased, ret) := eraseLoop mtd fuel (offset + mtd.erasesize) (count - mtd.erasesize)
        (offset :: erased, ret)

/-- `nand_bb_erase` -/
def nandBbErase (mtd : Mtd) (count : Int) (offset : Nat) : List Nat × Except Errno Unit :=
  if offset ≠ 0 then ([], .error .EINVAL)
  else eraseLoop mtd (mtd.size + 1) offset count

end Barebox.Nandbb
