import Barebox.Base
import Barebox.Lib.Bytes

/-!
# Disks and partition descriptions — `common/block.c`, `common/partitions/parser.h`

What the partition parsers share: blocks that are read into a buffer, the list of
partitions that they fill, and the numbers that they print.

Mirroring notes:
- the blocks of a disk have 512 bytes or more, and their size is an `int`. The parsers have buffers for blocks of
  512 bytes; a block that does not fit is written behind its buffer (`EFAULT`).
- a block number is shifted to an offset in 64 bits. What `cdev_read` returns goes through an
  `int`, so that 2 GiB and more that have been read are an error; callers only compare the
  result with 0. Less than 4 GiB are asked for.
-/

namespace Barebox.Partitions

open Lib

/-! ## Disks -/

/-- `struct block_device`, with its bytes -/
structure Disk where
  blockBits : Nat
  numBlocks : Nat
  data : Bytes
  bits : 9 ≤ blockBits ∧ blockBits < 31
  length : data.length = numBlocks * 2 ^ blockBits
  lt : data.length < 2 ^ 63

theorem sector_bits : 9 ≤ 9 ∧ 9 < 31 := by decide

/-- `SECTOR_SIZE` -/
def sectorSize : Nat := 512

/-- `block_read`, into a buffer of `room` bytes: a block that is not there ends it, if
the ones before have fitted. -/
def blockRead (disk : Disk) (room lba n : Nat) : Except Errno Bytes :=
  let size := 2 ^ disk.blockBits
  let block := lba % 2 ^ (64 - disk.blockBits)
  if n ≠ 0 ∧ disk.numBlocks < block + n ∧ (disk.numBlocks - block) * size ≤ room then .error .ENXIo
  else if room < n * size then .error .EFAULT
  -- the number of bytes, as an `int`
  else if 2 ^ 31 ≤ n * size then .error .EIo
  else .ok (slice (block * size) (n * size) disk.data)

/-- `get_unaligned_le32` -/
def le32 (off : Nat) (buf : Bytes) : Nat := leNat (slice off 4 buf)

/-- `le64_to_cpu` -/
def le64 (off : Nat) (buf : Bytes) : Nat := leNat (slice off 8 buf)

/-! ## Partitions -/

/-- `MAX_PARTITION` -/
def maxPartition : Nat := 128

/-- `struct partition`; a `struct partition_desc` is the list of them -/
structure Partition where
  name : Bytes
  dosPartitionType : UInt8
  partuuid : Bytes
  firstSec : Nat
  size : Nat
  deriving DecidableEq

/-! ## Numbers -/

/-- A digit, in lower case -/
def digit (n : Nat) : UInt8 := UInt8.ofNat (if n < 10 then 48 + n else 87 + n)

/-- The digits of a number, of which there are no more than `k` -/
def digits (base : Nat) : Nat → Nat → Bytes
  | 0, _ => []
  | k + 1, n => if n < base then [digit n] else digits base k (n / base) ++ [digit (n % base)]

/-- A number of 32 bits with leading zeros, as in `%08x` and `%02u` -/
def zeroFilled (base width n : Nat) : Bytes :=
  let s := digits base 10 n
  List.replicate (width - s.length) 48 ++ s

end Barebox.Partitions
