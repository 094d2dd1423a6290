import Barebox.Crc32
import Barebox.Ctype
import Barebox.Partitions.Model

/-!
# GUID partition tables — `common/partitions/efi.c`

A header in block 1 says where the array of entries is, how many there are and how
large one is. The array is read as far as it fills blocks of 512 bytes, and its entries
are looked at 128 bytes apart, up to the first that is not valid.

Mirroring notes:
- headers and entries are their bytes; a header is read by offset. `EFAULT` is for a
  CRC over more bytes than the header's buffer has, or an entry behind the buffer of
  the array.
- `num_partition_entries * sizeof_partition_entry` is a product of 32 bits, and the
  number of entries becomes an `int`. `l` is the size of the `long` that the block of the
  array is put into.
- there is memory for the array. Messages, and `compare_gpts`, which only warns, are
  left out.
-/

namespace Barebox.Partitions

open Lib

/-- `GPT_HEADER_SIGNATURE` -/
def gptHeaderSignature : Nat := 0x5452415020494645

/-- `file_detect_partition_table(buf) == filetype_gpt` -/
def gptDetected (buf : Bytes) : Bool :=
  leNat (slice 510 2 buf) = 0xaa55 ∧ slice 512 8 buf = cstr "EFI PART"
    ∧ ∃ i ∈ List.range 4, buf.getD (446 + 16 * i + 4) 0 = 0xee ∧ le32 (446 + 16 * i + 8) buf = 1

/-- `last_lba` -/
def lastLba (disk : Disk) : Nat := disk.numBlocks - 1

/-- A pointer, or NULL if there was an error -/
def orNull {α : Type} : Except Errno α → Except Errno (Option α)
  | .ok a => .ok (some a)
  | .error .EFAULT => .error .EFAULT
  | .error _ => .ok none

/-- `num_partition_entries` -/
def numEntries (gpt : Bytes) : Nat := le32 80 gpt

/-- `sizeof_partition_entry` -/
def entrySize (gpt : Bytes) : Nat := le32 84 gpt

/-- The bytes of the array -/
def entryCount (gpt : Bytes) : Nat := numEntries gpt * entrySize gpt % 2 ^ 32

/-- `alloc_read_gpt_entries` -/
def readEntries (l : Long) (disk : Disk) (gpt : Bytes) : Except Errno (Option Bytes) :=
  let count := entryCount gpt
  if count = 0 then .ok none
  else
    match orNull (blockRead disk count (le64 72 gpt % 2 ^ l.bits) (count / 512)) with
    | .error e => .error e
    | .ok none => .ok none
    | .ok (some pte) => .ok (some (resized pte count))

/-- The CRC of a header, with its own field zero -/
def headerCrc (gpt : Bytes) : UInt32 := crc32 0 ((overwrite 16 [0, 0, 0, 0] gpt).take (le32 12 gpt))

/-- `is_gpt_valid`: the header and the entries -/
def isGptValid (l : Long) (disk : Disk) (lba : Nat) : Except Errno (Option (Bytes × Bytes)) :=
  match orNull (blockRead disk sectorSize lba 1) with
  | .error e => .error e
  | .ok none => .ok none
  | .ok (some gpt) =>
    if le64 0 gpt ≠ gptHeaderSignature then .ok none
    else if sectorSize < le32 12 gpt then .error .EFAULT
    else if (headerCrc gpt).toNat ≠ le32 16 gpt then .ok none
    else if le64 24 gpt ≠ lba then .ok none
    else if lastLba disk < le64 40 gpt then .ok none
    else if lastLba disk < le64 48 gpt then .ok none
    else
      match readEntries l disk gpt with
      | .error e => .error e
      | .ok none => .ok none
      | .ok (some ptes) => if (crc32 0 ptes).toNat ≠ le32 88 gpt then .ok none else .ok (some (gpt, ptes))

/-- `is_pte_valid` -/
def isPteValid (last : Nat) (pte : Bytes) : Bool :=
  ¬ (slice 0 16 pte = List.replicate 16 0 ∨ last < le64 32 pte ∨ last < le64 40 pte)

/-- `find_valid_gpt`. The alternate header is looked at in any case. -/
def findValidGpt (l : Long) (force : Bool) (disk : Disk) (buf : Bytes) : Except Errno (Option (Bytes × Bytes)) :=
  if force && !gptDetected buf then .ok none
  else
    match isGptValid l disk 1 with
    | .error e => .error e
    | .ok none => if force then isGptValid l disk (lastLba disk) else .ok none
    | .ok (some pgpt) =>
      match isGptValid l disk (le64 32 pgpt.1) with
      | .error e => .error e
      | .ok (some _) => .ok (some pgpt)
      | .ok none =>
        if force then
          match isGptValid l disk (lastLba disk) with
          | .error e => .error e
          | .ok _ => .ok (some pgpt)
        else .ok (some pgpt)

/-- `part_set_efi_name`: the lower bytes of 36 characters, up to a NUL -/
def efiName (pte : Bytes) : Bytes :=
  ((List.range 36).map fun i =>
    let c := pte.getD (56 + 2 * i) 0
    if c ≠ 0 ∧ !isprint c then 46 else c).takeWhile (· ≠ 0)

/-- `%pUl` -/
def uuidString (guid : Bytes) : Bytes :=
  let hex := fun i => zeroFilled 16 2 (guid.getD i 0).toNat
  [3, 2, 1, 0].flatMap hex ++ 45 :: [5, 4].flatMap hex ++ 45 :: [7, 6].flatMap hex ++ 45 :: [8, 9].flatMap hex
    ++ 45 :: [10, 11, 12, 13, 14, 15].flatMap hex

/-- The partition of an entry; the size is computed in 64 bits -/
def efiPart (pte : Bytes) : Partition :=
  ⟨efiName pte, 0, uuidString (slice 16 16 pte), le64 32 pte, (le64 40 pte + 2 ^ 64 - le64 32 pte + 1) % 2 ^ 64⟩

/-- The loop of `efi_partition`, over the entries that are left -/
def efiLoop (last : Nat) (ptes : Bytes) : List Nat → Except Errno (List Partition)
  | [] => .ok []
  | i :: rest =>
    if ptes.length < 128 * i + 128 then .error .EFAULT
    else if isPteValid last (slice (128 * i) 128 ptes) then
      (efiLoop last ptes rest).map (efiPart (slice (128 * i) 128 ptes) :: ·)
    else .ok []

/-- The entries that are looked at -/
def nbPart (gpt : Bytes) : Nat :=
  let nb := Int.bmod (numEntries gpt) (2 ^ 32)
  if maxPartition < nb then maxPartition else nb.toNat

/-- `efi_partition`, of a disk that begins with `buf` -/
def efiPartition (l : Long) (force : Bool) (disk : Disk) (buf : Bytes) : Except Errno (List Partition) :=
  match findValidGpt l force disk buf with
  | .error e => .error e
  | .ok none => .ok []
  | .ok (some (gpt, ptes)) => efiLoop (lastLba disk) ptes (List.range (nbPart gpt))

end Barebox.Partitions
