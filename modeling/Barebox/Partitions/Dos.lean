import Barebox.Partitions.Model

/-!
# DOS partitions — `common/partitions/dos.c`

The four entries of the master boot record, and behind the first extended one of them
a chain of extended boot records, each with one logical partition and the place of the
next record.

Mirroring notes:
- `pd` is empty before. A partition is added to the end of the list.
- the loop over the chain ends when `pd` is full; `room` is what is left of it.
- the parameter for the signature is left out.
-/

namespace Barebox.Partitions

open Lib

/-- An entry of a table: `type`, `partition_start` and `partition_size` -/
structure DosEntry where
  type : UInt8
  start : Nat
  size : Nat

/-- `table[i]` -/
def dosEntry (buf : Bytes) (i : Nat) : DosEntry :=
  ⟨buf.getD (446 + 16 * i + 4) 0, le32 (446 + 16 * i + 8) buf, le32 (446 + 16 * i + 12) buf⟩

/-- `is_extended_partition` -/
def isExtended (type : UInt8) : Bool := type = 5 ∨ type = 0x0f ∨ type = 0x85

/-- The `partuuid`, if there is a signature -/
def dosUuid (signature partno : Nat) : Bytes :=
  if signature = 0 then [] else zeroFilled 16 8 signature ++ 45 :: zeroFilled 10 2 partno

/-- The sanity checks of an extended boot record -/
def isEbr (buf : Bytes) : Bool :=
  buf.getD 0x1fe 0 = 0x55 ∧ buf.getD 0x1ff 0 = 0xaa ∧ ∀ b ∈ slice 0x1de 0x20 buf, b = 0

/-- `dos_extended_partition`: the partitions that are added -/
def dosExtended (disk : Disk) (firstSec signature : Nat) : (room ebrSector partno : Nat) →
    Except Errno (List Partition)
  | 0, _, _ => .ok []
  | room + 1, ebrSector, partno =>
    match blockRead disk sectorSize ebrSector 1 with
    | .error .EFAULT => .error .EFAULT
    | .error _ => .ok []
    | .ok buf =>
      if isEbr buf then
        let part : Partition := ⟨[], (dosEntry buf 0).type, dosUuid signature partno,
          (ebrSector + (dosEntry buf 0).start) % 2 ^ 32, (dosEntry buf 0).size⟩
        if (dosEntry buf 1).start = 0 then .ok [part]
        else
          (dosExtended disk firstSec signature room ((firstSec + (dosEntry buf 1).start) % 2 ^ 32)
            (partno + 1)).map (part :: ·)
      else .ok []

/-- The loop over the master boot record -/
def dosPrimary (buf : Bytes) : List Partition :=
  (List.range 4).filterMap fun i =>
    let entry := dosEntry buf i
    if entry.start = 0 then none
    else some ⟨[], entry.type, dosUuid (le32 0x1b8 buf) (i + 1), entry.start, entry.size⟩

/-- `dos_partition`, of a disk with that master boot record -/
def dosPartition (disk : Disk) (buf : Bytes) : Except Errno (List Partition) :=
  let primary := dosPrimary buf
  match primary.find? fun part => isExtended part.dosPartitionType with
  | none => .ok primary
  | some extended =>
    (dosExtended disk extended.firstSec (le32 0x1b8 buf) (maxPartition - primary.length) extended.firstSec 5).map
      (primary ++ ·)

end Barebox.Partitions
