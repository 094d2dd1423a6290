import Barebox.Partitions.Dos

/-!
# Chains of extended boot records

The logical partitions by the books: each in the sector of its own record plus its
entry, the next record at the start of the extended partition plus the second entry,
and the number of the partition in hex. `dosPartition` finds them if and only if no sum
on the way is too large for 32 bits and, with a signature, no number has a letter in
it or two digits (`dos_partition_iff`).
-/

namespace Barebox.Partitions

open Lib

/-! ## The partitions by the books -/

/-- The record in a block, if there is such a block. -/
def sectorAt (disk : Disk) (sector : Nat) : Option Bytes :=
  if sector < disk.numBlocks then some (slice (sector * 2 ^ disk.blockBits) sectorSize disk.data) else none

def bookUuid (signature partno : Nat) : Bytes :=
  if signature = 0 then [] else zeroFilled 16 8 signature ++ 45 :: zeroFilled 16 2 partno

def bookLogical (disk : Disk) (firstSec signature : Nat) : (room ebrSector partno : Nat) → List Partition
  | 0, _, _ => []
  | room + 1, ebrSector, partno =>
    match sectorAt disk ebrSector with
    | none => []
    | some buf =>
      if isEbr buf then
        ⟨[], (dosEntry buf 0).type, bookUuid signature partno, ebrSector + (dosEntry buf 0).start,
            (dosEntry buf 0).size⟩
          :: if (dosEntry buf 1).start = 0 then []
            else bookLogical disk firstSec signature room (firstSec + (dosEntry buf 1).start) (partno + 1)
      else []

def bookPrimary (buf : Bytes) : List Partition :=
  (List.range 4).filterMap fun i =>
    let entry := dosEntry buf i
    if entry.start = 0 then none
    else some ⟨[], entry.type, bookUuid (le32 0x1b8 buf) (i + 1), entry.start, entry.size⟩

/-- Primary partitions, and the logical ones of the first that is extended, as many as
there is room for. -/
def bookPartitions (disk : Disk) (buf : Bytes) : List Partition :=
  let primary := bookPrimary buf
  match primary.find? fun part => isExtended part.dosPartitionType with
  | none => primary
  | some extended => primary ++
    bookLogical disk extended.firstSec (le32 0x1b8 buf) (maxPartition - primary.length) extended.firstSec 5

/-! ## What it takes to find them -/

/-- There is no record in that block. -/
def Ends (disk : Disk) (sector : Nat) : Prop := ∀ buf, sectorAt disk sector = some buf → isEbr buf = false

/-- The chain from a record on: blocks that fit the buffer, sums that fit 32 bits (or
lead nowhere, and nowhere without their upper bits), and numbers of one digit. -/
def ChainInRange (disk : Disk) (firstSec signature : Nat) : (room ebrSector partno : Nat) → Prop
  | 0, _, _ => True
  | room + 1, ebrSector, partno => ∀ buf, sectorAt disk ebrSector = some buf →
    disk.blockBits = 9 ∧ (isEbr buf = true →
      ebrSector + (dosEntry buf 0).start < 2 ^ 32 ∧ (signature ≠ 0 → partno < 10)
      ∧ ((dosEntry buf 1).start ≠ 0 → room ≠ 0 →
        if firstSec + (dosEntry buf 1).start < 2 ^ 32 then
          ChainInRange disk firstSec signature room (firstSec + (dosEntry buf 1).start) (partno + 1)
        else Ends disk (firstSec + (dosEntry buf 1).start)
          ∧ Ends disk ((firstSec + (dosEntry buf 1).start) % 2 ^ 32)))

/-! ## Numbers -/

/-- Decimal and hex are the same for one digit only, as far as there are partitions. -/
theorem zeroFilled_iff : ∀ n < 133, zeroFilled 10 2 n = zeroFilled 16 2 n ↔ n < 10 := by
  decide +kernel

variable {partno signature : Nat}

/-- The number is printed in decimal: it is right below ten. -/
theorem dosUuid_iff (h : partno < 133) :
    dosUuid signature partno = bookUuid signature partno ↔ (signature ≠ 0 → partno < 10) := by
  unfold dosUuid bookUuid
  by_cases hz : signature = 0
  · rw [if_pos hz, if_pos hz]
    exact iff_of_true rfl fun hne => absurd hz hne
  · rw [if_neg hz, if_neg hz, List.append_cancel_left_eq, List.cons.injEq, zeroFilled_iff partno h]
    exact ⟨fun hlt _ => hlt.2, fun hlt => ⟨rfl, hlt hz⟩⟩

theorem le32_lt (off : Nat) (buf : Bytes) : le32 off buf < 2 ^ 32 := by
  have hlen : (slice off 4 buf).length ≤ 4 := by
    exact List.length_take_le ..
  exact Nat.lt_of_lt_of_le (leNat_lt _) (Nat.pow_le_pow_right (by decide) hlen)

theorem dosPrimary_eq (buf : Bytes) : dosPrimary buf = bookPrimary buf := by
  refine List.filterMap_congr fun i hi => ?_
  have hlt := List.mem_range.mp hi
  rw [(dosUuid_iff (show i + 1 < 133 by omega)).mpr fun _ => by omega]

/-! ## Blocks -/

section

variable {disk : Disk} {sector : Nat}

/-- A number of 32 bits is not cut by the shift. -/
theorem mod_of_lt (disk : Disk) (hlt : sector < 2 ^ 32) : sector % 2 ^ (64 - disk.blockBits) = sector := by
  refine Nat.mod_eq_of_lt (Nat.lt_of_lt_of_le hlt (Nat.pow_le_pow_right (by decide) ?_))
  have := disk.bits
  omega

theorem blockRead_none (hlt : sector < 2 ^ 32) (h : sectorAt disk sector = none) :
    blockRead disk sectorSize sector 1 = .error .ENXIo := by
  unfold sectorAt at h
  split at h
  next => nomatch h
  next hout =>
  have hzero : disk.numBlocks - sector = 0 := by omega
  unfold blockRead
  simp only [mod_of_lt disk hlt, hzero, Nat.zero_mul]
  exact if_pos ⟨by decide, by omega, Nat.zero_le _⟩

/-- A block that is there, by its size. -/
theorem blockRead_some (hlt : sector < 2 ^ 32) {buf : Bytes} (h : sectorAt disk sector = some buf) :
    blockRead disk sectorSize sector 1 = if disk.blockBits = 9 then .ok buf else .error .EFAULT := by
  have hbits := disk.bits
  unfold sectorAt at h
  split at h
  next hin =>
    unfold blockRead
    simp only [mod_of_lt disk hlt, Nat.one_mul]
    rw [if_neg (by omega)]
    by_cases h9 : disk.blockBits = 9
    · rw [← Option.some.inj h, h9]
      exact if_neg (by decide)
    have hlarge : 2 ^ 10 ≤ 2 ^ disk.blockBits := Nat.pow_le_pow_right (by decide) (by omega)
    rw [if_neg h9]
    refine if_pos ?_
    unfold sectorSize
    omega
  next => nomatch h

end

/-! ## The chain -/

section

variable {disk : Disk} {firstSec : Nat}

/-- A chain that comes to its end at once. -/
theorem bookLogical_nil_iff (firstSec signature room sector partno : Nat) :
    bookLogical disk firstSec signature (room + 1) sector partno = [] ↔ Ends disk sector := by
  rw [bookLogical]
  unfold Ends
  cases sectorAt disk sector with
  | none => exact iff_of_true rfl nofun
  | some buf =>
    dsimp only
    cases hebr : isEbr buf with
    | true => exact iff_of_false nofun fun h => by simp [h buf rfl] at hebr
    | false =>
      refine iff_of_true rfl fun buf' hbuf => ?_
      rw [← Option.some.inj hbuf, hebr]

theorem map_cons_iff {a b : Partition} {r : Except Errno (List Partition)} {l : List Partition} :
    r.map (a :: ·) = .ok (b :: l) ↔ a = b ∧ r = .ok l := by
  cases r with
  | error e => exact iff_of_false nofun fun h => (nomatch h.2)
  | ok l' =>
    change Except.ok (a :: l') = .ok (b :: l) ↔ _
    rw [Except.ok.injEq, List.cons.injEq, Except.ok.injEq]

variable {sector room : Nat}

/-- A record that is read is listed, with 32 bits of its sum. -/
theorem dosExtended_ebr (h9 : disk.blockBits = 9) (hlt : sector < 2 ^ 32) {buf : Bytes}
    (hat : sectorAt disk sector = some buf) (hebr : isEbr buf = true) :
    dosExtended disk firstSec signature (room + 1) sector partno
      = (if (dosEntry buf 1).start = 0 then .ok []
        else dosExtended disk firstSec signature room ((firstSec + (dosEntry buf 1).start) % 2 ^ 32) (partno + 1)).map
        (⟨[], (dosEntry buf 0).type, dosUuid signature partno, (sector + (dosEntry buf 0).start) % 2 ^ 32,
          (dosEntry buf 0).size⟩ :: ·) := by
  rw [dosExtended, blockRead_some hlt hat, if_pos h9]
  dsimp only
  rw [if_pos hebr]
  split
  next => rfl
  next => rfl

/-- Nothing is listed where there is no record. -/
theorem dosExtended_ends (h9 : disk.blockBits = 9) (hlt : sector < 2 ^ 32)
    (hends : Ends disk sector) : dosExtended disk firstSec signature room sector partno = .ok [] := by
  cases room with
  | zero => rw [dosExtended]
  | succ room =>
    rw [dosExtended]
    cases hat : sectorAt disk sector with
    | none => rw [blockRead_none hlt hat]
    | some buf =>
      rw [blockRead_some hlt hat, if_pos h9]
      dsimp only
      rw [if_neg (by simp [hends buf hat])]

/-- A record that is too far away for 32 bits: what is read in its place is not it. -/
theorem chain_wrap_iff (h9 : disk.blockBits = 9) (hwrap : 2 ^ 32 ≤ sector) :
    dosExtended disk firstSec signature (room + 1) (sector % 2 ^ 32) partno
        = .ok (bookLogical disk firstSec signature (room + 1) sector partno)
      ↔ Ends disk sector ∧ Ends disk (sector % 2 ^ 32) := by
  have hlt : sector % 2 ^ 32 < 2 ^ 32 := Nat.mod_lt _ (by decide)
  constructor
  · intro heq
    -- a partition that is listed begins below 2^32, and one by the books behind it
    have hbook : Ends disk sector := by
      intro buf hat
      cases hebr : isEbr buf with
      | false => rfl
      | true =>
        rw [bookLogical, hat] at heq
        dsimp only at heq
        rw [if_pos hebr] at heq
        cases hat' : sectorAt disk (sector % 2 ^ 32) with
        | none =>
          rw [dosExtended_ends h9 hlt fun buf' hbuf => by rw [hat'] at hbuf; nomatch hbuf] at heq
          nomatch heq
        | some buf' =>
          cases hebr' : isEbr buf' with
          | false =>
            have hends : Ends disk (sector % 2 ^ 32) := by
              intro buf'' hbuf
              rw [hat'] at hbuf
              rw [← Option.some.inj hbuf, hebr']
            rw [dosExtended_ends h9 hlt hends] at heq
            nomatch heq
          | true =>
            rw [dosExtended_ebr h9 hlt hat' hebr', map_cons_iff] at heq
            have hfirst := (Partition.mk.inj heq.1).2.2.2.1
            omega
    refine ⟨hbook, fun buf hat => ?_⟩
    rw [(bookLogical_nil_iff ..).mpr hbook] at heq
    cases hebr : isEbr buf with
    | false => rfl
    | true =>
      rw [dosExtended_ebr h9 hlt hat hebr] at heq
      split at heq
      next => nomatch heq
      next =>
      cases hrest : dosExtended disk firstSec signature room ((firstSec + (dosEntry buf 1).start) % 2 ^ 32)
          (partno + 1) with
      | error e =>
        rw [hrest] at heq
        nomatch heq
      | ok l =>
        rw [hrest] at heq
        nomatch heq
  · intro ⟨hbook, hends⟩
    rw [(bookLogical_nil_iff ..).mpr hbook, dosExtended_ends h9 hlt hends]

/-- A chain is followed to the end, or as far as there is room, if and only if it is in range. -/
theorem chain_iff (room : Nat) : ∀ {sector partno : Nat}, sector < 2 ^ 32 → partno + room ≤ 133 →
    (dosExtended disk firstSec signature room sector partno = .ok (bookLogical disk firstSec signature room sector partno)
      ↔ ChainInRange disk firstSec signature room sector partno) := by
  induction room with
  | zero =>
    intro sector partno _ _
    exact iff_of_true rfl trivial
  | succ room ih =>
    intro sector partno hlt hroom
    rw [bookLogical, ChainInRange]
    cases hat : sectorAt disk sector with
    | none =>
      rw [dosExtended, blockRead_none hlt hat]
      exact iff_of_true rfl nofun
    | some buf =>
      simp only [Option.some.injEq, forall_eq']
      by_cases h9 : disk.blockBits = 9
      · rw [and_iff_right h9]
        cases hebr : isEbr buf with
        | false =>
          rw [dosExtended_ends h9 hlt fun buf' hbuf => by rw [← Option.some.inj (hat.symm.trans hbuf), hebr]]
          exact iff_of_true rfl nofun
        | true =>
          have hpart : (⟨[], (dosEntry buf 0).type, dosUuid signature partno, (sector + (dosEntry buf 0).start) % 2 ^ 32,
                (dosEntry buf 0).size⟩ : Partition)
              = ⟨[], (dosEntry buf 0).type, bookUuid signature partno, sector + (dosEntry buf 0).start,
                (dosEntry buf 0).size⟩
              ↔ sector + (dosEntry buf 0).start < 2 ^ 32 ∧ (signature ≠ 0 → partno < 10) := by
            rw [Partition.mk.injEq, dosUuid_iff (by omega), Nat.mod_eq_iff_lt (by decide)]
            exact ⟨fun h => ⟨h.2.2.2.1, h.2.2.1⟩, fun h => ⟨rfl, rfl, h.2, h.1, rfl⟩⟩
          rw [dosExtended_ebr h9 hlt hat hebr, if_pos rfl, map_cons_iff, hpart, and_assoc]
          refine (and_congr_right fun _ => and_congr_right fun _ => ?_).trans ⟨fun h _ => h, fun h => h rfl⟩
          -- the rest of the chain
          by_cases hnext : (dosEntry buf 1).start = 0
          · rw [if_pos hnext, if_pos hnext]
            exact iff_of_true rfl fun hne => absurd hnext hne
          rw [if_neg hnext, if_neg hnext]
          refine Iff.trans ?_ (show _ ↔ _ from ⟨fun h _ => h, fun h => h hnext⟩)
          cases room with
          | zero => exact iff_of_true rfl fun hne => absurd rfl hne
          | succ room =>
            refine Iff.trans ?_ (show _ ↔ _ from ⟨fun h _ => h, fun h => h (Nat.succ_ne_zero room)⟩)
            split
            next hsmall =>
              rw [Nat.mod_eq_of_lt hsmall]
              exact ih hsmall (by omega)
            next hwrap => exact chain_wrap_iff h9 (by omega)
      · have hread := blockRead_some hlt hat
        rw [if_neg h9] at hread
        rw [dosExtended, hread]
        exact iff_of_false nofun fun h => h9 h.1

end

/-- The partitions of a disk are the primary ones and, behind the first extended one, the
chain by the books, if and only if that chain is in range. -/
theorem dos_partition_iff (disk : Disk) (buf : Bytes) :
    dosPartition disk buf = .ok (bookPartitions disk buf)
      ↔ ∀ extended, (dosPrimary buf).find? (fun part => isExtended part.dosPartitionType) = some extended →
        ChainInRange disk extended.firstSec (le32 0x1b8 buf) (maxPartition - (dosPrimary buf).length)
          extended.firstSec 5 := by
  unfold dosPartition bookPartitions
  rw [← dosPrimary_eq]
  dsimp only
  cases hfind : (dosPrimary buf).find? fun part => isExtended part.dosPartitionType with
  | none => exact iff_of_true rfl nofun
  | some extended =>
    have hlt : extended.firstSec < 2 ^ 32 := by
      have hmem := List.mem_of_find?_eq_some hfind
      obtain ⟨i, -, hpart⟩ := List.mem_filterMap.mp hmem
      dsimp only at hpart
      split at hpart
      next => nomatch hpart
      next =>
      rw [← Option.some.inj hpart]
      exact le32_lt _ _
    simp only [Option.some.injEq, forall_eq']
    rw [← chain_iff _ hlt (by unfold maxPartition; omega)]
    cases dosExtended disk extended.firstSec (le32 0x1b8 buf) (maxPartition - (dosPrimary buf).length)
        extended.firstSec 5 with
    | error e => exact iff_of_false nofun nofun
    | ok l =>
      change Except.ok (dosPrimary buf ++ l) = _ ↔ _
      rw [Except.ok.injEq, Except.ok.injEq, List.append_cancel_left_eq]

/-! A chain that leads back to its second record -/

/-- Entries of a table: type, start and size -/
def tableEntry (type : UInt8) (start size : Nat) : Bytes :=
  [0, 0, 0, 0, type, 0, 0, 0] ++ leBytes 4 start ++ leBytes 4 size

/-- A record with a logical partition right behind it, and the next record in the second
sector of the extended partition. -/
def loopEbr : Bytes :=
  List.replicate 446 0 ++ tableEntry 0x83 1 1 ++ tableEntry 5 1 1 ++ List.replicate 32 0 ++ [0x55, 0xaa]

/-- A signature, and an extended partition in sector 1 -/
def loopMbr : Bytes :=
  List.replicate 440 0 ++ leBytes 4 0xcafe ++ [0, 0] ++ tableEntry 5 1 2 ++ List.replicate 48 0 ++ [0x55, 0xaa]

def loopDisk : Disk where
  blockBits := 9
  numBlocks := 3
  data := loopMbr ++ loopEbr ++ loopEbr
  bits := sector_bits
  length := by decide +kernel
  lt := by decide +kernel

/-- The partition with the number 10 has it in decimal. -/
theorem loopDisk_partuuid : dosPartition loopDisk loopMbr ≠ .ok (bookPartitions loopDisk loopMbr) := by
  intro h
  have huuid := congrArg (fun r => r.toOption.map fun parts => (parts.map (·.partuuid))[6]?) h
  exact absurd huuid (by decide +kernel)

end Barebox.Partitions
