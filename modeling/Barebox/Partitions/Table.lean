import Barebox.Partitions.Gpt

/-!
# The partitions of a GUID partition table

A table by the books has its used entries anywhere, `sizeof_partition_entry` bytes
apart. The parser looks at places 128 bytes apart and gives up at the first that is not
valid. If the whole array is read, it finds the partitions if and only if the used
entries come first, one behind the other, and entries have 128 bytes (or there is only
the first one); see `Dense`. Of an array that does not fill its last block of 512 bytes the
rest is taken for zero, and one of 2 GiB and more is not read (`Whole`). Such a table is
refused unless its CRC says otherwise, which is right where no entry is used.
-/

namespace Barebox.Partitions

open Lib List

/-! ## Tables by the books -/

/-- The entries of an array, as many as there is room for partitions. -/
def tableEntries (gpt array : Bytes) : List Bytes :=
  (range (min (numEntries gpt) maxPartition)).map fun i => slice (entrySize gpt * i) 128 array

/-- A used entry: a type, and blocks of the disk. -/
def isUsed (last : Nat) (pte : Bytes) : Bool :=
  slice 0 16 pte ≠ replicate 16 0 ∧ le64 32 pte ≤ le64 40 pte ∧ le64 40 pte ≤ last

def bookPart (pte : Bytes) : Partition :=
  ⟨efiName pte, 0, uuidString (slice 16 16 pte), le64 32 pte, le64 40 pte - le64 32 pte + 1⟩

/-- The used entries in the order of the table. -/
def bookTable (disk : Disk) (gpt array : Bytes) : List Partition :=
  ((tableEntries gpt array).filter (isUsed (lastLba disk))).map bookPart

/-- A primary table that is valid by the UEFI specification: the header in block 1 and
the array of entries, both with their CRCs. What an entry has behind its 128 bytes is
reserved and zero. -/
structure ValidGpt (disk : Disk) (gpt array : Bytes) : Prop where
  there : 1 < disk.numBlocks
  header : gpt = slice (2 ^ disk.blockBits) (2 ^ disk.blockBits) disk.data
  signature : le64 0 gpt = gptHeaderSignature
  size : 92 ≤ le32 12 gpt ∧ le32 12 gpt ≤ 2 ^ disk.blockBits
  crc : (headerCrc gpt).toNat = le32 16 gpt
  myLba : le64 24 gpt = 1
  firstUsable : le64 40 gpt ≤ lastLba disk
  lastUsable : le64 48 gpt ≤ lastLba disk
  power : ∃ k, entrySize gpt = 128 * 2 ^ k
  inside : le64 72 gpt * 2 ^ disk.blockBits + numEntries gpt * entrySize gpt ≤ disk.data.length
  bytes : array = slice (le64 72 gpt * 2 ^ disk.blockBits) (numEntries gpt * entrySize gpt) disk.data
  arrayCrc : (crc32 0 array).toNat = le32 88 gpt
  reserved : ∀ i < numEntries gpt,
    ∀ b ∈ slice (entrySize gpt * i + 128) (entrySize gpt - 128) array, b = 0

/-! ## What it takes to find them -/

/-- A block that does not look like a header with more bytes than its buffer has. -/
def Sane (disk : Disk) (lba : Nat) : Prop :=
  ∀ gpt, blockRead disk sectorSize lba 1 = .ok gpt → le64 0 gpt = gptHeaderSignature → le32 12 gpt ≤ sectorSize

/-- The blocks that are looked at besides a good primary header. -/
def Alternates (l : Long) (force : Bool) (disk : Disk) (gpt : Bytes) : Prop :=
  Sane disk (le64 32 gpt)
    ∧ (force = true → isGptValid l disk (le64 32 gpt) = .ok none → Sane disk (lastLba disk))

/-- All bytes of the array are read, or are the zeros that they are taken for. -/
structure Whole (l : Long) (gpt array : Bytes) : Prop where
  place : le64 72 gpt < 2 ^ l.bits
  nonempty : 0 < numEntries gpt * entrySize gpt
  small : numEntries gpt * entrySize gpt < 2 ^ 31
  rest : ∀ b ∈ array.drop (numEntries gpt * entrySize gpt / 512 * 512), b = 0

/-- The used entries come first, and what comes next is not valid in any way. With larger
entries there is the first one only. -/
def Dense (disk : Disk) (gpt array : Bytes) : Prop :=
  if entrySize gpt = 128 then
    ∃ a b, tableEntries gpt array = a ++ b ∧ (∀ pte ∈ a, isUsed (lastLba disk) pte = true)
      ∧ (∀ pte ∈ b, isUsed (lastLba disk) pte = false)
      ∧ ∀ pte, b.head? = some pte → isPteValid (lastLba disk) pte = false
  else (∀ pte ∈ (tableEntries gpt array).tail, isUsed (lastLba disk) pte = false)
    ∧ ∀ pte, (tableEntries gpt array).head? = some pte →
      isPteValid (lastLba disk) pte = true → isUsed (lastLba disk) pte = true

/-- The bytes that are read for an array, with zeros for those that are not. -/
def readBack (l : Long) (disk : Disk) (gpt : Bytes) : Bytes :=
  resized (slice (le64 72 gpt % 2 ^ l.bits * 512) (entryCount gpt / 512 * 512) disk.data) (entryCount gpt)

/-- Bytes are read, and their CRC is that of the array. -/
def Accepted (l : Long) (disk : Disk) (gpt : Bytes) : Prop :=
  (entryCount gpt ≠ 0 ∧ entryCount gpt < 2 ^ 31) ∧ (crc32 0 (readBack l disk gpt)).toNat = le32 88 gpt

instance (l : Long) (disk : Disk) (gpt : Bytes) : Decidable (Accepted l disk gpt) :=
  inferInstanceAs (Decidable (_ ∧ _))

/-- The table is read as it is, and the parser gets along with it; or it is refused, and nothing
is lost. -/
def Listed (l : Long) (force : Bool) (disk : Disk) (gpt array : Bytes) : Prop :=
  disk.blockBits = 9
    ∧ (Whole l gpt array ∧ Alternates l force disk gpt ∧ Dense disk gpt array
      ∨ ¬ Accepted l disk gpt ∧ force = false ∧ ∀ pte ∈ tableEntries gpt array, isUsed (lastLba disk) pte = false)

/-! ## Entries -/

section

variable {last : Nat} {pte : Bytes}

/-- What the parser calls valid. -/
theorem isPteValid_iff : isPteValid last pte = true
    ↔ slice 0 16 pte ≠ replicate 16 0 ∧ le64 32 pte ≤ last ∧ le64 40 pte ≤ last := by
  unfold isPteValid
  rw [decide_eq_true_iff, not_or, not_or, Nat.not_lt, Nat.not_lt]

theorem isUsed_iff : isUsed last pte = true
    ↔ slice 0 16 pte ≠ replicate 16 0 ∧ le64 32 pte ≤ le64 40 pte ∧ le64 40 pte ≤ last := by
  unfold isUsed
  rw [decide_eq_true_iff]

theorem valid_of_used (h : isUsed last pte = true) : isPteValid last pte = true := by
  obtain ⟨htype, hle, hlast⟩ := isUsed_iff.mp h
  exact isPteValid_iff.mpr ⟨htype, by omega, hlast⟩

theorem efiPart_of_used (h : isUsed last pte = true) (hlast : last < 2 ^ 63) : efiPart pte = bookPart pte := by
  obtain ⟨-, hle, hend⟩ := isUsed_iff.mp h
  unfold efiPart bookPart
  have hsize : (le64 40 pte + 2 ^ 64 - le64 32 pte + 1) % 2 ^ 64 = le64 40 pte - le64 32 pte + 1 := by omega
  rw [hsize]

/-- The size of a valid entry that ends before it starts is that of no partition. -/
theorem used_of_efiPart {pte' : Bytes} (hvalid : isPteValid last pte = true) (hused : isUsed last pte' = true)
    (hlast : last < 2 ^ 63) (heq : efiPart pte = bookPart pte') : isUsed last pte = true := by
  obtain ⟨htype, hstart, hend⟩ := isPteValid_iff.mp hvalid
  obtain ⟨-, hle', hend'⟩ := isUsed_iff.mp hused
  refine isUsed_iff.mpr ⟨htype, ?_, hend⟩
  have hsize : (le64 40 pte + 2 ^ 64 - le64 32 pte + 1) % 2 ^ 64 = le64 40 pte' - le64 32 pte' + 1 :=
    (Partition.mk.inj heq).2.2.2.2
  omega

variable {l rest : List Bytes}

/-- Valid entries, with others behind them: they give the partitions only if they are used, all
of them, and no other is. -/
theorem map_efiPart_iff (hlast : last < 2 ^ 63) (hl : ∀ pte ∈ l, isPteValid last pte = true) :
    l.map efiPart = ((l ++ rest).filter (isUsed last)).map bookPart
      ↔ (∀ pte ∈ l, isUsed last pte = true) ∧ ∀ pte ∈ rest, isUsed last pte = false := by
  have hsame : (∀ pte ∈ l, isUsed last pte = true) → l.map efiPart = l.map bookPart :=
    fun h => map_congr_left fun pte hpte => efiPart_of_used (h pte hpte) hlast
  have hnone : (rest.filter (isUsed last)).map bookPart = [] ↔ ∀ pte ∈ rest, isUsed last pte = false := by
    simp
  constructor
  · intro heq
    have hall : ∀ pte ∈ l, isUsed last pte = true := by
      intro pte hpte
      obtain ⟨pte', hpte', hpart⟩ := mem_map.mp (heq ▸ mem_map_of_mem hpte)
      exact used_of_efiPart (hl pte hpte) (mem_filter.mp hpte').2 hlast hpart.symm
    rw [hsame hall, filter_append, filter_eq_self.mpr hall, map_append] at heq
    exact ⟨hall, hnone.mp (self_eq_append_right.mp heq)⟩
  · intro ⟨hall, hrest⟩
    rw [hsame hall, filter_append, filter_eq_self.mpr hall, map_append, hnone.mpr hrest, append_nil]

/-- Entries that are looked at up to the first that is not valid. -/
theorem takeWhile_iff (hlast : last < 2 ^ 63) :
    (l.takeWhile (isPteValid last)).map efiPart = (l.filter (isUsed last)).map bookPart
      ↔ ∃ a b, l = a ++ b ∧ (∀ pte ∈ a, isUsed last pte = true) ∧ (∀ pte ∈ b, isUsed last pte = false)
        ∧ ∀ pte, b.head? = some pte → isPteValid last pte = false := by
  have hcut := takeWhile_append_dropWhile (p := isPteValid last) (l := l)
  have hiff := @map_efiPart_iff last _ (l.dropWhile (isPteValid last)) hlast
    fun pte (hpte : pte ∈ l.takeWhile (isPteValid last)) => mem_takeWhile_imp hpte
  rw [hcut] at hiff
  rw [hiff]
  constructor
  · intro ⟨hall, hrest⟩
    refine ⟨_, _, hcut.symm, hall, hrest, fun pte hpte => ?_⟩
    have hnot := head?_dropWhile_not (isPteValid last) l
    rw [hpte] at hnot
    simpa using hnot
  · intro ⟨a, b, hl, ha, hb, hhead⟩
    have hstop : b.takeWhile (isPteValid last) = [] := by
      cases b with
      | nil => rfl
      | cons pte b => rw [takeWhile_cons, hhead pte rfl]; rfl
    have htake : l.takeWhile (isPteValid last) = a := by
      rw [hl, takeWhile_append_of_pos fun pte hpte => valid_of_used (ha pte hpte), hstop, append_nil]
    rw [htake] at hcut ⊢
    rw [append_cancel_left (hcut.trans hl)]
    exact ⟨ha, hb⟩

/-- Only the first entry is looked at. -/
theorem first_iff (hlast : last < 2 ^ 63) :
    (if isPteValid last pte then [pte] else []).map efiPart = ((pte :: rest).filter (isUsed last)).map bookPart
      ↔ (∀ pte ∈ rest, isUsed last pte = false) ∧ (isPteValid last pte = true → isUsed last pte = true) := by
  cases hvalid : isPteValid last pte with
  | true =>
    have hone := @map_efiPart_iff last [pte] rest hlast (by simpa using hvalid)
    refine hone.trans ?_
    simp [and_comm]
  | false =>
    have hunused : isUsed last pte = false := by
      by_contra hne
      have hused := valid_of_used (by simpa using hne)
      rw [hvalid] at hused
      nomatch hused
    have hnone := @map_efiPart_iff last [] (pte :: rest) hlast (by simp)
    refine hnone.trans ?_
    simp [hunused]

theorem takeWhile_first {p : Bytes → Bool} {f : Nat → Bytes} {n : Nat} (hstop : p (f 1) = false) :
    ((range (n + 1)).map f).takeWhile p = if p (f 0) then [f 0] else [] := by
  rw [range_succ_eq_map, map_cons, takeWhile_cons]
  cases n with
  | zero => rfl
  | succ n =>
    rw [range_succ_eq_map, map_cons, map_cons]
    simp [hstop]

/-- The loop, where all entries that it may look at are there. -/
theorem efiLoop_eq {ptes : Bytes} (l : List Nat) (h : ∀ i ∈ l, 128 * i + 128 ≤ ptes.length) :
    efiLoop last ptes l
      = .ok (((l.map fun i => slice (128 * i) 128 ptes).takeWhile (isPteValid last)).map efiPart) := by
  induction l with
  | nil => rfl
  | cons i l ih =>
    have hi := h i (mem_cons_self)
    rw [efiLoop, if_neg (by omega), map_cons, takeWhile_cons]
    split
    next =>
      rw [ih fun j hj => h j (mem_cons_of_mem _ hj)]
      rfl
    next => rfl

end

/-! ## Headers and arrays, in blocks of 512 bytes -/

theorem lastLba_lt (disk : Disk) : lastLba disk < 2 ^ 63 := by
  have hlt := disk.lt
  have hpos : 0 < 2 ^ disk.blockBits := Nat.two_pow_pos _
  rw [disk.length] at hlt
  have hle := Nat.le_mul_of_pos_right disk.numBlocks hpos
  unfold lastLba
  omega

section

variable {l : Long} {disk : Disk} {gpt array : Bytes} {force : Bool}

/-- Blocks of 512 bytes are not written behind a buffer that has room for them. -/
theorem blockRead_small (h9 : disk.blockBits = 9) {room n : Nat} (hroom : n * 512 ≤ room) (lba : Nat) :
    blockRead disk room lba n ≠ .error .EFAULT := by
  unfold blockRead
  rw [h9]
  dsimp only
  split
  next => simp
  next =>
  rw [if_neg (by omega)]
  split
  all_goals simp

theorem orNull_ok {α : Type} {r : Except Errno α} (h : r ≠ .error .EFAULT) : ∃ a, orNull r = .ok a := by
  cases r with
  | ok a => exact ⟨some a, rfl⟩
  | error e =>
    cases e
    case EFAULT => exact absurd rfl h
    all_goals exact ⟨none, rfl⟩

theorem readEntries_ok (h9 : disk.blockBits = 9) (gpt : Bytes) :
    ∃ ptes, readEntries l disk gpt = .ok ptes := by
  unfold readEntries
  dsimp only
  split
  next => exact ⟨none, rfl⟩
  next =>
  obtain ⟨a, ha⟩ := orNull_ok (blockRead_small h9 (Nat.div_mul_le_self (entryCount gpt) 512) _)
  rw [ha]
  cases a with
  | none => exact ⟨none, rfl⟩
  | some pte => exact ⟨_, rfl⟩

/-- A header is looked at safely if its size fits the buffer, or it is none. -/
theorem isGptValid_sane (l : Long) (h9 : disk.blockBits = 9) {lba : Nat} (h : Sane disk lba) :
    ∃ table, isGptValid l disk lba = .ok table := by
  unfold isGptValid
  have hread := blockRead_small h9 (show 1 * 512 ≤ sectorSize by decide) lba
  cases hgpt : blockRead disk sectorSize lba 1 with
  | error e =>
    rw [hgpt] at hread
    obtain ⟨a, ha⟩ := orNull_ok hread
    rw [ha]
    cases a with
    | none => exact ⟨none, rfl⟩
    | some gpt => cases e <;> nomatch ha
  | ok gpt =>
    obtain ⟨ptes, hptes⟩ := readEntries_ok h9 gpt
    rw [orNull]
    dsimp only
    rw [hptes]
    split
    next => exact ⟨none, rfl⟩
    next hsig =>
    have hle := h gpt hgpt (by simpa using hsig)
    rw [if_neg (by omega)]
    cases ptes
    all_goals
      dsimp only
      repeat' split
      all_goals exact ⟨_, rfl⟩

/-- The CRC of any other goes over bytes behind the buffer. -/
theorem isGptValid_not_sane {lba : Nat} (h : ¬ Sane disk lba) : isGptValid l disk lba = .error .EFAULT := by
  unfold Sane at h
  simp only [not_forall] at h
  obtain ⟨gpt, hgpt, hsig, hsize⟩ := h
  unfold isGptValid
  rw [hgpt, orNull]
  dsimp only
  rw [if_neg (by simpa using hsig), if_pos (by omega)]

variable (h : ValidGpt disk gpt array)
include h

/-- The array of entries, as it is read. -/
theorem ValidGpt.readEntries_eq (h9 : disk.blockBits = 9) : readEntries l disk gpt
    = .ok (if entryCount gpt ≠ 0 ∧ entryCount gpt < 2 ^ 31 then some (readBack l disk gpt) else none) := by
  have hinside := h.inside
  have hlt := disk.lt
  have hlen := disk.length
  rw [h9] at hinside hlen
  have hcount : entryCount gpt ≤ numEntries gpt * entrySize gpt := Nat.mod_le _ _
  have hplace : le64 72 gpt % 2 ^ l.bits ≤ le64 72 gpt := Nat.mod_le _ _
  have hblock : le64 72 gpt % 2 ^ l.bits % 2 ^ (64 - 9) = le64 72 gpt % 2 ^ l.bits := by omega
  unfold readEntries blockRead
  rw [h9, hblock]
  by_cases hzero : entryCount gpt = 0
  · simp [hzero]
  dsimp only
  rw [if_neg hzero, if_neg (by omega), if_neg (by omega)]
  by_cases hsmall : entryCount gpt < 2 ^ 31
  · rw [if_neg (by omega), if_pos ⟨hzero, hsmall⟩]
    rfl
  · rw [if_pos (by omega), if_neg fun hboth => hsmall hboth.2]
    rfl

/-- The primary table, as it is read. -/
theorem ValidGpt.isGptValid_eq (l : Long) (h9 : disk.blockBits = 9) :
    isGptValid l disk 1 = .ok (if Accepted l disk gpt then some (gpt, readBack l disk gpt) else none) := by
  have hthere := h.there
  have hheader := h.header
  rw [h9] at hheader
  have hread : blockRead disk sectorSize 1 1 = .ok gpt := by
    unfold blockRead
    rw [h9, hheader]
    exact (if_neg (by omega)).trans rfl
  have hsize := h.size.2
  rw [h9] at hsize
  have hfirst := h.firstUsable
  have hlast := h.lastUsable
  unfold isGptValid
  rw [hread, orNull]
  dsimp only
  rw [if_neg (by simpa using h.signature), if_neg (by unfold sectorSize; omega), if_neg (by simpa using h.crc),
    if_neg (by simpa using h.myLba), if_neg (by omega), if_neg (by omega), h.readEntries_eq h9]
  by_cases haccepted : Accepted l disk gpt
  · rw [if_pos haccepted, if_pos haccepted.1]
    dsimp only
    rw [if_neg (by simpa using haccepted.2)]
  · rw [if_neg haccepted]
    by_cases hcount : entryCount gpt ≠ 0 ∧ entryCount gpt < 2 ^ 31
    · rw [if_pos hcount]
      dsimp only
      rw [if_pos fun hcrc => haccepted ⟨hcount, hcrc⟩]
    · rw [if_neg hcount]

/-! ## The array as a whole -/

theorem ValidGpt.array_length : array.length = numEntries gpt * entrySize gpt := by
  rw [h.bytes]
  exact slice_length h.inside

omit h in
theorem Whole.entryCount_eq (hwhole : Whole l gpt array) : entryCount gpt = numEntries gpt * entrySize gpt :=
  Nat.mod_eq_of_lt (Nat.lt_trans hwhole.small (by decide))

/-- What is read is the array. -/
theorem ValidGpt.readBack_eq (h9 : disk.blockBits = 9) (hwhole : Whole l gpt array) :
    readBack l disk gpt = array := by
  have hlen := h.array_length
  have hbytes := h.bytes
  rw [h9] at hbytes
  have hle := Nat.div_mul_le_self (numEntries gpt * entrySize gpt) 512
  have htake := @take_slice (le64 72 gpt * 2 ^ 9) _ _ disk.data hle
  rw [← hbytes, show 2 ^ 9 = 512 from rfl] at htake
  have hrest : array.drop (numEntries gpt * entrySize gpt / 512 * 512)
      = replicate (numEntries gpt * entrySize gpt - numEntries gpt * entrySize gpt / 512 * 512) 0 := by
    refine eq_replicate_iff.mpr ⟨?_, hwhole.rest⟩
    rw [length_drop, hlen]
  unfold readBack
  rw [hwhole.entryCount_eq, Nat.mod_eq_of_lt hwhole.place, ← htake]
  conv => rhs; rw [← take_append_drop (numEntries gpt * entrySize gpt / 512 * 512) array, hrest]
  rw [resized, take_of_length_le (Nat.le_trans (length_take_le _ _) hle), length_take, hlen, Nat.min_eq_left hle]

theorem ValidGpt.accepted (h9 : disk.blockBits = 9) (hwhole : Whole l gpt array) : Accepted l disk gpt := by
  refine ⟨?_, ?_⟩
  · rw [hwhole.entryCount_eq]
    exact ⟨Nat.ne_of_gt hwhole.nonempty, hwhole.small⟩
  · rw [h.readBack_eq h9 hwhole]
    exact h.arrayCrc

theorem ValidGpt.entrySize_cases : 128 ≤ entrySize gpt ∧ (entrySize gpt ≠ 128 → 256 ≤ entrySize gpt) := by
  obtain ⟨k, hk⟩ := h.power
  cases k with
  | zero => omega
  | succ k =>
    have hpos := Nat.two_pow_pos k
    omega

theorem ValidGpt.numEntries_le : numEntries gpt * 128 ≤ array.length := by
  rw [h.array_length]
  exact Nat.mul_le_mul_left _ h.entrySize_cases.1

theorem ValidGpt.nbPart_eq (hwhole : Whole l gpt array) : nbPart gpt = min (numEntries gpt) maxPartition := by
  have hle := h.numEntries_le
  rw [h.array_length] at hle
  have hlt := hwhole.small
  have hint : Int.bmod (numEntries gpt) (2 ^ 32) = numEntries gpt := by
    unfold Int.bmod
    dsimp only
    split
    all_goals omega
  unfold nbPart
  dsimp only
  split
  all_goals omega

/-- The loop over an array that has been read as a whole. -/
theorem ValidGpt.efiLoop_eq (hwhole : Whole l gpt array) :
    efiLoop (lastLba disk) array (range (nbPart gpt))
      = .ok ((((range (min (numEntries gpt) maxPartition)).map fun i => slice (128 * i) 128 array).takeWhile
        (isPteValid (lastLba disk))).map efiPart) := by
  have hle := h.numEntries_le
  rw [h.nbPart_eq hwhole]
  refine Partitions.efiLoop_eq _ fun i hi => ?_
  have hlt := mem_range.mp hi
  omega

/-- Reserved bytes are no entry. -/
theorem ValidGpt.reserved_invalid (hlarge : 256 ≤ entrySize gpt) (hsome : 0 < numEntries gpt) :
    isPteValid (lastLba disk) (slice 128 128 array) = false := by
  have hlen : 256 ≤ array.length := by
    rw [h.array_length]
    exact Nat.le_trans hlarge (Nat.le_mul_of_pos_left _ hsome)
  have hzero : slice 0 16 (slice 128 128 array) = replicate 16 0 := by
    refine eq_replicate_iff.mpr ⟨slice_length ?_, fun b hb => ?_⟩
    · rw [slice_length (by omega)]
      decide
    · refine h.reserved 0 hsome b ?_
      rw [slice_slice _ (by decide)] at hb
      exact (take_subset_take_left _ (by omega)) hb
  unfold isPteValid
  simp [hzero]

/-- Larger entries: the first one is looked at, and what is behind it is reserved. -/
theorem ValidGpt.large_iff (hwhole : Whole l gpt array) (hsize : entrySize gpt ≠ 128) :
    (((range (min (numEntries gpt) maxPartition)).map fun i => slice (128 * i) 128 array).takeWhile
        (isPteValid (lastLba disk))).map efiPart = bookTable disk gpt array
      ↔ (∀ pte ∈ (tableEntries gpt array).tail, isUsed (lastLba disk) pte = false)
        ∧ ∀ pte, (tableEntries gpt array).head? = some pte →
          isPteValid (lastLba disk) pte = true → isUsed (lastLba disk) pte = true := by
  have hsome : 0 < numEntries gpt := Nat.pos_of_mul_pos_right hwhole.nonempty
  have hinvalid := h.reserved_invalid (h.entrySize_cases.2 hsize) hsome
  obtain ⟨n, hn⟩ : ∃ n, min (numEntries gpt) maxPartition = n + 1 := by
    refine Nat.exists_eq_succ_of_ne_zero ?_
    unfold maxPartition
    omega
  have hentries : tableEntries gpt array
      = slice 0 128 array :: ((range n).map Nat.succ).map fun i => slice (entrySize gpt * i) 128 array := by
    unfold tableEntries
    rw [hn, range_succ_eq_map, map_cons, Nat.mul_zero]
  have hlist := @takeWhile_first (isPteValid (lastLba disk)) (fun i => slice (128 * i) 128 array) n hinvalid
  unfold bookTable
  rw [hn, hlist, hentries, tail_cons, head?_cons, first_iff (lastLba_lt disk)]
  simp only [Option.some.injEq, forall_eq']

/-- The loop finds the used entries of an array that is there, if they come first. -/
theorem ValidGpt.loop_iff (hwhole : Whole l gpt array) :
    efiLoop (lastLba disk) array (range (nbPart gpt)) = .ok (bookTable disk gpt array)
      ↔ Dense disk gpt array := by
  rw [h.efiLoop_eq hwhole, Except.ok.injEq]
  unfold Dense
  split
  next hsize =>
    have hiff := @takeWhile_iff (lastLba disk) (tableEntries gpt array) (lastLba_lt disk)
    rw [← hiff]
    unfold bookTable tableEntries
    rw [hsize]
  next hsize => exact h.large_iff hwhole hsize

/-! ## All of it -/

/-- A primary table that is good stays so, unless looking at the others goes wrong. -/
theorem ValidGpt.efiPartition_accepted (h9 : disk.blockBits = 9) {buf : Bytes} (hbuf : gptDetected buf = true)
    (haccepted : Accepted l disk gpt) (parts : List Partition) :
    efiPartition l force disk buf = .ok parts ↔ Alternates l force disk gpt
      ∧ efiLoop (lastLba disk) (readBack l disk gpt) (range (nbPart gpt)) = .ok parts := by
  have hprimary := h.isGptValid_eq l h9
  rw [if_pos haccepted] at hprimary
  unfold efiPartition findValidGpt Alternates
  rw [hbuf, hprimary]
  by_cases hsane : Sane disk (le64 32 gpt)
  · rw [and_iff_right hsane]
    obtain ⟨table, htable⟩ := isGptValid_sane l h9 hsane
    cases table with
    | some table => simp [htable]
    | none =>
      cases force with
      | false => simp [htable]
      | true =>
        by_cases hlast : Sane disk (lastLba disk)
        · obtain ⟨table', htable'⟩ := isGptValid_sane l h9 hlast
          simp [htable, htable', hlast]
        · simp [htable, isGptValid_not_sane hlast, hlast]
  · simp [isGptValid_not_sane hsane, hsane]

/-- Without the primary table there are no partitions. -/
theorem ValidGpt.efiPartition_refused (h9 : disk.blockBits = 9) (buf : Bytes) (hrefused : ¬ Accepted l disk gpt) :
    efiPartition l false disk buf = .ok [] := by
  have hprimary := h.isGptValid_eq l h9
  rw [if_neg hrefused] at hprimary
  unfold efiPartition findValidGpt
  rw [hprimary]
  rfl

/-- A header in a block of more than 512 bytes is written behind its buffer. -/
theorem ValidGpt.efiPartition_large (h9 : disk.blockBits ≠ 9) {buf : Bytes} (hbuf : gptDetected buf = true) :
    efiPartition l force disk buf = .error .EFAULT := by
  have hbits := disk.bits
  have hlarge : 2 ^ 10 ≤ 2 ^ disk.blockBits := Nat.pow_le_pow_right (by decide) (by omega)
  have hthere := h.there
  have hone : 1 % 2 ^ (64 - disk.blockBits) = 1 := by
    refine Nat.mod_eq_of_lt (Nat.lt_of_lt_of_le (by decide) (Nat.pow_le_pow_right (show 0 < 2 by decide)
      (show 1 ≤ 64 - disk.blockBits by omega)))
  have hread : blockRead disk sectorSize 1 1 = .error .EFAULT := by
    unfold blockRead sectorSize
    rw [if_neg (by omega), if_pos (by omega)]
  have hvalid : isGptValid l disk 1 = .error .EFAULT := by
    unfold isGptValid
    rw [hread]
    rfl
  unfold efiPartition findValidGpt
  rw [hbuf, hvalid]
  simp

omit h in
theorem bookTable_nil : bookTable disk gpt array = []
    ↔ ∀ pte ∈ tableEntries gpt array, isUsed (lastLba disk) pte = false := by
  unfold bookTable
  simp

end

/-- An entry of blocks 3 and 4 -/
def usedEntry : Bytes :=
  replicate 16 1 ++ replicate 16 2 ++ leBytes 8 3 ++ leBytes 8 4 ++ replicate 80 0

/-- Four entries: it is the first one that is used, or the second. -/
def fourArray : Bool → Bytes
  | false => usedEntry ++ replicate 384 0
  | true => replicate 128 0 ++ usedEntry ++ replicate 256 0

/-- The CRCs of the header and of the array -/
def fourCrcs : Bool → Nat × Nat
  | false => (0x68b110ae, 0xc84ed056)
  | true => (0xc1ab3b78, 0x4b4ec2f2)

/-- A header for four entries of 128 bytes in block 2 of a disk of six -/
def fourHeader (second : Bool) : Bytes :=
  cstr "EFI PART" ++ [0, 0, 1, 0] ++ leBytes 4 92 ++ leBytes 4 (fourCrcs second).1 ++ replicate 4 0 ++ leBytes 8 1
    ++ leBytes 8 5 ++ leBytes 8 3 ++ leBytes 8 4 ++ replicate 16 7 ++ leBytes 8 2 ++ leBytes 4 4 ++ leBytes 4 128
    ++ leBytes 4 (fourCrcs second).2 ++ replicate 420 0

/-- A protective MBR -/
def fourMbr : Bytes :=
  replicate 450 0 ++ [0xee, 0, 0, 0, 1, 0, 0, 0] ++ replicate 52 0 ++ [0x55, 0xaa]

/-- The MBR, the header, the array, and three blocks that are empty -/
def fourDisk (second : Bool) : Disk where
  blockBits := 9
  numBlocks := 6
  data := fourMbr ++ fourHeader second ++ fourArray second ++ replicate 1536 0
  bits := sector_bits
  length := by cases second <;> decide +kernel
  lt := by cases second <;> decide +kernel

set_option maxRecDepth 8000 in
/-- Both tables are valid: the CRCs are computed here. -/
theorem fourDisk_valid (second : Bool) : ValidGpt (fourDisk second) (fourHeader second) (fourArray second) := by
  cases second
  all_goals exact {
    there := by decide
    header := by decide +kernel
    signature := by decide +kernel
    size := by decide +kernel
    crc := by decide +kernel
    myLba := by decide +kernel
    firstUsable := by decide +kernel
    lastUsable := by decide +kernel
    power := ⟨0, by decide +kernel⟩
    inside := by decide +kernel
    bytes := by decide +kernel
    arrayCrc := by decide +kernel
    reserved := by decide +kernel }

/-- The last block has no header. -/
theorem fourDisk_alternates : Alternates .bits32 false (fourDisk false) (fourHeader false) := by
  refine ⟨fun gpt hread hsig => ?_, nofun⟩
  have hblank : blockRead (fourDisk false) sectorSize (le64 32 (fourHeader false)) 1 = .ok (replicate 512 0) := by
    decide +kernel
  rw [hblank] at hread
  obtain rfl := Except.ok.inj hread
  exact absurd hsig (by decide +kernel)

theorem fourDisk_dense : Dense (fourDisk false) (fourHeader false) (fourArray false) := by
  unfold Dense
  rw [if_pos (by decide +kernel)]
  exact ⟨[usedEntry], replicate 3 (replicate 128 0), by decide +kernel, by decide +kernel, by decide +kernel,
    by decide +kernel⟩

end Barebox.Partitions
