import Barebox.Uimage.Model

/-!
# Verifying the data of a uImage

The loop of `uimage_verify` ends if and only if the file is long enough: at the end of the
file a read returns nothing, and nothing is taken off the length. The CRC is computed over
what was asked for, not over what was read: after a short read the rest of the buffer, with
what an earlier read has left there, goes into it too. `uimage_verify_spec` says that nothing
else goes wrong: where every read returns what it was asked for, the data is verified as it
should be.
-/

namespace Barebox.Uimage

open Lib

variable {file : Bytes} {counts : Nat → Nat}

/-! ## What is expected -/

/-- There is enough data, and it has the CRC of the header. -/
def Intact (file : Bytes) (header : Header) : Prop :=
  64 + header.size.toNat ≤ file.length ∧ crc32 0 (slice 64 header.size.toNat file) = header.dcrc

/-- `uimage_verify` returns, with success if and only if the data is intact. -/
def Verifies (file : Bytes) (header : Header) (counts : Nat → Nat) (junk : Bytes) : Prop :=
  ∃ turns r, uimageVerify file header counts junk turns = some r ∧ r ≠ .error .EFAULT
    ∧ (r = .ok () ↔ Intact file header)

/-! ## What it takes -/

/-- The reads from number `first` on, for `len` bytes page by page, return all that they
are asked for. -/
def NoShortRead (counts : Nat → Nat) (first len : Nat) : Prop :=
  ∀ i, i * pageSize < len → min (len - i * pageSize) pageSize ≤ max 1 (counts (first + i))

/-- The size is no negative `int`, and there is as much data as it says. -/
def LongEnough (file : Bytes) (header : Header) : Prop :=
  header.size.toNat < 2 ^ 31 ∧ 64 + header.size.toNat ≤ file.length

/-! ## The loop -/

theorem readShort_length (pos n count : Nat) :
    (readShort file pos n count).length = min (min n (file.length - pos)) (max 1 count) := by
  unfold readShort readCount
  dsimp only
  rw [length_slice]
  omega

theorem verifyTurn_next {s : Verify} (h : s.len ≠ 0) : verifyTurn file counts s = .next (verifyRead file counts s) :=
  if_neg h

/-- Without enough bytes the loop does not end: what is missing stays missing, however much a
read returns. -/
theorem verify_stuck (turns : Nat) {s : Verify} (hpos : s.pos ≤ file.length)
    (hshort : file.length < s.pos + s.len) : loop (verifyTurn file counts) () turns s = .error () := by
  induction turns generalizing s with
  | zero => rfl
  | succ turns ih =>
    have hlen : s.len ≠ 0 := by omega
    have hread := @readShort_length file s.pos (min s.len pageSize) (counts s.reads)
    rw [loop_next (verifyTurn_next hlen)]
    apply ih
    · show s.pos + (readShort file s.pos (min s.len pageSize) (counts s.reads)).length ≤ file.length
      omega
    · show file.length < s.pos + (readShort file s.pos (min s.len pageSize) (counts s.reads)).length
        + (s.len - (readShort file s.pos (min s.len pageSize) (counts s.reads)).length)
      omega

/-- A read that returns all that it is asked for puts the next page of the data into the CRC. -/
theorem verifyRead_full {s : Verify} (hlong : s.pos + s.len ≤ file.length)
    (hbuf : s.buf.length = pageSize) (hcount : min s.len pageSize ≤ max 1 (counts s.reads)) :
    ∃ buf, buf.length = pageSize ∧ verifyRead file counts s = ⟨s.len - min s.len pageSize,
      s.pos + min s.len pageSize, crc32 s.crc (slice s.pos (min s.len pageSize) file), buf, s.reads + 1⟩ := by
  have hread : readShort file s.pos (min s.len pageSize) (counts s.reads) = slice s.pos (min s.len pageSize) file := by
    unfold readShort readCount
    dsimp only
    congr 1
    omega
  have hdata : (slice s.pos (min s.len pageSize) file).length = min s.len pageSize := slice_length (by omega)
  refine ⟨overwrite 0 (slice s.pos (min s.len pageSize) file) s.buf, ?_, ?_⟩
  · rw [overwrite_length (by omega), hbuf]
  · unfold verifyRead
    dsimp only
    rw [hread, hdata, overwrite_zero, List.take_left' hdata]

/-- With enough bytes and no short read the loop ends with the CRC of the data. -/
theorem verify_done (turns : Nat) {s : Verify} (hle : s.len ≤ turns) (hlong : s.pos + s.len ≤ file.length)
    (hbuf : s.buf.length = pageSize) (hfull : NoShortRead counts s.reads s.len) :
    loop (verifyTurn file counts) () (turns + 1) s = .ok (crc32 s.crc (slice s.pos s.len file)) := by
  induction turns generalizing s with
  | zero =>
    have hlen : s.len = 0 := Nat.le_zero.mp hle
    have hturn : verifyTurn file counts s = .done s.crc := if_pos hlen
    rw [loop, hturn, hlen]
    exact congrArg Except.ok (crc32_nil s.crc).symm
  | succ turns ih =>
    by_cases hlen : s.len = 0
    · have hturn : verifyTurn file counts s = .done s.crc := if_pos hlen
      rw [loop, hturn, hlen]
      exact congrArg Except.ok (crc32_nil s.crc).symm
    have hcount := hfull 0 (by omega)
    rw [Nat.zero_mul, Nat.sub_zero, Nat.add_zero] at hcount
    obtain ⟨buf, hbuf', hnext⟩ := verifyRead_full hlong hbuf hcount
    have hpage : pageSize = 4096 := rfl
    rw [loop_next (verifyTurn_next hlen), hnext, ih (by dsimp only; omega) (by dsimp only; omega) hbuf' ?_]
    · dsimp only
      rw [crc32_append, ← slice_add]
      congr 3
      omega
    · -- read `i` from here on is read `i + 1` of before
      intro i hi
      dsimp only at hi ⊢
      have hmul : (i + 1) * pageSize = i * pageSize + pageSize := Nat.succ_mul ..
      have hread := hfull (i + 1) (by omega)
      rw [show s.reads + (i + 1) = s.reads + 1 + i by omega] at hread
      omega

section

variable {header : Header} (junk : Bytes)

/-- Without enough data there is no result. -/
theorem uimageVerify_short (hint : header.size.toNat < 2 ^ 31) (hthere : 64 ≤ file.length)
    (hshort : file.length < 64 + header.size.toNat) (turns : Nat) :
    uimageVerify file header counts junk turns = none := by
  have hstuck := @verify_stuck file counts turns (verifyStart header junk) hthere hshort
  unfold uimageVerify
  rw [if_neg (by omega), if_neg (by omega), hstuck]

variable {junk} (hlong : LongEnough file header) (hjunk : junk.length = pageSize)
  (hfull : NoShortRead counts 0 header.size.toNat)
include hlong hjunk hfull

/-- With enough of it, and no short read, the result is that of its CRC. -/
theorem uimageVerify_long :
    uimageVerify file header counts junk (header.size.toNat + 1) = some
      (if crc32 0 (slice 64 header.size.toNat file) ≠ header.dcrc then .error .EINVAL else .ok ()) := by
  have hint := hlong.1
  have hthere := hlong.2
  have hdone := @verify_done file counts header.size.toNat (verifyStart header junk) (Nat.le_refl _) hthere hjunk hfull
  unfold uimageVerify
  rw [if_neg (by omega), if_neg (by omega), hdone]
  rfl

end

/-- In a file with a whole header, `uimage_verify` returns and decides right if the size is no
negative `int`, the file has as much data and no read is short; it does not if the size is
negative or the file too short. A file without a whole header is refused. -/
theorem uimage_verify_spec (file : Bytes) (header : Header) (counts : Nat → Nat) (junk : Bytes)
    (hjunk : junk.length = pageSize) :
    (file.length < 64 ∨ LongEnough file header ∧ NoShortRead counts 0 header.size.toNat →
      Verifies file header counts junk)
    ∧ (Verifies file header counts junk → file.length < 64 ∨ LongEnough file header) := by
  constructor
  · rintro (hnone | ⟨hlong, hfull⟩)
    · -- there is no data, and no success
      refine ⟨0, .error .EINVAL, if_pos hnone, nofun, ?_⟩
      exact iff_of_false nofun fun h => by
        have := h.1
        omega
    · refine ⟨_, _, uimageVerify_long hlong hjunk hfull, ?_, ?_⟩
      · split <;> exact nofun
      · rw [Intact, and_iff_right hlong.2]
        split
        next hne => exact iff_of_false nofun hne
        next heq => exact iff_of_true rfl (Classical.not_not.mp heq)
  · intro ⟨turns, r, hr, hdefined, _⟩
    refine or_iff_not_imp_left.mpr fun hthere => ?_
    have hint : header.size.toNat < 2 ^ 31 := by
      refine Nat.lt_of_not_le fun hlarge => hdefined ?_
      rw [uimageVerify, if_neg hthere, if_pos hlarge] at hr
      exact (Option.some.inj hr).symm
    refine ⟨hint, Nat.le_of_not_lt fun hshort => ?_⟩
    rw [uimageVerify_short junk hint (Nat.le_of_not_lt hthere) hshort] at hr
    nomatch hr

/-! ## A file with one byte -/

/-- A header with its CRC, for one byte of data -/
def oneByteFile : Bytes :=
  beBytes 4 0x27051956 ++ beBytes 4 0xf5f59e6a ++ beBytes 4 0 ++ beBytes 4 1 ++ List.replicate 14 0 ++ [2, 0]
    ++ List.replicate 32 0

def oneByteHeader : Header := ⟨1, 0, 2, 0⟩

set_option maxRecDepth 4000 in
/-- Without the byte the file is accepted, and `uimage_verify` does not return. -/
theorem oneByte_stuck :
    uimageOpen .bits64 oneByteFile (fun _ => 4096) (fun _ _ => 0) = some ⟨oneByteHeader, [(0, 1)], 64⟩
      ∧ ∀ counts junk turns, uimageVerify oneByteFile oneByteHeader counts junk turns = none := by
  refine ⟨by decide +kernel, fun counts junk turns => ?_⟩
  exact uimageVerify_short junk (by decide) (by decide +kernel) (by decide +kernel) turns

/-- With a byte that has another CRC it returns an error, as it should. -/
theorem oneByte_verifies :
    Verifies (oneByteFile ++ [7]) oneByteHeader (fun _ => 4096) (List.replicate pageSize 0) := by
  refine (uimage_verify_spec _ oneByteHeader (fun _ => 4096) (List.replicate pageSize 0) List.length_replicate).1
    (Or.inr ⟨⟨by decide, by decide +kernel⟩, ?_⟩)
  intro i hi
  exact Nat.le_trans (Nat.min_le_right ..) (Nat.le_max_right 1 4096)

end Barebox.Uimage
