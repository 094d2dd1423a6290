import Barebox.State.Convert
import Barebox.State.Storage
import Barebox.Crc32

/-!
# The raw state format — `common/state/backend_format_raw.c`

Sixteen bytes of header, the variables at their positions, and, when the
format has an `algo`, an HMAC over both. `pack` writes that, `verify`
checks it, `unpack` copies the variables out again.

The three agree on the length of the data through the header's `data_len`,
which has sixteen bits. `pack` works with the full length everywhere else.

Mirroring notes:
- the header is packed and little endian, like the host.
- the digest is a parameter: a key and an algorithm make a function from
  messages to digests of a fixed length. Getting at them
  (`backend_raw_digest_init`) may fail; feeding and finishing the digest
  does not.
- `pack` copies every variable without looking at the size of the buffer;
  past its end is `EFAULT`. So is `list_last_entry` of no variables.
-/

namespace Barebox.State

open Lib

/-- What `backend_raw_digest_init` sets up: an HMAC under the state's key. -/
structure Digest where
  length : Nat
  final : Bytes → Bytes
  final_length : ∀ m, (final m).length = length
  length_pos : 0 < length
  length_lt : length < 2 ^ 31

/-- `struct state_backend_format_raw`: with an `algo`, a digest, or the
reason why there is none. -/
structure RawFormat where
  algo : Option (Except Errno Digest)

def headerSize : Nat := 16

/-- The header fields in front of `header_crc`; `reserved` is zero. -/
def headerFields (magic : UInt32) (dataLen : Nat) (dataCrc : UInt32) : Bytes :=
  leBytes 4 magic.toNat ++ leBytes 2 0 ++ leBytes 2 dataLen ++ leBytes 4 dataCrc.toNat

/-- `struct backend_raw_header`, filled in. -/
def rawHeader (magic : UInt32) (dataLen : Nat) (dataCrc : UInt32) : Bytes :=
  headerFields magic dataLen dataCrc ++
    leBytes 4 (crc32 0 (headerFields magic dataLen dataCrc)).toNat

/-! ## Verify -/

def headerMagic (buf : Bytes) : Nat := leNat (slice 0 4 buf)
def headerDataLen (buf : Bytes) : Nat := leNat (slice 6 2 buf)
def headerDataCrc (buf : Bytes) : Nat := leNat (slice 8 4 buf)
def headerHeaderCrc (buf : Bytes) : Nat := leNat (slice 12 4 buf)

/-- The digest to check against: none without an `algo`, or when the caller
has asked for no authentication. -/
def RawFormat.auth (raw : RawFormat) (noAuth : Bool) : Except Errno (Option Digest) :=
  match raw.algo with
  | none => .ok none
  | some (.error e) => if noAuth then .ok none else .error e
  | some (.ok d) => if noAuth then .ok none else .ok (some d)

def digestLength (d : Option Digest) : Nat := (d.map Digest.length).getD 0

/-- `backend_format_raw_verify`: the result, and what `*lenp` is afterwards.
It is rewritten before the digest is looked at. -/
def backendFormatRawVerify (raw : RawFormat) (magic : UInt32) (buf : Bytes) (noAuth : Bool) :
    Ret × Nat :=
  if buf.length < headerSize then (.err .EINVAL, buf.length)
  else if (crc32 0 (slice 0 12 buf)).toNat ≠ headerHeaderCrc buf then (.err .EINVAL, buf.length)
  else if magic ≠ 0 ∧ magic.toNat ≠ headerMagic buf then (.err .EINVAL, buf.length)
  else
    match raw.auth noAuth with
    | .error e => (.err e, buf.length)
    | .ok d =>
      let dataLen := headerDataLen buf
      if dataLen + digestLength d + headerSize > buf.length then (.err .EINVAL, buf.length)
      else if (crc32 0 (slice headerSize dataLen buf)).toNat ≠ headerDataCrc buf then
        (.err .EINVAL, buf.length)
      else
        match d with
        | none => (.ok, dataLen + headerSize)
        | some d =>
          if d.final (buf.take (headerSize + dataLen)) ≠ slice (headerSize + dataLen) d.length buf
          then (.err .EINVAL, dataLen + headerSize)
          else (.ok, dataLen + headerSize)

/-- `p` is a header and exactly the data it announces, with the right
checksums and, if one is asked for, the right magic. -/
structure ValidRaw (magic : UInt32) (p : Bytes) : Prop where
  length : p.length = headerDataLen p + headerSize
  headerCrc : (crc32 0 (slice 0 12 p)).toNat = headerHeaderCrc p
  magic : magic ≠ 0 → magic.toNat = headerMagic p
  dataCrc : (crc32 0 (slice headerSize (headerDataLen p) p)).toNat = headerDataCrc p

theorem ValidRaw.length_ge {magic : UInt32} {p : Bytes} (h : ValidRaw magic p) :
    headerSize ≤ p.length := by
  rw [h.length]
  exact Nat.le_add_left _ _

theorem verify_len_le (raw : RawFormat) (magic : UInt32) (buf : Bytes) (noAuth : Bool) :
    (backendFormatRawVerify raw magic buf noAuth).2 ≤ buf.length := by
  unfold backendFormatRawVerify
  split
  · exact Nat.le_refl _
  split
  · exact Nat.le_refl _
  split
  · exact Nat.le_refl _
  split
  · exact Nat.le_refl _
  dsimp only
  split
  · exact Nat.le_refl _
  split
  · exact Nat.le_refl _
  split
  · omega
  split
  · omega
  · omega

/-- The format as the storage code sees it, for one magic and one set of
flags. Verifying leaves nothing behind. -/
def rawFormat (raw : RawFormat) (magic : UInt32) (noAuth : Bool) : Format Unit where
  verify buf := backendFormatRawVerify raw magic buf noAuth
  keep f _ := f
  verify_le buf := verify_len_le raw magic buf noAuth

/-- Without the digest it asks for, verify accepts nothing. -/
theorem verify_auth_error {raw : RawFormat} {noAuth : Bool} {e : Errno}
    (hd : raw.auth noAuth = .error e) (magic : UInt32) (buf : Bytes) :
    (backendFormatRawVerify raw magic buf noAuth).1 ≠ .ok := by
  unfold backendFormatRawVerify
  rw [hd]
  split
  · simp
  split
  · simp
  split
  · simp
  · simp

/-- What verify accepts: a valid header with its data in front, and behind
that the digest of both, where one is checked. -/
theorem verify_ok_iff {raw : RawFormat} {magic : UInt32} {noAuth : Bool} {d : Option Digest}
    (hd : raw.auth noAuth = .ok d) (buf : Bytes) (n : Nat) :
    backendFormatRawVerify raw magic buf noAuth = (.ok, n) ↔
      n + digestLength d ≤ buf.length ∧ ValidRaw magic (buf.take n) ∧
      ∀ dg, d = some dg → dg.final (buf.take n) = slice n dg.length buf := by
  -- the fields of the header are the same in `buf` and in `buf.take n`
  have hfields : headerSize ≤ n →
      slice 0 12 (buf.take n) = slice 0 12 buf ∧ headerHeaderCrc (buf.take n) = headerHeaderCrc buf ∧
      headerMagic (buf.take n) = headerMagic buf ∧ headerDataLen (buf.take n) = headerDataLen buf ∧
      headerDataCrc (buf.take n) = headerDataCrc buf := by
    intro hn
    unfold headerSize at hn
    unfold headerHeaderCrc headerMagic headerDataLen headerDataCrc
    rw [slice_take buf (by omega), slice_take buf (by omega), slice_take buf (by omega),
      slice_take buf (by omega), slice_take buf (by omega)]
    exact ⟨rfl, rfl, rfl, rfl, rfl⟩
  constructor
  · intro h
    unfold backendFormatRawVerify at h
    split at h
    · cases h
    next hlen =>
    split at h
    · cases h
    next hhcrc =>
    split at h
    · cases h
    next hmagic =>
    rw [hd] at h
    dsimp only at h
    split at h
    · cases h
    next hcomplete =>
    split at h
    · cases h
    next hdcrc =>
    have hn : n = headerDataLen buf + headerSize ∧
        ∀ dg, d = some dg → dg.final (buf.take n) = slice n dg.length buf := by
      cases d with
      | none =>
        cases h
        exact ⟨rfl, nofun⟩
      | some dg =>
        dsimp only at h
        split at h
        · cases h
        next hmac =>
        cases h
        refine ⟨rfl, ?_⟩
        intro dg' hdg
        cases hdg
        rw [Nat.add_comm]
        exact Decidable.not_not.mp hmac
    obtain ⟨rfl, hmac⟩ := hn
    obtain ⟨h12, hh, hm, hdl, hdc⟩ := hfields (Nat.le_add_left _ _)
    refine ⟨by omega, ⟨?_, ?_, ?_, ?_⟩, hmac⟩
    · rw [List.length_take]
      omega
    · rw [h12, hh]
      exact Decidable.not_not.mp hhcrc
    · intro h0
      rw [hm]
      exact Decidable.not_not.mp fun hne => hmagic ⟨h0, hne⟩
    · rw [hdl, hdc, slice_take buf (by omega)]
      exact Decidable.not_not.mp hdcrc
  · rintro ⟨hle, hvalid, hmac⟩
    have hn : headerSize ≤ n :=
      Nat.le_trans hvalid.length_ge (List.length_take_le _ _)
    obtain ⟨h12, hh, hm, hdl, hdc⟩ := hfields hn
    have hlength := hvalid.length
    rw [List.length_take, Nat.min_eq_left (by omega), hdl] at hlength
    have hhcrc := hvalid.headerCrc
    have hmagic := hvalid.magic
    have hdcrc := hvalid.dataCrc
    rw [h12, hh] at hhcrc
    rw [hm] at hmagic
    rw [hdl, hdc, slice_take buf (by omega)] at hdcrc
    unfold backendFormatRawVerify
    rw [if_neg (by omega), if_neg (by simpa using hhcrc), if_neg (fun h => h.2 (hmagic h.1)), hd]
    dsimp only
    rw [if_neg (by omega), if_neg (by simpa using hdcrc), hlength]
    cases d with
    | none => rfl
    | some dg =>
      dsimp only
      rw [if_neg]
      rw [Nat.add_comm headerSize, ← hlength]
      exact fun hne => hne (hmac dg rfl)

/-! ## Unpack -/

/-- `sv->start + sv->size`, without and with the wrap-around of an
`unsigned int`. -/
def Variable.stop (v : Variable) : Nat := v.start.toNat + v.data.size
@[inherit_doc Variable.stop]
def Variable.stop32 (v : Variable) : Nat := v.stop % 2 ^ 32

/-- One round of the loop of `backend_format_raw_unpack`: "State variable
ends behind valid data" is skipped. -/
def unpackVar (data : Bytes) (dataLen : Nat) (v : Variable) : Except Errno Variable :=
  if v.stop32 > dataLen then .ok v
  else if h : v.stop ≤ data.length then
    .ok { v with
      data := v.data.setRaw (slice v.start.toNat v.data.size data) (slice_length h) }
  else .error .EFAULT

def unpackVars (data : Bytes) (dataLen : Nat) : List Variable → Ret × List Variable
  | [] => (.ok, [])
  | v :: vs =>
    match unpackVar data dataLen v with
    | .error e => (.err e, v :: vs)
    | .ok v' =>
      let (r, vs') := unpackVars data dataLen vs
      (r, v' :: vs')

/-- `backend_format_raw_unpack`. -/
def backendFormatRawUnpack (vars : List Variable) (buf : Bytes) : Ret × List Variable :=
  unpackVars (buf.drop headerSize) (headerDataLen buf) vars

/-! ## Pack -/

/-- The copy loop of `backend_format_raw_pack`, into what follows the
header in the new buffer. -/
def packVars : List Variable → Bytes → Except Errno Bytes
  | [], area => .ok area
  | v :: vs, area =>
    if v.stop ≤ area.length then packVars vs (overwrite v.start.toNat v.data.raw area)
    else .error .EFAULT

/-- "hmac over header and data", appended to both. -/
def appendDigest (d : Option Digest) (signed : Bytes) : Bytes :=
  match d with
  | none => signed
  | some d => signed ++ d.final signed

/-- `backend_format_raw_pack`. -/
def backendFormatRawPack (raw : RawFormat) (magic : UInt32) (vars : List Variable) :
    Except Errno Bytes :=
  match raw.auth false with
  | .error e => .error e
  | .ok d =>
    match vars.getLast? with
    | none => .error .EFAULT
    | some last =>
      let sizeData := last.stop32
      -- `xzalloc` of a size that has wrapped around is too short for the header and the data
      if sizeData + headerSize + digestLength d ≥ 2 ^ 32 then .error .EFAULT
      else
        match packVars vars (List.replicate (sizeData + digestLength d) 0) with
        | .error e => .error e
        | .ok area =>
          let data := area.take sizeData
          .ok (appendDigest d (rawHeader magic (sizeData % 2 ^ 16) (crc32 0 data) ++ data))

end Barebox.State
