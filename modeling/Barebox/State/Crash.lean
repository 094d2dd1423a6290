import Barebox.State.CircularRecord
import Barebox.State.RawRoundTrip

/-!
# Power cuts

A state is stored bucket by bucket, and in each circular bucket page by
page. When the power goes, the buckets in front of the cut hold the new
state, the ones behind it the old one, and the one at the cut some pages
of a record. On the next boot `init` looks at every block again and the
storage takes the first bucket that reads and verifies.

Everything hangs on what a boot makes of the bucket at the cut, and only
if it is the first one. Its last page is a page of the torn record. If that
does not end in metadata, the block is taken for the *old format* and read
from offset 0. If the record was to go there, what is read is a beginning of
the new state: too short, or complete. If older records are in front of it,
what is read is the oldest of them — and it verifies. If the page happens to
end in metadata, the length there says what is read. `storage_crash_consistent`
says that this is the one way to lose: what is read (`readBack`) is a valid
state that is neither old nor new.

Mirroring notes:
- a power cut is a program operation that fails after a prefix of the
  record; of the bucket, only the block survives.
- the result is header and data: verify cuts off the HMAC.
-/

namespace Barebox.State

open Lib List

variable {g : Geometry}
variable {peb : Eraseblock g.maxSize} {buf : Bytes}

/-! ## Booting from circular buckets -/

/-- The circular buckets as the storage code sees them, on a working
flash. -/
def circularDriver (g : Geometry) : Driver (List (Circ g)) where
  read w i :=
    match w[i]? with
    | none => (.fail .ENODEV, w)
    | some c =>
      let (r, c) := stateBackendBucketCircularRead c .clean
      (r, w.set i c)
  write w i buf :=
    match w[i]? with
    | none => (.err .ENODEV, w)
    | some c =>
      let (r, c) := stateBackendBucketCircularWrite c buf .clean .clean
      (r, w.set i c)

/-- All that is left of a bucket after a reboot is its block. -/
def reboot (w : List (Circ g)) : List (Circ g) :=
  w.map fun c => (stateBackendBucketCircularInit (Circ.fresh c.peb) .clean).2

/-- The load after a reboot. -/
def rebootRead (raw : RawFormat) (magic : UInt32) (noAuth : Bool) (w : List (Circ g)) :
    Outcome (List (Circ g)) Unit :=
  stateStorageRead (circularDriver g) (rawFormat raw magic noAuth)
    (w.map fun _ => ⟨[], 0, false⟩) (reboot w) ()

/-- Header and data of a buffer that was read and verifies. -/
def accepted (raw : RawFormat) (magic : UInt32) (noAuth : Bool) : BucketRead → Option Bytes
  | .data _ buf =>
    if (backendFormatRawVerify raw magic buf noAuth).1 = .ok then
      some (buf.take (backendFormatRawVerify raw magic buf noAuth).2)
    else none
  | .fail _ => none

/-- What a boot reads from a block. -/
def bootRead (peb : Eraseblock g.maxSize) : BucketRead :=
  (stateBackendBucketCircularRead (stateBackendBucketCircularInit (Circ.fresh peb) .clean).2
    .clean).1

section Boot

variable (raw : RawFormat) (magic : UInt32) (noAuth : Bool)

/-- The scan of one block: it passes if what is read is accepted, and then the buffer begins with
that. -/
theorem scanOne_circular (pre rest : List (Circ g)) (c : Circ g) :
    ∃ b c', scanOne (circularDriver g) (rawFormat raw magic noAuth) pre.length ⟨[], 0, false⟩
        (pre ++ c :: rest) () = ((b, (accepted raw magic noAuth
          (stateBackendBucketCircularRead c .clean).1).isSome), pre ++ c' :: rest, ()) ∧
      ∀ q, accepted raw magic noAuth (stateBackendBucketCircularRead c .clean).1 = some q →
        b.buf.take b.len = q := by
  have hread : (circularDriver g).read (pre ++ c :: rest) pre.length
      = ((stateBackendBucketCircularRead c .clean).1,
        pre ++ (stateBackendBucketCircularRead c .clean).2 :: rest) := by
    simp [circularDriver]
  unfold scanOne
  rw [hread]
  cases hr : (stateBackendBucketCircularRead c .clean).1 with
  | data unclean buf =>
    simp only [rawFormat, accepted, take_length]
    split
    next hok =>
      rw [decide_eq_true hok]
      exact ⟨_, _, rfl, fun q hq => Option.some.inj hq⟩
    next hok =>
    rw [decide_eq_false hok]
    exact ⟨_, _, rfl, nofun⟩
  | fail e =>
    have hshort : backendFormatRawVerify raw magic [] noAuth = (.err .EINVAL, 0) := rfl
    cases e <;> simp only [accepted, rawFormat, take_nil, hshort] <;>
      exact ⟨_, _, rfl, nofun⟩

/-- The first pass over the buckets from position `pre.length` on. -/
theorem firstValid_circular (rest : List (Circ g)) : ∀ (pre : List (Circ g)),
    (firstValid (scan (circularDriver g) (rawFormat raw magic noAuth) pre.length
        (rest.map fun _ => ⟨[], 0, false⟩) (pre ++ rest) ()).1).map (fun x => x.2.buf.take x.2.len)
      = rest.findSome? fun c => accepted raw magic noAuth
          (stateBackendBucketCircularRead c .clean).1 := by
  induction rest with
  | nil => intro pre; rfl
  | cons c rest ih =>
    intro pre
    obtain ⟨b, c', hone, hpayload⟩ := scanOne_circular raw magic noAuth pre rest c
    have hnext := ih (pre ++ [c'])
    rw [length_append, append_assoc] at hnext
    rw [map_cons, scan, hone]
    cases hacc : accepted raw magic noAuth (stateBackendBucketCircularRead c .clean).1 with
    | some q =>
      rw [findSome?_cons, hacc, Option.isSome_some]
      dsimp only [firstValid, Option.map_some]
      rw [hpayload q hacc]
    | none =>
      rw [findSome?_cons, hacc, Option.isSome_none, ← hnext]
      dsimp only [firstValid]
      rw [Option.map_map]
      rfl

/-- **What a boot loads**: the first block that reads and verifies. -/
theorem rebootRead_ret (w : List (Circ g)) : (rebootRead raw magic noAuth w).ret
      = match w.findSome? fun c => accepted raw magic noAuth (bootRead c.peb) with
        | none => .error .ENOENT
        | some q => .ok q := by
  have hfirst := firstValid_circular raw magic noAuth (reboot w) []
  have hblank : ((reboot w).map fun _ => (⟨[], 0, false⟩ : Bucket))
      = w.map fun _ => ⟨[], 0, false⟩ := by
    unfold reboot
    rw [map_map]
    rfl
  have hfind : ((reboot w).findSome? fun c => accepted raw magic noAuth
      (stateBackendBucketCircularRead c .clean).1)
      = w.findSome? fun c => accepted raw magic noAuth (bootRead c.peb) := by
    unfold reboot
    rw [findSome?_map]
    rfl
  rw [hblank, hfind, nil_append] at hfirst
  unfold rebootRead
  rw [stateStorageRead_ret, ← hfirst]
  cases firstValid (scan (circularDriver g) (rawFormat raw magic noAuth) 0
    (w.map fun _ => ⟨[], 0, false⟩) (reboot w) ()).1 with
  | none => rfl
  | some x => rfl

end Boot

/-! ## Whole records -/

/-- `p` is the packed state `vars`, and `signed` its header and data. -/
structure Packs (raw : RawFormat) (magic : UInt32) (vars : List Variable) (p signed : Bytes) :
    Prop where
  pack : backendFormatRawPack raw magic vars = .ok p
  digest : ∃ d, raw.auth false = .ok d ∧ p = appendDigest d signed
  /-- What the header's sixteen bits can hold. -/
  short : signed.length < 2 ^ 16 + headerSize

variable {raw : RawFormat} {magic : UInt32} {vars : List Variable} {p signed : Bytes} {stop : Nat}

theorem Packs.valid (h : Packs raw magic vars p signed) : ValidRaw magic signed := by
  obtain ⟨d, last, data, hd, -, -, hlen, hp⟩ := pack_ok h.pack
  obtain ⟨d', hd', hp'⟩ := h.digest
  cases hd.symm.trans hd'
  -- both signed parts have the same length in front of the digest
  have hsigned : signed = rawHeader magic (last.stop % 2 ^ 16) (crc32 0 data) ++ data := by
    have happ := hp'.symm.trans hp
    have hlength := congrArg List.length happ
    rw [appendDigest_length, appendDigest_length] at hlength
    have htake := take_appendDigest d signed []
    rw [happ, Nat.add_right_cancel hlength, take_appendDigest] at htake
    exact htake.symm
  have hshort := h.short
  rw [hsigned, length_append, rawHeader_length] at hshort
  have hdata : data.length < 2 ^ 16 := by omega
  rw [hsigned, ← hlen, Nat.mod_eq_of_lt hdata]
  exact validRaw_rawHeader magic hdata

/-- A boot finds a whole record. -/
theorem StoredAt.bootRead {off : Nat}
    (h : StoredAt peb p off) : State.bootRead peb = .data false (p ++ padding g p) := by
  have hst : StoredAt (Circ.fresh peb).peb p off := h
  unfold State.bootRead
  rw [hst.init]
  have hread := StoredAt.read (c := { Circ.fresh peb with
    writeArea := off + recordLength g p, lastWrittenLength := recordLength g p }) hst rfl rfl
  rw [hread]

/-- The last record of a block is what a boot accepts. -/
theorem StoredAt.accepted (hp : Packs raw magic vars p signed) (noAuth : Bool)
    {off : Nat} (h : StoredAt peb p off) :
    State.accepted raw magic noAuth (State.bootRead peb) = some signed := by
  obtain ⟨d, hd, rfl⟩ := hp.digest
  have hverify := verify_appendDigest hd noAuth hp.valid (padding g (appendDigest d signed))
  rw [h.bootRead, State.accepted, hverify, if_pos rfl, take_appendDigest]

/-- A bucket with a history: any block at first, any session of reads,
writes and re-inits, the last write being that of `p`. -/
def LastStored (p : Bytes) (c : Circ g) : Prop :=
  ∃ (peb : Eraseblock g.maxSize) (calls : List Call), (∀ x ∈ calls, x.Fits g) ∧
    lastWrite calls = some p ∧ c = run (fun c x => Call.apply x c) (Circ.fresh peb) calls

variable {c : Circ g} {k : Nat} {noAuth : Bool}

theorem LastStored.sessionInv (h : LastStored p c) : SessionInv ⟨c, some p⟩ := by
  obtain ⟨peb, calls, hfit, hlast, rfl⟩ := h
  have hinv := run_inv Session.step_inv calls
    (Along.of_forall calls ⟨Circ.fresh peb, none⟩ hfit) (fresh_sessionInv peb)
  rw [Session.run_eq] at hinv
  have hnote : run Call.note none calls = some p := hlast
  rwa [hnote] at hinv

/-! ## The cut -/

/-- A write that the power cut has ended: before it has begun, or after the
erase (if there is one) and `k` pages. -/
def cutWrite (new : Bytes) (cut : Option Nat) (c : Circ g) : Circ g :=
  match cut with
  | none => c
  | some k =>
    let buf := writeBuf new (writtenLength g new.length)
    (stateBackendBucketCircularWrite c new .clean
      ⟨.err .EIo, buf.take (k * g.writesize), .passed⟩).2

/-- `state_storage_write`, cut in bucket `j`. -/
def cutStorageWrite (w : List (Circ g)) (new : Bytes) (j : Nat) (cut : Option Nat) : List (Circ g) :=
  (writeAll (circularDriver g) new 0 j w).2.modify j (cutWrite new cut)

/-- A write starts at its own copy and does not go back. -/
theorem writeAll_before : ∀ (n i m : Nat) (w : List (Circ g)), m < i →
    (writeAll (circularDriver g) buf i n w).2[m]? = w[m]?
  | 0, _, _, _, _ => rfl
  | n + 1, i, m, w, hm => by
    have hset : ((circularDriver g).write w i buf).2[m]? = w[m]? := by
      unfold circularDriver
      dsimp only
      split
      · rfl
      · exact getElem?_set_ne (by omega)
    unfold writeAll
    split
    all_goals
      next w' heq =>
      rw [heq] at hset
      exact (writeAll_before n (i + 1) m w' (by omega)).trans hset

/-- The first bucket when the cut comes in a later one. -/
theorem cutStorageWrite_head (c : Circ g) (w : List (Circ g)) (new : Bytes) (j : Nat)
    (cut : Option Nat) : (cutStorageWrite (c :: w) new (j + 1) cut)[0]?
      = some (stateBackendBucketCircularWrite c new .clean .clean).2 := by
  have hwrite : (circularDriver g).write (c :: w) 0 new
      = ((stateBackendBucketCircularWrite c new .clean .clean).1,
        (stateBackendBucketCircularWrite c new .clean .clean).2 :: w) := rfl
  have hrest : (writeAll (circularDriver g) new 0 (j + 1) (c :: w)).2[0]?
      = some (stateBackendBucketCircularWrite c new .clean .clean).2 := by
    rw [writeAll, hwrite]
    cases (stateBackendBucketCircularWrite c new .clean .clean).1 with
    | ok => exact writeAll_before j 1 0 _ (by decide)
    | err e => exact writeAll_before j 1 0 _ (by decide)
  unfold cutStorageWrite
  rw [getElem?_modify_ne _ _ (Nat.succ_ne_zero j), hrest]

/-! ## The torn block -/

/-- The pages of the record of `new` up to the last one that shows among
the first `k`: an all-`0xff` page looks as if it had not been written. -/
def shownPages (g : Geometry) (new : Bytes) (k : Nat) : Nat :=
  scanBack g.writesize ((record g new).take (k * g.writesize)) k

/-- Where `init` ends on a block that holds `part` (and nothing) from
offset `a` on. -/
theorem scan_torn {a : Nat} {pre part tail : Bytes}
    (hbytes : peb.bytes = pre ++ part ++ tail) (hpre : pre.length = a) (ha : g.writesize ∣ a)
    (hpart : part.length = k * g.writesize) (htail : ∀ x ∈ tail, x = 0xff)
    (hshown : 0 < scanBack g.writesize part k) :
    scanBack g.writesize peb.bytes (g.maxSize / g.writesize) * g.writesize
      = a + scanBack g.writesize part k * g.writesize := by
  obtain ⟨m, rfl⟩ := ha
  have hpos := g.writesize_pos
  have hle := scanBack_le g.writesize part k
  have hmul : scanBack g.writesize part k * g.writesize ≤ part.length := by
    rw [hpart]
    exact Nat.mul_le_mul_right _ hle
  rw [Nat.mul_comm g.writesize m, ← Nat.add_mul]
  rw [Nat.mul_comm] at hpre
  congr 1
  have hpage : (m + scanBack g.writesize part k - 1) * g.writesize
      = m * g.writesize + (scanBack g.writesize part k - 1) * g.writesize := by
    rw [← Nat.add_mul]
    congr 1
    omega
  have hlast : (scanBack g.writesize part k - 1) * g.writesize + g.writesize
      = scanBack g.writesize part k * g.writesize := by
    rw [← Nat.succ_mul]
    congr 1
    omega
  -- the last page that is not erased is one of the torn write
  refine scanBack_eq (by omega) ?_ ?_ _ ?_
  · rw [hpage, hbytes, append_assoc, slice_append_right _ (by omega), hpre,
      Nat.add_sub_cancel_left, slice_append_left _ (by omega)]
    exact scanBack_page k hshown
  · intro x hx
    rw [hbytes, append_assoc, drop_append, drop_eq_nil_of_le (by
      rw [hpre]; exact Nat.mul_le_mul_right _ (Nat.le_add_right _ _)), nil_append, hpre,
      Nat.add_mul, Nat.add_sub_cancel_left, drop_append_of_le_length hmul] at hx
    rcases mem_append.mp hx with hx | hx
    · refine scanBack_erased k ?_ x hx
      intro y hy
      rw [← hpart, drop_length] at hy
      cases hy
    · exact htail x hx
  · rw [Nat.le_div_iff_mul_le hpos, Nat.add_mul, ← peb.length_eq, hbytes, length_append,
      length_append]
    omega

/-- What `init` finds depends on how far the block is written. -/
theorem init_of_scan (c : Circ g)
    (hscan : scanBack g.writesize c.peb.bytes (g.maxSize / g.writesize) * g.writesize = stop) (hpos : 0 < stop) :
    ∃ wrong, (stateBackendBucketCircularInit c .clean).2 = { c with
      writeArea := stop
      lastWrittenLength :=
        if metaMagic c.peb.bytes stop = circularMagic then metaLength c.peb.bytes stop else 0
      wrongMagic := wrong } := by
  have hle := scan_pages g c.peb.bytes
  have hall : slice 0 g.maxSize c.peb.bytes = c.peb.bytes := by
    rw [slice_zero, take_of_length_le (Nat.le_of_eq c.peb.length_eq)]
  unfold stateBackendBucketCircularInit
  rw [stateMtdPebRead_clean c (Nat.le_of_eq (Nat.zero_add _)) (by omega), hall]
  simp only [hscan]
  rw [if_neg (Nat.ne_of_gt hpos)]
  by_cases hmagic : metaMagic c.peb.bytes stop = circularMagic
  · rw [if_neg (fun hne => hne hmagic), if_pos hmagic]
    exact ⟨_, rfl⟩
  · rw [if_pos hmagic, if_neg hmagic]
    exact ⟨_, rfl⟩

/-- What is read from a block whose pages end at `stop`. -/
def readBack (g : Geometry) (pages : Bytes) (stop : Nat) : BucketRead :=
  let length := metaLength pages stop
  if metaMagic pages stop ≠ circularMagic ∨ length = 0 then
    -- the old format
    .data false (pages.take (min stop (g.maxSize - metaSize)))
  else if length > stop ∨ length % g.writesize ≠ 0 then .fail .EINVAL
  else .data false ((slice (stop - length) length pages).take (length - metaSize))

/-- Booting reads what stands in front of the first free page. -/
theorem bootRead_eq
    (hscan : scanBack g.writesize peb.bytes (g.maxSize / g.writesize) * g.writesize = stop) (hpos : 0 < stop)
    (hroom : metaSize < g.maxSize) : bootRead peb = readBack g (peb.bytes.take stop) stop := by
  have h8 := g.writesize_ge
  have hstop : g.writesize ≤ stop := by
    rw [← hscan] at hpos ⊢
    exact Nat.le_mul_of_pos_left _ (Nat.pos_of_mul_pos_right hpos)
  have hle : stop ≤ g.maxSize := hscan ▸ scan_pages g peb.bytes
  obtain ⟨wrong, hinit⟩ := init_of_scan (Circ.fresh peb) hscan hpos
  have hmagic : metaMagic (peb.bytes.take stop) stop = metaMagic peb.bytes stop :=
    congrArg leNat (slice_take _ (by omega))
  have hlength : metaLength (peb.bytes.take stop) stop = metaLength peb.bytes stop :=
    congrArg leNat (slice_take _ (by omega))
  unfold bootRead readBack stateBackendBucketCircularRead
  rw [hinit, hmagic, hlength]
  dsimp only
  rw [if_neg (Nat.ne_of_gt hpos)]
  -- without a trailer the data of an older version is read from the start
  have holdFormat : stateMtdPebRead { Circ.fresh peb with lastWrittenLength := 0, wrongMagic := wrong }
      0 (min stop (g.maxSize - metaSize)) .clean
      = (.data false ((peb.bytes.take stop).take (min stop (g.maxSize - metaSize))),
        { Circ.fresh peb with lastWrittenLength := 0, wrongMagic := wrong }) := by
    have hlen : 0 < min stop (g.maxSize - metaSize) ∧ min stop (g.maxSize - metaSize) ≤ g.maxSize := by
      omega
    rw [stateMtdPebRead_clean _ (by rw [Nat.zero_add]; exact hlen.2) hlen.1,
      take_take, Nat.min_eq_left (Nat.min_le_left _ _)]
    rfl
  by_cases hnone : metaMagic peb.bytes stop ≠ circularMagic ∨ metaLength peb.bytes stop = 0
  · have hzero : (if metaMagic (Circ.fresh peb).peb.bytes stop = circularMagic then
        metaLength (Circ.fresh peb).peb.bytes stop else 0) = 0 := by
      split
      · next heq => exact hnone.resolve_left fun hne => hne heq
      · rfl
    rw [hzero, if_pos rfl, if_pos hnone]
    exact congrArg Prod.fst holdFormat
  · have hmeta : metaMagic peb.bytes stop = circularMagic ∧ metaLength peb.bytes stop ≠ 0 :=
      ⟨Classical.byContradiction fun hne => hnone (Or.inl hne), fun heq => hnone (Or.inr heq)⟩
    have hfield : (if metaMagic (Circ.fresh peb).peb.bytes stop = circularMagic then
        metaLength (Circ.fresh peb).peb.bytes stop else 0) = metaLength peb.bytes stop := if_pos hmeta.1
    rw [hfield, if_neg hmeta.2, if_neg hnone]
    by_cases hbad : metaLength peb.bytes stop > stop ∨ metaLength peb.bytes stop % g.writesize ≠ 0
    · rw [if_pos hbad, if_pos hbad]
    · rw [if_neg hbad, if_neg hbad, stateMtdPebRead_clean _ (by omega) (by omega), slice_take _ (by omega)]
      rfl

/-! ## What verifies -/

/-- What is accepted is valid and stands at the front of the buffer. -/
theorem accepted_data {unclean : Bool} {q : Bytes}
    (h : accepted raw magic noAuth (.data unclean buf) = some q) : ValidRaw magic q ∧ q <+: buf := by
  rw [accepted] at h
  split at h
  · next hok =>
    cases hd : raw.auth noAuth with
    | error e => exact absurd hok (verify_auth_error hd magic buf)
    | ok d =>
      cases h
      have hvalid := (verify_ok_iff hd buf _).mp (Prod.ext hok rfl)
      exact ⟨hvalid.2.1, List.take_prefix _ _⟩
  · cases h

/-- The header says how long the state is, so at most one starts a given
buffer. -/
theorem ValidRaw.eq_of_prefix {q : Bytes} (hp : ValidRaw magic p)
    (hq : ValidRaw magic q) (hpb : p <+: buf) (hqb : q <+: buf) : p = q := by
  have hlenp := hp.length
  have hlenq := hq.length
  have hfield : ∀ {r : Bytes}, r <+: buf → headerSize ≤ r.length →
      headerDataLen r = headerDataLen buf := by
    intro r hr hlen
    obtain ⟨t, rfl⟩ := hr
    unfold headerDataLen
    unfold headerSize at hlen
    rw [slice_append_left _ (by omega)]
  rw [hfield hpb hp.length_ge] at hlenp
  rw [hfield hqb hq.length_ge] at hlenq
  obtain ⟨tp, htp⟩ := hpb
  obtain ⟨tq, htq⟩ := hqb
  exact (append_inj (htp.trans htq.symm) (hlenp.trans hlenq.symm)).1

theorem Packs.prefix_record (h : Packs raw magic vars p signed) (g : Geometry) :
    signed <+: record g p := by
  obtain ⟨d, -, rfl⟩ := h.digest
  have hpre : signed <+: appendDigest d signed := by
    have htake := take_appendDigest d signed []
    rw [append_nil] at htake
    exact prefix_iff_eq_take.mpr htake.symm
  refine hpre.trans ?_
  rw [record_eq, append_assoc]
  exact prefix_append _ _

/-! ## The first bucket -/

/-- The block behind a cut after `k` pages of `new`, up to the last page that shows. -/
def Circ.tornPages (c : Circ g) (new : Bytes) (k : Nat) : Bytes :=
  c.peb.bytes.take (c.writeStart (recordLength g new))
    ++ (record g new).take (shownPages g new k * g.writesize)

/-- A cut after `k` pages of `new` exposes the state `q`: the record is torn and
shows, it is not the first in the block or its last page that shows ends in the
magic — and what is read then verifies, as `q`. -/
structure Exposed (raw : RawFormat) (magic : UInt32) (noAuth : Bool) (c : Circ g) (new : Bytes)
    (k : Nat) (q : Bytes) : Prop where
  fits : Fits g new
  torn : k * g.writesize < recordLength g new
  shows : 0 < shownPages g new k
  other : c.writeStart (recordLength g new) ≠ 0
    ∨ metaMagic (record g new) (shownPages g new k * g.writesize) = circularMagic
  starts : accepted raw magic noAuth (readBack g (c.tornPages new k)
    (c.writeStart (recordLength g new) + shownPages g new k * g.writesize)) = some q

/-- A write that is cut has programmed the first `k` pages of its record. -/
theorem cutWrite_peb {c : Circ g} {new : Bytes} (hp : Fits g new) (k : Nat) :
    ∃ h, (cutWrite new (some k) c).peb
      = (c.pebAt (c.writeStart (recordLength g new))).program (c.writeStart (recordLength g new))
          ((record g new).take (k * g.writesize)) h := by
  have hle : c.writeStart (recordLength g new) + (record g new).length ≤ g.maxSize := by
    rw [record_length]
    exact writeStart_add_le hp
  have hpart : ((record g new).take (k * g.writesize)).take (record g new).length
      = (record g new).take (k * g.writesize) :=
    take_of_length_le (length_take_le' _ _)
  have hcut : (cutWrite new (some k) c) = (stateBackendBucketCircularWrite c new .clean
      ⟨.err .EIo, (record g new).take (k * g.writesize), .passed⟩).2 := by
    unfold cutWrite record
    rw [writtenLength_of_fits hp]
  rw [hcut]
  unfold stateBackendBucketCircularWrite
  rw [circularPrepare_clean c hp]
  simp only [stateMtdPebWrite]
  rw [dif_pos ⟨hle, record_ne_nil g new⟩]
  refine ⟨?_, by simp only [hpart]⟩
  have hlen := length_take_le' (k * g.writesize) (record g new)
  omega

/-- An erased block has nothing to boot from. -/
theorem bootRead_erased (h : peb.ErasedFrom 0) : ∃ e, bootRead peb = .fail e := by
  have hscan : ∀ n, scanBack g.writesize peb.bytes n = 0 := by
    intro n
    refine Nat.eq_zero_of_not_pos fun hpos => ?_
    obtain ⟨x, hx, hne⟩ := scanBack_page n hpos
    exact hne (h x (mem_of_mem_drop (mem_of_mem_slice hx)))
  have hall : slice 0 g.maxSize (Circ.fresh peb).peb.bytes = peb.bytes :=
    take_of_length_le (Nat.le_of_eq peb.length_eq)
  unfold bootRead stateBackendBucketCircularInit
  by_cases hzero : g.maxSize = 0
  · -- no block at all: `init` fails and leaves `write_area` at zero
    unfold stateMtdPebRead
    rw [if_pos (Or.inr hzero)]
    exact ⟨.ENODATA, rfl⟩
  · rw [stateMtdPebRead_clean _ (Nat.le_of_eq (Nat.zero_add _)) (Nat.pos_of_ne_zero hzero), hall]
    simp only [hscan, Nat.zero_mul, if_true]
    exact ⟨.ENODATA, rfl⟩

section Cut

variable {oldVars newVars : List Variable} {old new oldP newP : Bytes}

/-- The pages of a cut record that shows, and what is in front of it. -/
theorem bootRead_cut (hinv : FlashInv c) (hp : Fits g new)
    (htorn : k * g.writesize < recordLength g new) (hshows : 0 < shownPages g new k) :
    bootRead (cutWrite new (some k) c).peb = readBack g (c.tornPages new k)
      (c.writeStart (recordLength g new) + shownPages g new k * g.writesize) := by
  have h8 := g.writesize_ge
  obtain ⟨hbound, hpeb⟩ := cutWrite_peb hp k
  have hend := writeStart_add_le (c := c) hp
  have hdvd := hinv.writeStart_dvd (recordLength g new)
  have herased := hinv.pebAt_erasedFrom (recordLength g new)
  have hfront : (c.pebAt (c.writeStart (recordLength g new))).bytes.take (c.writeStart (recordLength g new))
      = c.peb.bytes.take (c.writeStart (recordLength g new)) := by
    by_cases hfirst : c.writeStart (recordLength g new) = 0
    · rw [hfirst, take_zero, take_zero]
    · rw [show c.pebAt (c.writeStart (recordLength g new)) = c.peb from if_neg hfirst]
  unfold Circ.tornPages
  rw [← hfront]
  generalize c.writeStart (recordLength g new) = a at *
  have hpart : ((record g new).take (k * g.writesize)).length = k * g.writesize := by
    rw [length_take, record_length]
    omega
  have hpre : ((c.pebAt a).bytes.take a).length = a := by
    rw [length_take, Eraseblock.length_eq]
    omega
  have hbytes : (cutWrite new (some k) c).peb.bytes
      = (c.pebAt a).bytes.take a ++ (record g new).take (k * g.writesize)
        ++ (c.pebAt a).bytes.drop (a + k * g.writesize) := by
    rw [hpeb, Eraseblock.program_erased hbound herased, overwrite, hpart]
  have hscan : scanBack g.writesize (cutWrite new (some k) c).peb.bytes (g.maxSize / g.writesize) * g.writesize
      = a + shownPages g new k * g.writesize :=
    scan_torn hbytes hpre hdvd hpart (herased.mono (Nat.le_add_right _ _)) hshows
  -- the shown pages are whole pages of the record
  have hshown : shownPages g new k * g.writesize ≤ k * g.writesize :=
    Nat.mul_le_mul_right _ (scanBack_le _ _ _)
  have hpage : g.writesize ≤ shownPages g new k * g.writesize := Nat.le_mul_of_pos_left _ hshows
  have hpages : (cutWrite new (some k) c).peb.bytes.take (a + shownPages g new k * g.writesize)
      = (c.pebAt a).bytes.take a ++ (record g new).take (shownPages g new k * g.writesize) := by
    rw [hbytes, take_append_of_le_length (by rw [length_append, hpre, hpart]; omega), take_append, hpre,
      take_of_length_le (by rw [hpre]; omega), Nat.add_sub_cancel_left, take_take_of_le _ hshown]
  rw [bootRead_eq hscan (by omega) (by unfold metaSize; omega), hpages]

/-- Pages that do not show leave the block as it is. -/
theorem program_of_not_shown (hinv : FlashInv c)
    (hbound : c.writeStart (recordLength g new) + ((record g new).take (k * g.writesize)).length
      ≤ g.maxSize) (hshows : ¬ 0 < shownPages g new k) :
    (c.pebAt (c.writeStart (recordLength g new))).program _
        ((record g new).take (k * g.writesize)) hbound
      = c.pebAt (c.writeStart (recordLength g new)) := by
  have hnone : ∀ x ∈ ((record g new).take (k * g.writesize)).drop (k * g.writesize), x = 0xff := by
    rw [drop_eq_nil_of_le (length_take_le _ _)]
    exact nofun
  have hff : ∀ x ∈ (record g new).take (k * g.writesize), x = 0xff := by
    have herased := scanBack_erased k hnone
    rwa [show scanBack g.writesize ((record g new).take (k * g.writesize)) k = 0 from
      Nat.eq_zero_of_not_pos hshows, Nat.zero_mul] at herased
  have honto := hinv.pebAt_erasedFrom (recordLength g new)
  have hlen : c.writeStart (recordLength g new) + ((record g new).take (k * g.writesize)).length
      ≤ (c.pebAt (c.writeStart (recordLength g new))).bytes.length := by
    rw [Eraseblock.length_eq]
    exact hbound
  have hpart : (record g new).take (k * g.writesize)
      = slice (c.writeStart (recordLength g new)) ((record g new).take (k * g.writesize)).length
          (c.pebAt (c.writeStart (recordLength g new))).bytes := by
    rw [slice_of_all hlen honto]
    exact eq_replicate_iff.mpr ⟨rfl, hff⟩
  have hbytes := Eraseblock.program_erased hbound honto
  have hsame := overwrite_slice hlen
  rw [← hpart, ← hbytes] at hsame
  exact Eraseblock.ext hsame

/-- What a boot makes of the bucket at the cut. -/
theorem accepted_cut_iff (noAuth : Bool) (k : Nat) (hs : SessionInv ⟨c, some old⟩)
    (hold : Packs raw magic oldVars old oldP) (hnew : Packs raw magic newVars new newP) :
    (∀ q, accepted raw magic noAuth (bootRead (cutWrite new (some k) c).peb) = some q →
        q = oldP ∨ q = newP) ↔
      ∀ q, Exposed raw magic noAuth c new k q → q = oldP ∨ q = newP := by
  obtain ⟨off, hst, hwa⟩ := hs.stored old rfl
  by_cases hfit : Fits g new
  case neg =>
    -- the write fails with `-E2BIG`
    have hsame : cutWrite new (some k) c = c := circularWrite_unfit c hfit _
    rw [hsame, hst.accepted hold noAuth]
    exact iff_of_true (fun q hq => Or.inl (Option.some.inj hq).symm) fun q hq => absurd hq.fits hfit
  obtain ⟨hbound, hpeb⟩ := cutWrite_peb hfit k
  by_cases htorn : k * g.writesize < recordLength g new
  case neg =>
    -- the record was complete
    have hwhole : (record g new).take (k * g.writesize) = record g new :=
      take_of_length_le (by rw [record_length]; exact Nat.le_of_not_lt htorn)
    simp only [hwhole] at hpeb
    have hnewst := storedAt_program hs.flash hfit (hwhole ▸ hbound)
    rw [hpeb, hnewst.accepted hnew noAuth]
    exact iff_of_true (fun q hq => Or.inr (Option.some.inj hq).symm) fun q hq => absurd hq.torn htorn
  by_cases hshows : 0 < shownPages g new k
  case neg =>
    -- only all-`0xff` pages: the block looks as before
    have hsame : (cutWrite new (some k) c).peb = c.pebAt (c.writeStart (recordLength g new)) :=
      hpeb.trans (program_of_not_shown hs.flash hbound hshows)
    rw [hsame]
    refine iff_of_true (fun q hq => ?_) fun q hq => absurd hq.shows hshows
    by_cases hfirst : c.writeStart (recordLength g new) = 0
    · rw [hfirst] at hq
      have herased : c.pebAt 0 = .erased g.maxSize := if_pos rfl
      obtain ⟨e, hfail⟩ := bootRead_erased (Eraseblock.erased_erasedFrom 0)
      rw [herased, hfail] at hq
      cases hq
    · have honto : c.pebAt (c.writeStart (recordLength g new)) = c.peb := if_neg hfirst
      rw [honto, hst.accepted hold noAuth] at hq
      exact Or.inl (Option.some.inj hq).symm
  rw [bootRead_cut hs.flash hfit htorn hshows]
  by_cases hother : c.writeStart (recordLength g new) ≠ 0
      ∨ metaMagic (record g new) (shownPages g new k * g.writesize) = circularMagic
  · exact ⟨fun h q hq => h q hq.starts, fun h q hq => h q ⟨hfit, htorn, hshows, hother, hq⟩⟩
  -- the record was to be the first one: what is read is a beginning of it
  refine iff_of_true (fun q hq => ?_) fun q hq => absurd hq.other hother
  have hfirst : c.writeStart (recordLength g new) = 0 :=
    Classical.byContradiction fun hne => hother (Or.inl hne)
  have hmagic : metaMagic (c.tornPages new k) (shownPages g new k * g.writesize)
      = metaMagic (record g new) (shownPages g new k * g.writesize) := by
    have hge : g.writesize ≤ shownPages g new k * g.writesize := Nat.le_mul_of_pos_left _ hshows
    have h8 := g.writesize_ge
    unfold Circ.tornPages
    rw [hfirst, take_zero, nil_append]
    exact congrArg leNat (slice_take _ (by omega))
  rw [hfirst, Nat.zero_add, readBack, hmagic, if_pos (Or.inl fun heq => hother (Or.inr heq))] at hq
  obtain ⟨hvalid, hpre⟩ := accepted_data hq
  have htorn : c.tornPages new k <+: record g new := by
    unfold Circ.tornPages
    rw [hfirst, take_zero, nil_append]
    exact List.take_prefix _ _
  exact Or.inr (hvalid.eq_of_prefix hnew.valid ((hpre.trans (List.take_prefix _ _)).trans htorn)
    (hnew.prefix_record g))

/-- **Crash consistency.** After a power cut anywhere in a store, the next
boot loads the old state or the new one, if and only if the cut exposes no
other state in the first bucket. -/
theorem storage_crash_consistent (hold : Packs raw magic oldVars old oldP)
    (hnew : Packs raw magic newVars new newP) (c₀ c₁ : Circ g) (rest : List (Circ g))
    (hlast : ∀ c ∈ c₀ :: c₁ :: rest, LastStored old c) (j : Nat) (cut : Option Nat) :
    let ret := (rebootRead raw magic noAuth (cutStorageWrite (c₀ :: c₁ :: rest) new j cut)).ret
    (ret = .ok oldP ∨ ret = .ok newP) ↔ ∀ k, j = 0 → cut = some k →
      ∀ q, Exposed raw magic noAuth c₀ new k q → q = oldP ∨ q = newP := by
  intro ret
  have hs₀ := (hlast c₀ (mem_cons_self)).sessionInv
  have hs₁ := (hlast c₁ (mem_cons_of_mem _ (mem_cons_self))).sessionInv
  obtain ⟨off₀, hst₀, -⟩ := hs₀.stored old rfl
  obtain ⟨off₁, hst₁, -⟩ := hs₁.stored old rfl
  have hret := rebootRead_ret raw magic noAuth (cutStorageWrite (c₀ :: c₁ :: rest) new j cut)
  cases j with
  | succ j =>
    -- the first bucket has been written, or the write has failed for all of them
    refine iff_of_true ?_ (fun k hj => nomatch hj)
    have hhead := cutStorageWrite_head c₀ (c₁ :: rest) new j cut
    cases hw : cutStorageWrite (c₀ :: c₁ :: rest) new (j + 1) cut with
    | nil =>
      rw [hw] at hhead
      cases hhead
    | cons d w =>
      rw [hw] at hhead hret
      cases hhead
      show (rebootRead raw magic noAuth _).ret = _ ∨ (rebootRead raw magic noAuth _).ret = _
      rw [hw, hret, findSome?_cons]
      by_cases hfit : Fits g new
      · obtain ⟨off, peb, hwrite, hst⟩ := circularWrite_clean hs₀.flash hfit
        rw [hwrite, hst.accepted hnew noAuth]
        exact Or.inr rfl
      · rw [circularWrite_unfit c₀ hfit, hst₀.accepted hold noAuth]
        exact Or.inl rfl
  | zero =>
    have hfind : ret = .ok ((accepted raw magic noAuth (bootRead (cutWrite new cut c₀).peb)).getD oldP) := by
      have hw : cutStorageWrite (c₀ :: c₁ :: rest) new 0 cut = cutWrite new cut c₀ :: c₁ :: rest := rfl
      rw [hw, findSome?_cons, findSome?_cons, hst₁.accepted hold noAuth] at hret
      show (rebootRead raw magic noAuth _).ret = _
      rw [hw, hret]
      cases accepted raw magic noAuth (bootRead (cutWrite new cut c₀).peb) with
      | none => rfl
      | some q => rfl
    rw [hfind]
    cases cut with
    | none =>
      refine iff_of_true ?_ (fun k _ hk => nomatch hk)
      show Except.ok ((accepted raw magic noAuth (bootRead c₀.peb)).getD oldP) = _ ∨ _
      rw [hst₀.accepted hold noAuth]
      exact Or.inl rfl
    | some k =>
      have hiff := accepted_cut_iff noAuth k hs₀ hold hnew
      constructor
      · intro hok k' _ hk
        cases hk
        refine hiff.mp fun q hq => ?_
        rw [hq] at hok
        exact hok.imp Except.ok.inj Except.ok.inj
      · intro hall
        cases hacc : accepted raw magic noAuth (bootRead (cutWrite new (some k) c₀).peb) with
        | none => exact Or.inl rfl
        | some q =>
          rcases hiff.mpr (hall k rfl rfl) q hacc with rfl | rfl
          · exact Or.inl rfl
          · exact Or.inr rfl

end Cut

/-- Sixteen pages of eight bytes. -/
def pagedGeometry : Geometry := ⟨8, 128, smallGeometry.writesize_ge, by decide, by decide⟩

/-- A state with one counter, and its packed form. -/
def oneCounter (v : UInt32) : List Variable := [⟨cstr "counter", 0, .uint32 v 0⟩]
@[inherit_doc oneCounter]
def oneCounterImage (v : UInt32) : Bytes :=
  rawHeader 0x1234 4 (crc32 0 (leBytes 4 v.toNat)) ++ leBytes 4 v.toNat

theorem oneCounter_packs (v : UInt32) :
    Packs ⟨none⟩ 0x1234 (oneCounter v) (oneCounterImage v) (oneCounterImage v) :=
  ⟨rfl, ⟨none, rfl, rfl⟩, Nat.lt_of_lt_of_le (by decide : 20 < 2 ^ 16) (Nat.le_add_right _ _)⟩

/-- A block with the records of some states, the last one last. -/
def counterBlock (vs : List UInt32) : Circ pagedGeometry :=
  run (fun c x => Call.apply x c) (Circ.fresh (.erased 128))
    (.init :: vs.map fun v => .write (oneCounterImage v))

theorem storage_crash_consistent_second :
    (rebootRead ⟨none⟩ 0x1234 false (cutStorageWrite [counterBlock [2], counterBlock [1, 2]]
        (oneCounterImage 3) 0 (some 1))).ret = .ok (oneCounterImage 2) ∨
    (rebootRead ⟨none⟩ 0x1234 false (cutStorageWrite [counterBlock [2], counterBlock [1, 2]]
        (oneCounterImage 3) 0 (some 1))).ret = .ok (oneCounterImage 3) := by
  refine (storage_crash_consistent (oneCounter_packs 2) (oneCounter_packs 3) (counterBlock [2])
    (counterBlock [1, 2]) [] ?_ 0 (some 1)).mpr ?_
  · intro c hc
    rcases mem_pair.mp hc with rfl | rfl
    · exact ⟨_, _, by decide +kernel, by decide +kernel, rfl⟩
    · exact ⟨_, _, by decide +kernel, by decide +kernel, rfl⟩
  · -- the block starts with the old state itself
    intro k _ hk q hq
    cases hk
    have hstarts : accepted ⟨none⟩ 0x1234 false (readBack pagedGeometry
        ((counterBlock [2]).tornPages (oneCounterImage 3) 1) 40) = some (oneCounterImage 2) := by
      decide +kernel
    exact Or.inl (Option.some.inj (hq.starts.symm.trans hstarts))

/-- Two states in the block of the first bucket, and a cut after the first
page of the third: the boot loads the older of the two. -/
theorem storage_crash_consistent_older :
    ¬ ∀ (g : Geometry) (raw : RawFormat) (magic : UInt32) (noAuth : Bool)
      (oldVars newVars : List Variable) (old new oldP newP : Bytes),
      Packs raw magic oldVars old oldP → Packs raw magic newVars new newP →
      ∀ (c₀ c₁ : Circ g) (rest : List (Circ g)), (∀ c ∈ c₀ :: c₁ :: rest, LastStored old c) →
      ∀ (j : Nat) (cut : Option Nat),
        (rebootRead raw magic noAuth (cutStorageWrite (c₀ :: c₁ :: rest) new j cut)).ret = .ok oldP ∨
        (rebootRead raw magic noAuth (cutStorageWrite (c₀ :: c₁ :: rest) new j cut)).ret = .ok newP := by
  intro h
  have hret := h pagedGeometry ⟨none⟩ 0x1234 false (oneCounter 2) (oneCounter 3) _ _ _ _
    (oneCounter_packs 2) (oneCounter_packs 3) (counterBlock [1, 2]) (counterBlock [1, 2]) []
    (by
      intro c hc
      have hc : c = counterBlock [1, 2] := by simpa using hc
      rw [hc]
      exact ⟨_, _, by decide +kernel, by decide +kernel, rfl⟩) 0 (some 1)
  have hgot : (rebootRead ⟨none⟩ 0x1234 false
      (cutStorageWrite [counterBlock [1, 2], counterBlock [1, 2]] (oneCounterImage 3) 0
        (some 1))).ret = .ok (oneCounterImage 1) := by
    decide +kernel
  revert hret
  decide +kernel

end Barebox.State
