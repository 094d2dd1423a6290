import Barebox.State.CircularFlash

/-!
# Records of the circular bucket, on a working flash

With an mtd layer that does its job, a write leaves its record as the last
thing in the block: the record's bytes, then nothing but `0xff`
(`StoredAt`). Since the record ends in its own metadata, on a page
boundary, `init` finds exactly that end again and `read` cuts exactly that
record out — whatever the payload looks like, all-`0xff` pages and stray
magics included. That is `circular_persistence`.

Within one session the story is different. `write` moves `write_area` but
not `last_written_length`, so a `read` without a re-init in between uses
the length `init` has found. `circular_read_back` says when that is good
enough: the cached length is the length of the record just written, or it
is zero and the record just written is the only one in the block.
-/

namespace Barebox.State

open Lib List

variable {g : Geometry}
variable {c : Circ g}

/-! ## Clean calls -/

/-- A call into the bucket on a working flash. -/
inductive Call where
  | init
  | read
  | write (p : Bytes)
  deriving DecidableEq

def Call.op {size : Nat} : Call → CircOp size
  | .init => .init .clean
  | .read => .read .clean
  | .write p => .write p .clean .clean

def Call.apply (x : Call) (c : Circ g) : Circ g := CircOp.apply c x.op

/-- The payload of the most recent write, after one more call. -/
def Call.note (last : Option Bytes) : Call → Option Bytes
  | .write p => some p
  | _ => last

def lastWrite (calls : List Call) : Option Bytes := run Call.note none calls

/-- A bucket together with the payload last written to it. -/
structure Session (g : Geometry) where
  c : Circ g
  last : Option Bytes

def Session.step (s : Session g) (x : Call) : Session g := ⟨x.apply s.c, x.note s.last⟩

theorem Session.run_eq (calls : List Call) : ∀ (s : Session g), run Session.step s calls
      = ⟨run (fun c x => Call.apply x c) s.c calls, run Call.note s.last calls⟩ := by
  induction calls with
  | nil => intro s; rfl
  | cons x calls ih => intro s; exact ih (s.step x)

/-- The length of the record of a payload that fits. -/
def recordLength (g : Geometry) (p : Bytes) : Nat := roundup (p.length + metaSize) g.writesize

/-- The payload's record fits into the block. -/
def Fits (g : Geometry) (p : Bytes) : Prop := recordLength g p ≤ g.maxSize

instance (p : Bytes) : Decidable (Fits g p) := inferInstanceAs (Decidable (_ ≤ _))

theorem le_recordLength (g : Geometry) (p : Bytes) : p.length + metaSize ≤ recordLength g p :=
  le_roundup _ g.writesize_pos

variable {p : Bytes}

theorem writtenLength_of_fits (h : Fits g p) : writtenLength g p.length = recordLength g p := by
  have hmax := g.maxSize_lt
  unfold Fits recordLength at h
  exact Nat.mod_eq_of_lt (by omega)

theorem recordLength_pos (g : Geometry) (p : Bytes) : 0 < recordLength g p :=
  Nat.lt_of_lt_of_le (Nat.add_pos_right _ (by decide)) (le_recordLength g p)

theorem writesize_le_recordLength (g : Geometry) (p : Bytes) : g.writesize ≤ recordLength g p :=
  Nat.le_of_dvd (recordLength_pos g p) (dvd_roundup _ _)

/-- The record of `p`: payload, zero padding, magic, length. -/
def record (g : Geometry) (p : Bytes) : Bytes := writeBuf p (recordLength g p)

theorem record_length (g : Geometry) (p : Bytes) : (record g p).length = recordLength g p :=
  writeBuf_length (le_recordLength g p)

/-- The zero padding between a payload and its metadata. -/
def padding (g : Geometry) (p : Bytes) : Bytes :=
  replicate (recordLength g p - metaSize - p.length) 0

theorem record_eq :
    record g p = (p ++ padding g p) ++ (leBytes 4 circularMagic ++ leBytes 4 (recordLength g p)) := by
  unfold record writeBuf padding
  rw [append_assoc]

theorem padded_length (g : Geometry) (p : Bytes) :
    (p ++ padding g p).length = recordLength g p - metaSize := by
  have := le_recordLength g p
  unfold metaSize at this
  simp only [padding, metaSize, length_append, length_replicate]
  omega

theorem record_take :
    (record g p).take (recordLength g p - metaSize) = p ++ padding g p := by
  rw [record_eq, take_append_of_le_length (Nat.le_of_eq (padded_length ..).symm),
    take_of_length_le (Nat.le_of_eq (padded_length ..))]

/-! ## Programming erased bytes -/

theorem zipWith_ff : ∀ (new : Bytes),
    List.zipWith (· &&& ·) (replicate new.length (0xff : UInt8)) new = new
  | [] => rfl
  | x :: new => by
    have hx : (0xff : UInt8) &&& x = x := by
      rw [UInt8.and_comm]
      exact UInt8.and_neg_one
    rw [length_cons, replicate_succ, zipWith_cons_cons, hx, zipWith_ff new]

variable {off : Nat}

/-- Programming erased bytes stores exactly what is programmed. -/
theorem Eraseblock.program_erased {size : Nat} {e : Eraseblock size} {new : Bytes}
    (h : off + new.length ≤ size) (he : e.ErasedFrom off) :
    (e.program off new h).bytes = overwrite off new e.bytes := by
  have hb : off + new.length ≤ e.bytes.length := by rw [e.length_eq]; exact h
  have hmask : masked off new e.bytes = new := by
    unfold masked
    rw [slice_of_all hb he, zipWith_ff]
  show overwrite off (masked off new e.bytes) e.bytes = _
  rw [hmask]

/-! ## The last record of a block -/

/-- The block's last contents are the record of `p`, at offset `off`. -/
structure StoredAt (peb : Eraseblock g.maxSize) (p : Bytes) (off : Nat) : Prop where
  le : off + recordLength g p ≤ g.maxSize
  dvd : g.writesize ∣ off
  bytes : slice off (recordLength g p) peb.bytes = record g p
  behind : peb.ErasedFrom (off + recordLength g p)

/-- On a working flash, a write of a payload that fits gets as far as
programming its record. -/
theorem circularPrepare_clean (c : Circ g) (hp : Fits g p) :
    let start := c.writeStart (recordLength g p)
    circularPrepare c p .clean = .ok (⟨start, record g p, c.pebAt start⟩,
      { c with writeArea := start + recordLength g p, peb := c.pebAt start }) := by
  have hwl := writtenLength_of_fits hp
  have hle := le_recordLength g p
  have hbig : ¬ recordLength g p > g.maxSize := Nat.not_lt.mpr hp
  have hshort : ¬ recordLength g p < p.length + metaSize := Nat.not_lt.mpr hle
  unfold circularPrepare
  simp only [hwl, hbig, hshort, if_false]
  by_cases hzero : c.writeStart (recordLength g p) = 0
  · simp only [hzero, if_true, stateMtdPebErase, MtdErase.clean, Circ.pebAt]
    rfl
  · simp only [hzero, if_false, Circ.pebAt]
    rfl

/-- A write that succeeds is one whose record fits. -/
theorem fits_of_write_ok
    (h : (stateBackendBucketCircularWrite c p .clean .clean).1 = .ok) : Fits g p := by
  unfold stateBackendBucketCircularWrite at h
  rcases circularPrepare_cases c p .clean with ⟨e, hprep⟩ | ⟨e, hprep⟩ | ⟨hmax, hlen, -⟩
  · rw [hprep] at h
    cases h
  · rw [hprep] at h
    cases h
  · rw [writtenLength_eq hmax hlen] at hmax
    exact hmax

/-- A write that does not fit changes nothing. -/
theorem circularWrite_unfit (c : Circ g) (hp : ¬ Fits g p) (mp : MtdProgram g.maxSize) :
    (stateBackendBucketCircularWrite c p .clean mp).2 = c := by
  unfold stateBackendBucketCircularWrite circularPrepare
  by_cases hmax : writtenLength g p.length > g.maxSize
  · simp only [hmax, if_true]
  by_cases hlen : writtenLength g p.length < p.length + metaSize
  · simp only [hmax, hlen, if_false, if_true]
  refine absurd ?_ hp
  unfold Fits recordLength
  rw [← writtenLength_eq (Nat.le_of_not_lt hmax) (Nat.le_of_not_lt hlen)]
  exact Nat.le_of_not_lt hmax

/-- A record that is programmed where the next one goes is the last thing
in the block. -/
theorem storedAt_program (hinv : FlashInv c) (hp : Fits g p)
    (h : c.writeStart (recordLength g p) + (record g p).length ≤ g.maxSize) :
    StoredAt ((c.pebAt (c.writeStart (recordLength g p))).program _ (record g p) h) p
      (c.writeStart (recordLength g p)) := by
  have herased := hinv.pebAt_erasedFrom (recordLength g p)
  refine ⟨writeStart_add_le hp, hinv.writeStart_dvd _, ?_, ?_⟩
  · have hself : ∀ {off : Nat} {b : Bytes}, off ≤ b.length →
        slice off (recordLength g p) (overwrite off (record g p) b) = record g p := by
      intro off b hoff
      rw [← record_length g p]
      exact slice_overwrite_self hoff
    rw [Eraseblock.program_erased h herased]
    exact hself (by rw [Eraseblock.length_eq]; omega)
  · refine (herased.mono (Nat.le_add_right _ _)).program h ?_
    exact Nat.le_of_eq (congrArg _ (record_length ..))

theorem record_ne_nil (g : Geometry) (p : Bytes) : record g p ≠ [] := by
  intro hnil
  have hlen := record_length g p
  rw [hnil] at hlen
  exact absurd hlen (Nat.ne_of_lt (recordLength_pos g p))

/-- What a write does on a working flash: the record is the last thing in
the block afterwards, and `write_area` points behind it. -/
theorem circularWrite_clean (hinv : FlashInv c) (hp : Fits g p) :
    ∃ off peb, stateBackendBucketCircularWrite c p .clean .clean
        = (.ok, { c with writeArea := off + recordLength g p, peb := peb }) ∧
      StoredAt peb p off := by
  have hle : c.writeStart (recordLength g p) + (record g p).length ≤ g.maxSize := by
    rw [record_length]
    exact writeStart_add_le hp
  refine ⟨_, _, ?_, storedAt_program hinv hp hle⟩
  unfold stateBackendBucketCircularWrite
  rw [circularPrepare_clean c hp]
  simp only [stateMtdPebWrite, MtdProgram.clean]
  rw [dif_pos ⟨hle, record_ne_nil g p⟩]

/-! ## Finding it again -/

theorem stateMtdPebRead_clean (c : Circ g) {len : Nat} (hle : off + len ≤ g.maxSize) (hlen : 0 < len) :
    stateMtdPebRead c off len .clean = (.data false (slice off len c.peb.bytes), c) := by
  unfold stateMtdPebRead
  rw [if_neg (by omega)]
  rfl

section Stored

variable {peb : Eraseblock g.maxSize} {p : Bytes}

/-- The metadata of a stored record: the magic, then the length, directly
before the record's end. -/
theorem StoredAt.metadata (h : StoredAt peb p off) :
    slice (off + recordLength g p - 8) 4 peb.bytes = leBytes 4 circularMagic ∧
    slice (off + recordLength g p - 4) 4 peb.bytes = leBytes 4 (recordLength g p) := by
  have hle := le_recordLength g p
  unfold metaSize at hle
  have hpre : (p ++ padding g p).length = recordLength g p - 8 := padded_length g p
  have hrec : ∀ i, i + 4 ≤ recordLength g p →
      slice (off + i) 4 peb.bytes = slice i 4 (record g p) := by
    intro i hi
    rw [← h.bytes, slice_slice _ hi]
  constructor
  · rw [show off + recordLength g p - 8 = off + (recordLength g p - 8) by omega,
      hrec _ (by omega), record_eq, slice_append_right _ (by omega), hpre, Nat.sub_self,
      slice_append_left _ (by simp)]
    exact take_of_length_le (by simp)
  · rw [show off + recordLength g p - 4 = off + (recordLength g p - 4) by omega,
      hrec _ (by omega), record_eq, slice_append_right _ (by omega), hpre,
      show recordLength g p - 4 - (recordLength g p - 8) = 4 by omega,
      slice_append_right _ (by simp), leBytes_length]
    exact take_of_length_le (by simp)

/-- The backward scan of `init` stops exactly behind the record: its last
page holds the magic, which is not all `0xff`. -/
theorem StoredAt.scan (h : StoredAt peb p off) :
    scanBack g.writesize peb.bytes (g.maxSize / g.writesize) * g.writesize
      = off + recordLength g p := by
  have hpos := g.writesize_pos
  have hws := writesize_le_recordLength g p
  have h8 := g.writesize_ge
  obtain ⟨k, hk⟩ : g.writesize ∣ off + recordLength g p := Nat.dvd_add h.dvd (dvd_roundup _ _)
  rw [Nat.mul_comm] at hk
  have hkpos : 0 < k := by
    rcases Nat.eq_zero_or_pos k with h0 | hpos
    · rw [h0] at hk
      omega
    · exact hpos
  have hstart : (k - 1) * g.writesize = off + recordLength g p - g.writesize := by
    rw [Nat.sub_mul, ← hk, Nat.one_mul]
  rw [hk]
  congr 1
  refine scanBack_eq hkpos ⟨0x02, ?_, by decide⟩ ?_ _ ?_
  · -- the first byte of the magic, `ws - 8` bytes into the last page
    have hmem : (0x02 : UInt8) ∈ slice (g.writesize - 8) 4
        (slice ((k - 1) * g.writesize) g.writesize peb.bytes) := by
      rw [slice_slice _ (by omega), hstart,
        show off + recordLength g p - g.writesize + (g.writesize - 8)
          = off + recordLength g p - 8 by omega, h.metadata.1]
      decide
    exact mem_of_mem_drop (mem_of_mem_slice hmem)
  · rw [← hk]
    exact h.behind
  · rw [Nat.le_div_iff_mul_le hpos, ← hk]
    exact h.le

/-- `init` finds a stored record. -/
theorem StoredAt.init (c : Circ g) (h : StoredAt c.peb p off) : stateBackendBucketCircularInit c .clean
      = (.ok, { c with
          writeArea := off + recordLength g p
          lastWrittenLength := recordLength g p }) := by
  have hpos := recordLength_pos g p
  have hlt : recordLength g p < 256 ^ 4 := by
    have hle := h.le
    have hmax := g.maxSize_lt
    omega
  have hmagic : metaMagic c.peb.bytes (off + recordLength g p) = circularMagic := by
    unfold metaMagic
    rw [h.metadata.1, leNat_leBytes_of_lt (by decide)]
  have hlength : metaLength c.peb.bytes (off + recordLength g p) = recordLength g p := by
    unfold metaLength
    rw [h.metadata.2, leNat_leBytes_of_lt hlt]
  have hall : slice 0 g.maxSize c.peb.bytes = c.peb.bytes := by
    rw [slice_zero, take_of_length_le (Nat.le_of_eq c.peb.length_eq)]
  have hle := h.le
  unfold stateBackendBucketCircularInit
  rw [stateMtdPebRead_clean c (by omega) (by omega), hall]
  simp only [h.scan, hmagic, hlength]
  rw [if_neg (by omega), if_neg (by simp)]

/-- With the right length cached, `read` delivers the stored payload and
its padding. -/
theorem StoredAt.read (h : StoredAt c.peb p off)
    (hwa : c.writeArea = off + recordLength g p) (hlen : c.lastWrittenLength = recordLength g p) :
    stateBackendBucketCircularRead c .clean = (.data false (p ++ padding g p), c) := by
  have hpos := recordLength_pos g p
  have hle := h.le
  have hmod : recordLength g p % g.writesize = 0 := Nat.mod_eq_zero_of_dvd (dvd_roundup _ _)
  unfold stateBackendBucketCircularRead
  rw [if_neg (by omega), if_neg (by omega), if_neg (by rw [hlen]; omega), hwa, hlen,
    Nat.add_sub_cancel, stateMtdPebRead_clean c hle hpos]
  dsimp only
  rw [h.bytes, record_take]

/-- Without a cached length, `read` takes the block from its start; that is
good enough while the record is the only one (and the block has room for
more than metadata). -/
theorem StoredAt.read_oldFormat (h : StoredAt c.peb p 0)
    (hwa : c.writeArea = recordLength g p) (hlen : c.lastWrittenLength = 0)
    (hroom : metaSize < g.maxSize) :
    ∃ buf, (stateBackendBucketCircularRead c .clean).1 = .data false buf ∧ p <+: buf := by
  have hpos := recordLength_pos g p
  have hrec := le_recordLength g p
  have hle := h.le
  have hbytes : p <+: c.peb.bytes.take (recordLength g p) := by
    have hslice := h.bytes
    rw [slice_zero] at hslice
    rw [hslice, record_eq, append_assoc]
    exact prefix_append _ _
  unfold stateBackendBucketCircularRead
  rw [if_neg (by omega), if_pos hlen]
  rw [stateMtdPebRead_clean _ (by omega) (by omega)]
  refine ⟨_, rfl, ?_⟩
  rw [slice_zero]
  exact prefix_of_prefix_length_le (hbytes.trans (List.take_prefix _ _))
    (List.take_prefix _ _) (by rw [length_take, c.peb.length_eq]; omega)

end Stored

/-! ## Sessions -/

theorem clean_torturePasses {size : Nat} : (MtdRead.clean : MtdRead size).TorturePasses := by
  exact nofun

/-- What a clean read can change: `write_area` is dropped when there is no
cached length, or a length that does not fit. -/
theorem circularRead_state (c : Circ g) : (stateBackendBucketCircularRead c .clean).2 = c ∨
    ((stateBackendBucketCircularRead c .clean).2 = { c with writeArea := 0 } ∧
      (c.lastWrittenLength = 0 ∨ c.lastWrittenLength > c.writeArea ∨
        c.lastWrittenLength % g.writesize ≠ 0)) := by
  have hpure : ∀ (d : Circ g) (off len : Nat), (stateMtdPebRead d off len .clean).2 = d := by
    intro d off len
    unfold stateMtdPebRead
    split <;> rfl
  unfold stateBackendBucketCircularRead
  split
  · exact Or.inl rfl
  split
  · next h0 => exact Or.inr ⟨hpure _ _ _, Or.inl h0⟩
  split
  · next hbad => exact Or.inr ⟨rfl, Or.inr hbad⟩
  have hread := hpure c (c.writeArea - c.lastWrittenLength) c.lastWrittenLength
  refine Or.inl ?_
  split
  · next heq => rw [heq] at hread; exact hread
  · next heq => rw [heq] at hread; exact hread

/-- The payload last written is the last record of the block, and
`write_area` points behind it — unless a read with an unusable length has
dropped it. -/
structure SessionInv (s : Session g) : Prop where
  flash : FlashInv s.c
  stored : ∀ p, s.last = some p → ∃ off, StoredAt s.c.peb p off ∧
    (s.c.writeArea = off + recordLength g p ∨
      (s.c.writeArea = 0 ∧ s.c.lastWrittenLength ≠ recordLength g p))

theorem fresh_sessionInv (peb : Eraseblock g.maxSize) : SessionInv ⟨Circ.fresh peb, none⟩ :=
  ⟨fresh_flashInv peb, nofun⟩

variable {s : Session g}

/-- Looking for the last record again finds the same one, … -/
theorem SessionInv.init (h : SessionInv s) : SessionInv (s.step .init) := by
  refine ⟨circularInit_flashInv clean_torturePasses h.flash, ?_⟩
  intro p hp
  obtain ⟨off, hst, -⟩ := h.stored p hp
  have hc : (s.step .init).c = (stateBackendBucketCircularInit s.c .clean).2 := rfl
  rw [hc, hst.init]
  exact ⟨off, hst, Or.inl rfl⟩

/-- … reading it changes nothing but possibly the place of the next write, … -/
theorem SessionInv.read (h : SessionInv s) : SessionInv (s.step .read) := by
  refine ⟨circularRead_flashInv clean_torturePasses h.flash, ?_⟩
  intro p hp
  obtain ⟨off, hst, hwa⟩ := h.stored p hp
  have hc : (s.step .read).c = (stateBackendBucketCircularRead s.c .clean).2 := rfl
  rw [hc]
  rcases circularRead_state s.c with hsame | ⟨hdrop, hbad⟩
  · rw [hsame]
    exact ⟨off, hst, hwa⟩
  rw [hdrop]
  refine ⟨off, hst, Or.inr ⟨rfl, ?_⟩⟩
  rcases hwa with hwa | ⟨-, hne⟩
  · -- the record's own length would have been usable
    have hpos := recordLength_pos g p
    have hmod : recordLength g p % g.writesize = 0 := Nat.mod_eq_zero_of_dvd (dvd_roundup _ _)
    intro heq
    rw [heq] at hbad
    omega
  · exact hne

/-- … and a write that fits becomes the last record. -/
theorem SessionInv.write (h : SessionInv s) (hp : Fits g p) : SessionInv (s.step (.write p)) := by
  obtain ⟨off, peb, hw, hst⟩ := circularWrite_clean h.flash hp
  have hc : (s.step (.write p)).c = (stateBackendBucketCircularWrite s.c p .clean .clean).2 := rfl
  refine ⟨circularWrite_flashInv (nofun) h.flash, ?_⟩
  intro q hq
  cases hq
  rw [hc, hw]
  exact ⟨off, hst, Or.inl rfl⟩

/-- The calls of a session on a working flash: writes have to fit. -/
def Call.Fits (g : Geometry) : Call → Prop
  | .write p => State.Fits g p
  | _ => True

instance : DecidablePred (Call.Fits g)
  | .init => inferInstanceAs (Decidable True)
  | .read => inferInstanceAs (Decidable True)
  | .write p => inferInstanceAs (Decidable (State.Fits g p))

theorem Session.step_inv (s : Session g) (x : Call) (h : SessionInv s) (hx : x.Fits g) :
    SessionInv (s.step x) := by
  cases x with
  | init => exact h.init
  | read => exact h.read
  | write p => exact h.write hx

/-- **Persistence.** Whatever the block held at first, after any session of
writes that fit — with re-inits and reads anywhere — `init` and `read`
deliver exactly the payload last written, zero-padded to its record. -/
theorem circular_persistence (peb : Eraseblock g.maxSize) (calls : List Call) (p : Bytes)
    (hfit : ∀ x ∈ calls, x.Fits g) (hlast : lastWrite calls = some p) :
    let reinit := stateBackendBucketCircularInit
      (run (fun c x => Call.apply x c) (Circ.fresh peb) calls) .clean
    reinit.1 = .ok ∧
    (stateBackendBucketCircularRead reinit.2 .clean).1 = .data false (p ++ padding g p) := by
  have hinv := run_inv Session.step_inv calls
    (Along.of_forall calls ⟨Circ.fresh peb, none⟩ hfit) (fresh_sessionInv peb)
  rw [Session.run_eq] at hinv
  obtain ⟨off, hst, -⟩ := hinv.stored p hlast
  intro reinit
  have hre : reinit = _ := hst.init
  refine ⟨by rw [hre], ?_⟩
  rw [hre]
  have hread := StoredAt.read (c := { run (fun c x => Call.apply x c) (Circ.fresh peb) calls with
    writeArea := off + recordLength g p, lastWrittenLength := recordLength g p }) hst rfl rfl
  rw [hread]

/-- An all-`0xff` page and the magic inside the payloads, a wrap-around,
and a reboot in between. -/
theorem circular_persistence_wrap :
    let reinit := stateBackendBucketCircularInit (g := smallGeometry)
      (run (fun c x => Call.apply x c) (Circ.fresh (.erased 64))
        [.init, .write (replicate 20 0xff), .write (leBytes 4 circularMagic), .init,
          .write (replicate 9 0xff)]) .clean
    (stateBackendBucketCircularRead reinit.2 .clean).1
      = .data false (replicate 9 0xff ++ padding smallGeometry (replicate 9 0xff)) :=
  (circular_persistence _ _ _ (by decide) rfl).2

/-! ## Reading back within a session -/

/-- A read after a write delivers a buffer that starts with the payload
last written. -/
def ReadsBack (s : Session g) : Call → Prop
  | .read => ∀ p, s.last = some p →
    ∃ buf, (stateBackendBucketCircularRead s.c .clean).1 = .data false buf ∧ p <+: buf
  | _ => True

/-- The call is not a write that fails. -/
def WriteSucceeds (s : Session g) : Call → Prop
  | .write p => (stateBackendBucketCircularWrite s.c p .clean .clean).1 = .ok
  | _ => True

/-- At a read after a write of `p`, the length cached by the last `init` is
that of the record of `p`; or there is none, and `write_area` says that
the record is the only one. -/
def CachedLengthFits (s : Session g) : Call → Prop
  | .read => ∀ p, s.last = some p →
    s.c.lastWrittenLength = recordLength g p ∨
    (s.c.lastWrittenLength = 0 ∧ s.c.writeArea = recordLength g p ∧ metaSize < g.maxSize)
  | _ => True

instance (s : Session g) : DecidablePred (WriteSucceeds s)
  | .init => inferInstanceAs (Decidable True)
  | .read => inferInstanceAs (Decidable True)
  | .write _ => inferInstanceAs (Decidable (_ = _))

instance (s : Session g) : DecidablePred (CachedLengthFits s)
  | .init => inferInstanceAs (Decidable True)
  | .write _ => inferInstanceAs (Decidable True)
  | .read => inferInstanceAs (Decidable (∀ p ∈ s.last, _))

/-- Reading gives the last record, padded, if the length that was kept is still right for it. -/
theorem SessionInv.reads_back (h : SessionInv s) {x : Call}
    (hx : CachedLengthFits s x) : ReadsBack s x := by
  cases x with
  | init => exact trivial
  | write p => exact trivial
  | read =>
    intro p hp
    obtain ⟨off, hst, hwa⟩ := h.stored p hp
    have hpos := recordLength_pos g p
    rcases hx p hp with hlen | ⟨hlen, hend, hroom⟩
    · -- the cached length is the right one, so `write_area` has not been dropped
      rcases hwa with hwa | ⟨-, hne⟩
      · rw [hst.read hwa hlen]
        exact ⟨_, rfl, prefix_append _ _⟩
      · exact absurd hlen hne
    · rcases hwa with hwa | ⟨h0, -⟩
      · obtain rfl : off = 0 := by omega
        exact hst.read_oldFormat hend hlen hroom
      · omega

theorem Session.step_inv_of_ok (s : Session g) (x : Call) (h : SessionInv s)
    (hx : WriteSucceeds s x) : SessionInv (s.step x) := by
  refine Session.step_inv s x h ?_
  cases x with
  | init => exact trivial
  | read => exact trivial
  | write p => exact fits_of_write_ok hx

/-- The session that starts when `init` has looked at the block. -/
def Session.start (peb : Eraseblock g.maxSize) : Session g :=
  ⟨(stateBackendBucketCircularInit (Circ.fresh peb) .clean).2, none⟩

/-- **Read after write.** From any contents of the block, along every
session of successful writes in which each read finds a fitting length
cached, each read delivers the payload last written. -/
theorem circular_read_back (peb : Eraseblock g.maxSize) (calls : List Call)
    (hok : Along Session.step (fun s x => WriteSucceeds s x ∧ CachedLengthFits s x)
      (Session.start peb) calls) : Along Session.step ReadsBack (Session.start peb) calls := by
  refine Along.of_inv ?_ ?_ calls hok (fresh_sessionInv peb).init
  · intro s x hinv hx
    exact s.step_inv_of_ok x hinv hx.1
  · intro s x hinv hx
    exact hinv.reads_back hx.2

/-- The only record of an erased block is read back once; after a re-init,
records of one length are read back as often as asked for. -/
theorem circular_read_back_same_length :
    Along Session.step ReadsBack (Session.start (g := smallGeometry) (.erased 64))
      [.write [1, 2], .read, .init, .write [3], .read, .read, .write [4], .read] :=
  circular_read_back _ _ (by decide)

/-- Two writes into an erased block, then a read: what comes back is the
first of the two. -/
theorem circular_read_back_stale :
    ¬ ∀ (g : Geometry) (peb : Eraseblock g.maxSize) (calls : List Call), Call.init ∉ calls →
      Along Session.step WriteSucceeds (Session.start peb) calls →
        Along Session.step ReadsBack (Session.start peb) calls := by
  intro h
  have hrun := h smallGeometry (.erased 64) [.write [1], .write [2], .read] (by decide) (by decide)
  obtain ⟨-, -, hread, -⟩ := hrun
  obtain ⟨buf, hbuf, hpre⟩ := hread [2] rfl
  have hgot : (stateBackendBucketCircularRead (((Session.start (g := smallGeometry)
      (.erased 64)).step (.write [1])).step (.write [2])).c .clean).1
      = .data false ([1] ++ replicate 7 0 ++ leBytes 4 circularMagic ++ leBytes 4 16
          ++ [2] ++ replicate 7 0 ++ leBytes 4 circularMagic ++ leBytes 4 16) := by
    decide
  rw [hgot] at hbuf
  cases hbuf
  revert hpre
  decide

end Barebox.State
