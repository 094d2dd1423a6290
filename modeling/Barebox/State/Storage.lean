import Barebox.Base
import Barebox.Lib.Bytes

/-!
# Redundant storage — `common/state/backend_storage.c`

A state is stored several times, in buckets. Loading takes the first
bucket that reads and verifies, and then makes the others equal to it;
storing writes all of them.

The storage code knows buckets and formats through function pointers only,
and so does the model: a `Driver` acts on the world the buckets live in, a
`Format` judges buffers. Verifying may also leave something behind in the
format object (`keep`); the raw format has nothing to keep, the dtb format
does.

`stateStorageRead` is the two passes of the source. `scan` reads and
verifies every bucket; `refreshOthers` and a last `bucketRefresh` compare
and rewrite. What the comparison sees of a bucket is its buffer up to the
length that *verify has left there*.

Mirroring notes:
- a bucket keeps `buf` and `len` from one call to the next when no bucket
  was valid, and a read that fails leaves them alone.
- a failed write is reported and otherwise ignored; the results of all
  writes are part of the outcome here.
-/

namespace Barebox.State

open Lib

/-- What a bucket's `read` hands out: a buffer (`unclean` when the medium
asks for a rewrite, `-EUCLEAN`), or an error. -/
inductive BucketRead where
  | data (unclean : Bool) (buf : Bytes)
  | fail (e : Errno)
  deriving DecidableEq

/-- The `read` and `write` of the buckets, by position in the list. -/
structure Driver (ω : Type) where
  read : ω → Nat → BucketRead × ω
  write : ω → Nat → Bytes → Ret × ω

/-- The `verify` of a format, for one magic and one set of flags: the
result, and `*lenp` afterwards. -/
structure Format (φ : Type) where
  verify : Bytes → Ret × Nat
  keep : φ → Bytes → φ
  verify_le : ∀ buf, (verify buf).2 ≤ buf.length

/-- `struct state_backend_storage_bucket`, as far as the storage code
itself uses it. -/
structure Bucket where
  buf : Bytes
  len : Nat
  needsRefresh : Bool
  deriving DecidableEq

variable {ω φ : Type}

/-! ## Writing -/

/-- The loop of `state_storage_write`: how many buckets were written. -/
def writeAll (drv : Driver ω) (buf : Bytes) : Nat → Nat → ω → Nat × ω
  | _, 0, w => (0, w)
  | i, n + 1, w =>
    match drv.write w i buf with
    | (.ok, w) => let (k, w) := writeAll drv buf (i + 1) n w; (k + 1, w)
    | (.err _, w) => writeAll drv buf (i + 1) n w

/-! ## Reading -/

/-- The first pass at one bucket: the bucket afterwards, and whether it is
valid. -/
def scanOne (drv : Driver ω) (fmt : Format φ) (i : Nat) (b : Bucket) (w : ω) (f : φ) :
    (Bucket × Bool) × ω × φ :=
  let verified (b : Bucket) (w : ω) : (Bucket × Bool) × ω × φ :=
    let (r, len) := fmt.verify (b.buf.take b.len)
    (({ b with len := len }, r = .ok), w, fmt.keep f (b.buf.take b.len))
  match drv.read w i with
  | (.data unclean buf, w) =>
    verified ⟨buf, buf.length, b.needsRefresh || unclean⟩ w
  | (.fail .EUCLEAN, w) => verified { b with needsRefresh := true } w
  | (.fail _, w) => ((b, false), w, f)

def scan (drv : Driver ω) (fmt : Format φ) : Nat → List Bucket → ω → φ → List (Bucket × Bool) × ω × φ
  | _, [], w, f => ([], w, f)
  | i, b :: bs, w, f =>
    let (s, w, f) := scanOne drv fmt i b w f
    let (rest, w, f) := scan drv fmt (i + 1) bs w f
    (s :: rest, w, f)

/-- "The first valid one we find is the one we want to use." -/
def firstValid : List (Bucket × Bool) → Option (Nat × Bucket)
  | [] => none
  | (b, true) :: _ => some (0, b)
  | (_, false) :: bs => (firstValid bs).map fun (i, b) => (i + 1, b)

/-- Whether `bucket_refresh` jumps to its `refresh` label. -/
def needsWrite (b : Bucket) (payload : Bytes) : Bool :=
  b.needsRefresh || b.len ≠ payload.length || b.buf.take payload.length ≠ payload

/-- `bucket_refresh`, with the results of the writes it makes. -/
def bucketRefresh (drv : Driver ω) (payload : Bytes) (i : Nat) (b : Bucket) (w : ω) :
    Bucket × ω × List Ret :=
  if needsWrite b payload then
    match drv.write w i payload with
    | (.ok, w) => ({ b with needsRefresh := false }, w, [.ok])
    | (.err e, w) => (b, w, [.err e])
  else (b, w, [])

/-- The second pass, over all buckets but the one in use. -/
def refreshOthers (drv : Driver ω) (payload : Bytes) (used : Nat) : Nat → List Bucket → ω →
    List Bucket × ω × List Ret
  | _, [], w => ([], w, [])
  | i, b :: bs, w =>
    if i = used then
      let (bs, w, rs) := refreshOthers drv payload used (i + 1) bs w
      (b :: bs, w, rs)
    else
      let (b, w, r) := bucketRefresh drv payload i b w
      let (bs, w, rs) := refreshOthers drv payload used (i + 1) bs w
      ({ b with buf := [], len := 0 } :: bs, w, r ++ rs)

/-- What a call of `state_storage_read` leaves; `mem` is the whole buffer
that what is returned lies in. -/
structure Outcome (ω φ : Type) where
  ret : Except Errno Bytes
  mem : Bytes
  world : ω
  format : φ
  buckets : List Bucket
  writes : List Ret

/-- `state_storage_read`. -/
def stateStorageRead (drv : Driver ω) (fmt : Format φ) (bs : List Bucket) (w : ω) (f : φ) :
    Outcome ω φ :=
  let (scanned, w, f) := scan drv fmt 0 bs w f
  let bs := scanned.map Prod.fst
  match firstValid scanned with
  | none => ⟨.error .ENOENT, [], w, f, bs, []⟩
  | some (u, b) =>
    let mem := b.buf
    let payload := mem.take b.len
    let (bs, w, rs) := refreshOthers drv payload u 0 bs w
    let (b, w, r) := bucketRefresh drv payload u b w
    ⟨.ok payload, mem, w, f, bs.set u { b with buf := [], len := 0 }, rs ++ r⟩

section

variable (drv : Driver ω) (fmt : Format φ) (bs : List Bucket) (w : ω) (f : φ)

/-- What is returned depends on the first pass only. -/
theorem stateStorageRead_ret : (stateStorageRead drv fmt bs w f).ret
      = match firstValid (scan drv fmt 0 bs w f).1 with
        | none => .error .ENOENT
        | some (_, b) => .ok (b.buf.take b.len) := by
  unfold stateStorageRead
  dsimp only
  split <;> rfl

theorem stateStorageRead_mem : (stateStorageRead drv fmt bs w f).mem
      = match firstValid (scan drv fmt 0 bs w f).1 with
        | none => []
        | some (_, b) => b.buf := by
  unfold stateStorageRead
  dsimp only
  split <;> rfl

/-- And so does what the format keeps. -/
theorem stateStorageRead_format : (stateStorageRead drv fmt bs w f).format = (scan drv fmt 0 bs w f).2.2 := by
  unfold stateStorageRead
  dsimp only
  split <;> rfl

end

/-! ## What verify gets to see -/

/-- The buffer of a bucket that verify is called for, if it is. -/
def seenOne (drv : Driver ω) (i : Nat) (b : Bucket) (w : ω) : Option Bytes × ω :=
  match drv.read w i with
  | (.data _ buf, w) => (some buf, w)
  | (.fail .EUCLEAN, w) => (some (b.buf.take b.len), w)
  | (.fail _, w) => (none, w)

/-- These buffers, bucket by bucket. -/
def seenAll (drv : Driver ω) : Nat → List Bucket → ω → List (Option Bytes)
  | _, [], _ => []
  | i, b :: bs, w =>
    let (o, w) := seenOne drv i b w
    o :: seenAll drv (i + 1) bs w

/-- What verify leaves of a buffer it accepts. -/
def Format.accepts (fmt : Format φ) (buf : Bytes) : Option Bytes :=
  if (fmt.verify buf).1 = .ok then some (buf.take (fmt.verify buf).2) else none

/-- The format object after verify has or has not been called. -/
def Format.see (fmt : Format φ) (f : φ) : Option Bytes → φ
  | none => f
  | some buf => fmt.keep f buf

section

variable (drv : Driver ω) (fmt : Format φ)

/-- One step of the first pass, in terms of the buffer seen. -/
theorem scanOne_seen (i : Nat) (b : Bucket) (w : ω) (f : φ) : ∃ b', scanOne drv fmt i b w f
        = ((b', ((seenOne drv i b w).1.bind fmt.accepts).isSome), (seenOne drv i b w).2,
          fmt.see f (seenOne drv i b w).1) ∧
      ∀ buf, (seenOne drv i b w).1 = some buf → b'.len = (fmt.verify buf).2 ∧ buf <+: b'.buf ∧
        (b.buf.length ≤ b.len → buf = b'.buf) := by
  have hdec : ∀ buf, decide ((fmt.verify buf).1 = .ok) = (fmt.accepts buf).isSome := by
    intro buf
    unfold Format.accepts
    split
    next hok => rw [decide_eq_true hok, Option.isSome_some]
    next hok => rw [decide_eq_false hok, Option.isSome_none]
  unfold scanOne seenOne
  cases hread : drv.read w i with
  | mk r w' =>
    cases r with
    | data unclean buf =>
      simp only [List.take_length, Option.bind_some, hdec]
      refine ⟨_, rfl, ?_⟩
      intro buf' hbuf
      cases hbuf
      exact ⟨rfl, List.prefix_refl _, fun _ => rfl⟩
    | fail e =>
      by_cases he : e = .EUCLEAN
      · subst he
        simp only [Option.bind_some, hdec]
        refine ⟨_, rfl, ?_⟩
        intro buf' hbuf
        cases hbuf
        exact ⟨rfl, List.take_prefix _ _, List.take_of_length_le⟩
      · cases e with
        | EUCLEAN => exact absurd rfl he
        | _ => exact ⟨_, rfl, nofun⟩

/-- After the first pass, the format object has seen every buffer. -/
theorem scan_format (bs : List Bucket) : ∀ (i : Nat) (w : ω) (f : φ),
      (scan drv fmt i bs w f).2.2 = (seenAll drv i bs w).foldl fmt.see f := by
  induction bs with
  | nil => intro i w f; rfl
  | cons b bs ih =>
    intro i w f
    obtain ⟨b', hone, -⟩ := scanOne_seen drv fmt i b w f
    rw [scan, hone]
    exact ih (i + 1) (seenOne drv i b w).2 (fmt.see f (seenOne drv i b w).1)

/-- The bucket in use: verify accepts what was read from it, and none of
the buffers before. The buffer that was read is all of its memory, unless
an earlier call has left something behind. -/
theorem scan_selected (bs : List Bucket) : ∀ (i : Nat) (w : ω) (f : φ) {u : Nat} {b : Bucket},
      firstValid (scan drv fmt i bs w f).1 = some (u, b) →
        ∃ pre buf post, seenAll drv i bs w = pre ++ some buf :: post ∧
          (∀ o ∈ pre, o.bind fmt.accepts = none) ∧ fmt.verify buf = (.ok, b.len) ∧
          buf <+: b.buf ∧ ((∀ c ∈ bs, c.buf.length ≤ c.len) → buf = b.buf) := by
  induction bs with
  | nil => intro i w f u b h; cases h
  | cons c bs ih =>
    intro i w f u b h
    obtain ⟨c', hone, hmem⟩ := scanOne_seen drv fmt i c w f
    rw [scan, hone] at h
    rw [seenAll]
    dsimp only at h ⊢
    cases hacc : (seenOne drv i c w).1.bind fmt.accepts with
    | some q =>
      rw [hacc] at h
      cases h
      -- this bucket is the first that is accepted
      obtain ⟨buf, hseen, hbuf⟩ := Option.bind_eq_some_iff.mp hacc
      obtain ⟨hlen, hpre, hall⟩ := hmem buf hseen
      have hok : (fmt.verify buf).1 = .ok := by
        unfold Format.accepts at hbuf
        split at hbuf
        · next hok => exact hok
        · cases hbuf
      refine ⟨[], buf, _, by rw [hseen]; rfl, (nofun), ?_, hpre, ?_⟩
      · rw [hlen, ← hok]
      · intro hfull
        exact hall (hfull c (List.mem_cons_self ..))
    | none =>
      rw [hacc] at h
      obtain ⟨⟨u', b'⟩, hfirst, heq⟩ := Option.map_eq_some_iff.mp h
      cases heq
      obtain ⟨pre, buf, post, hsplit, hnone, hverify, hpre, hall⟩ :=
        ih (i + 1) (seenOne drv i c w).2 (fmt.see f (seenOne drv i c w).1) hfirst
      refine ⟨(seenOne drv i c w).1 :: pre, buf, post, by rw [hsplit]; rfl,
        List.forall_mem_cons.mpr ⟨hacc, hnone⟩, hverify, hpre, ?_⟩
      exact fun hfull => hall fun d hd => hfull d (List.mem_cons_of_mem _ hd)

end

end Barebox.State
