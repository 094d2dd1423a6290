import Barebox.State.Storage

/-!
# The circular bucket — `common/state/backend_bucket_circular.c`

A circular bucket keeps its records in one flash eraseblock and appends
until the block is full, so that erasing stays rare. Each record is the
payload, zero padding, and eight bytes of metadata (`circular_magic` and
the record's total length) directly before a `writesize` boundary. `init`
finds the end of the written area by scanning pages backwards; `read`
fetches the record in front of it; `write` appends, erasing first when the
record would reach the end of the block.

The flash below is modelled by what it can do, not by what the driver
hopes: programming only clears bits, a failed program leaves some prefix
behind, a failed erase leaves anything, and every mtd call is given its
outcome as an argument. A theorem about all outcomes is a theorem about
all flashes.

Mirroring notes:
- `mtd_peb_read`/`mtd_peb_write` refuse empty and out-of-range transfers
  with `-EINVAL`; the two wrappers here start with those checks.
- the host stores `uint32_t` little endian.
- `written_length` is an `uint32_t`, hence the reduction modulo `2 ^ 32`.
  Where the reduction loses bits, `memcpy` runs past the buffer: `EFAULT`.
-/

namespace Barebox.State

open Lib

/-! ## The eraseblock -/

/-- Geometry of a bucket: pages of `writesize` bytes, `max_size` bytes in
the eraseblock. `state_backend_bucket_circular_create` raises `writesize`
to at least 8, and every length and offset is passed on as an `int`. -/
structure Geometry where
  writesize : Nat
  maxSize : Nat
  writesize_ge : 8 ≤ writesize
  writesize_dvd : writesize ∣ maxSize
  maxSize_lt : maxSize < 2 ^ 31

/-- Eight pages of eight bytes, for the concrete runs further down. -/
def smallGeometry : Geometry := ⟨8, 64, by decide, by decide, by decide⟩

/-- The contents of one eraseblock. -/
@[ext]
structure Eraseblock (size : Nat) where
  bytes : Bytes
  length_eq : bytes.length = size

namespace Eraseblock

variable {size : Nat}

/-- What an erase leaves: every bit set. -/
def erased (size : Nat) : Eraseblock size := ⟨List.replicate size 0xff, List.length_replicate⟩

/-- Programming clears bits: the new contents are the bitwise and. -/
def masked (off : Nat) (new : Bytes) (b : Bytes) : Bytes :=
  List.zipWith (· &&& ·) (slice off new.length b) new

theorem masked_length {off : Nat} {new b : Bytes} (h : off + new.length ≤ b.length) :
    (masked off new b).length = new.length := by
  unfold masked
  rw [List.length_zipWith, slice_length h, Nat.min_self]

/-- The block after programming `new` at `off`. -/
def program (e : Eraseblock size) (off : Nat) (new : Bytes) (h : off + new.length ≤ size) :
    Eraseblock size :=
  ⟨overwrite off (masked off new e.bytes) e.bytes, by
    have hb : off + new.length ≤ e.bytes.length := by rw [e.length_eq]; exact h
    rw [overwrite_length (by rw [masked_length hb]; exact hb), e.length_eq]⟩

/-- Every byte from `w` on is erased. -/
def ErasedFrom (e : Eraseblock size) (w : Nat) : Prop := ∀ x ∈ e.bytes.drop w, x = 0xff

end Eraseblock

/-! ## The mtd layer -/

/-- Outcome of `mtd_peb_torture`: passed, with the block freshly erased, or
failed with the block in any state. -/
inductive Torture (size : Nat) where
  | passed
  | failed (e : Errno) (left : Eraseblock size)

/-- Outcome of `mtd_peb_read`; `torture` is consulted after `-EBADMSG`. -/
structure MtdRead (size : Nat) where
  ret : Ret
  torture : Torture size

/-- Outcome of `mtd_peb_erase`; `left` is the block after a failed erase. -/
structure MtdErase (size : Nat) where
  ret : Ret
  left : Eraseblock size

/-- Outcome of `mtd_peb_write`; a failed program has put (a prefix of)
`part` where the data should go. -/
structure MtdProgram (size : Nat) where
  ret : Ret
  part : Bytes
  torture : Torture size

/-- The outcomes of an mtd layer that does its job. -/
def MtdRead.clean {size : Nat} : MtdRead size := ⟨.ok, .passed⟩
@[inherit_doc MtdRead.clean]
def MtdErase.clean {size : Nat} : MtdErase size := ⟨.ok, .erased size⟩
@[inherit_doc MtdRead.clean]
def MtdProgram.clean {size : Nat} : MtdProgram size := ⟨.ok, [], .passed⟩

/-! ## The bucket -/

/-- `struct state_backend_storage_bucket_circular` together with the
eraseblock it owns. -/
structure Circ (g : Geometry) where
  peb : Eraseblock g.maxSize
  writeArea : Nat
  lastWrittenLength : Nat
  wrongMagic : Bool

variable {g : Geometry}

/-- The bucket as `xzalloc` leaves it, before the first `init`. -/
def Circ.fresh (peb : Eraseblock g.maxSize) : Circ g := ⟨peb, 0, 0, false⟩

def circularMagic : Nat := 0x14fa2d02

/-- `sizeof(struct state_backend_storage_bucket_circular_meta)`. -/
def metaSize : Nat := 8

def stateMtdPebRead (c : Circ g) (off len : Nat) (m : MtdRead g.maxSize) : BucketRead × Circ g :=
  if g.maxSize < off + len ∨ len = 0 then (.fail .EINVAL, c)
  else
    match m.ret with
    | .ok => (.data false (slice off len c.peb.bytes), c)
    | .err .EUCLEAN => (.data true (slice off len c.peb.bytes), c)
    | .err .EBADMSG =>
      match m.torture with
      | .passed =>
        -- "Fill with invalid data so that the next write is done behind this area"
        (.data true (List.replicate len 0), { c with peb := .erased _, writeArea := 0 })
      | .failed e left => (.fail e, { c with peb := left })
    | .err e => (.fail e, c)

def stateMtdPebWrite (c : Circ g) (buf : Bytes) (off : Nat) (m : MtdProgram g.maxSize) : Ret × Circ g :=
  if h : off + buf.length ≤ g.maxSize ∧ buf ≠ [] then
    match m.ret with
    | .ok => (.ok, { c with peb := c.peb.program off buf h.1 })
    | .err .EUCLEAN => (.err .EUCLEAN, { c with peb := c.peb.program off buf h.1 })
    | .err .EBADMSG =>
      match m.torture with
      | .passed => (.err .EUCLEAN, { c with peb := .erased _ })
      | .failed e left => (.err e, { c with peb := left })
    | .err e =>
      (.err e, { c with
        peb := c.peb.program off (m.part.take buf.length)
          (by have := h.1; rw [List.length_take]; omega) })
  else (.err .EINVAL, c)

def stateMtdPebErase (c : Circ g) (m : MtdErase g.maxSize) : Ret × Circ g :=
  match m.ret with
  | .ok => (.ok, { c with peb := .erased _ })
  | .err e => (.err e, { c with peb := m.left })

/-! ## Reading -/

/-- `state_backend_bucket_circular_read`. Without a recorded length the
block is taken for the old on-storage format: the data starts at offset 0,
carries no metadata, and the next write starts over. -/
def stateBackendBucketCircularRead (c : Circ g) (m : MtdRead g.maxSize) : BucketRead × Circ g :=
  if c.writeArea = 0 then (.fail .ENODATA, c)
  else if c.lastWrittenLength = 0 then
    stateMtdPebRead { c with writeArea := 0 } 0 (min c.writeArea (g.maxSize - metaSize)) m
  else if c.lastWrittenLength > c.writeArea ∨ c.lastWrittenLength % g.writesize ≠ 0 then
    (.fail .EINVAL, { c with writeArea := 0 })
  else
    match stateMtdPebRead c (c.writeArea - c.lastWrittenLength) c.lastWrittenLength m with
    | (.data unclean buf, c') => (.data unclean (buf.take (c.lastWrittenLength - metaSize)), c')
    | (.fail e, c') => (.fail e, c')

/-! ## Writing -/

/-- The length a payload of `len` bytes occupies in the block. -/
def writtenLength (g : Geometry) (len : Nat) : Nat :=
  roundup (len + metaSize) g.writesize % 2 ^ 32

/-- The buffer that is programmed: payload, zero padding, metadata. -/
def writeBuf (buf : Bytes) (written : Nat) : Bytes :=
  buf ++ List.replicate (written - metaSize - buf.length) 0
    ++ leBytes 4 circularMagic ++ leBytes 4 written

/-- A program operation: `buf` to offset `offset` of a block that holds
`onto` at that moment. -/
structure ProgramOp (size : Nat) where
  offset : Nat
  buf : Bytes
  onto : Eraseblock size

/-- Where a record goes: to `write_area`, or to the start of the block when
it would reach the end. -/
def Circ.writeStart (c : Circ g) (written : Nat) : Nat :=
  if c.writeArea + written ≥ g.maxSize then 0 else c.writeArea

/-- `state_backend_bucket_circular_write` up to the call of
`state_mtd_peb_write`: either an early return, or the program operation
about to be issued. `write_area` has moved past the record by then — "the
write operation may put arbitrary amount of the data into the storage
before failing". -/
def circularPrepare (c : Circ g) (buf : Bytes) (me : MtdErase g.maxSize) :
    Except (Errno × Circ g) (ProgramOp g.maxSize × Circ g) :=
  let written := writtenLength g buf.length
  if written > g.maxSize then .error (.E2BIG, c)
  else if written < buf.length + metaSize then .error (.EFAULT, c)
  else
    let c := { c with writeArea := c.writeStart written }
    let issue (c : Circ g) : ProgramOp g.maxSize × Circ g :=
      (⟨c.writeArea, writeBuf buf written, c.peb⟩, { c with writeArea := c.writeArea + written })
    if c.writeArea = 0 then
      match stateMtdPebErase c me with
      | (.ok, c) => .ok (issue c)
      | (.err e, c) => .error (e, c)
    else .ok (issue c)

def stateBackendBucketCircularWrite (c : Circ g) (buf : Bytes) (me : MtdErase g.maxSize)
    (mp : MtdProgram g.maxSize) : Ret × Circ g :=
  match circularPrepare c buf me with
  | .error (e, c) => (.err e, c)
  | .ok (op, c) => stateMtdPebWrite c op.buf op.offset mp

/-! ## Initialising -/

/-- Tail loop of `mtd_buf_all_ff`: byte by byte. -/
def allFfBytes : Bytes → Bool
  | [] => true
  | b :: r => if b ≠ 0xff then false else allFfBytes r

/-- Middle loop of `mtd_buf_all_ff`: word by word while more than three
bytes are left. -/
def allFfWords : Bytes → Bool
  | b₀ :: b₁ :: b₂ :: b₃ :: r =>
    if leNat [b₀, b₁, b₂, b₃] ≠ 0xffffffff then false
    else if r = [] then true else allFfWords r
  | r => allFfBytes r

/-- `mtd_buf_all_ff` on the buffer `b` at address `addr`: single bytes up
to the next word boundary first. -/
def mtdBufAllFf : Nat → Bytes → Bool
  | _, [] => true
  | addr, b :: r =>
    if addr % 4 ≠ 0 then
      if b ≠ 0xff then false else if r = [] then true else mtdBufAllFf (addr + 1) r
    else allFfWords (b :: r)

/-- The backward page scan of `init`: the number of pages up to and
including the last one that is not all `0xff`. The buffer comes from
`xmalloc`, so offsets and addresses agree modulo four. -/
def scanBack (writesize : Nat) (buf : Bytes) : Nat → Nat
  | 0 => 0
  | n + 1 =>
    if mtdBufAllFf (n * writesize) (slice (n * writesize) writesize buf) then
      scanBack writesize buf n
    else n + 1

/-- The `magic` and `written_length` fields directly before offset `stop`. -/
def metaMagic (buf : Bytes) (stop : Nat) : Nat := leNat (slice (stop - 8) 4 buf)
@[inherit_doc metaMagic]
def metaLength (buf : Bytes) (stop : Nat) : Nat := leNat (slice (stop - 4) 4 buf)

/-- `state_backend_bucket_circular_init`. -/
def stateBackendBucketCircularInit (c : Circ g) (m : MtdRead g.maxSize) : Ret × Circ g :=
  match stateMtdPebRead c 0 g.maxSize m with
  | (.fail e, c) => (.err e, c)
  | (.data _ buf, c) =>
    let stop := scanBack g.writesize buf (g.maxSize / g.writesize) * g.writesize
    if stop = 0 then (.ok, { c with writeArea := 0, lastWrittenLength := 0 })
    else if metaMagic buf stop ≠ circularMagic then
      let foreign := metaMagic buf stop ≠ 0xffffffff ∧ metaMagic buf stop ≠ 0
      (.ok, { c with
        writeArea := stop, lastWrittenLength := 0
        wrongMagic := c.wrongMagic || decide foreign })
    else (.ok, { c with writeArea := stop, lastWrittenLength := metaLength buf stop })

/-! ## Sessions -/

/-- One call into the bucket, with the outcomes of the mtd calls it makes. -/
inductive CircOp (size : Nat) where
  | init (m : MtdRead size)
  | read (m : MtdRead size)
  | write (buf : Bytes) (me : MtdErase size) (mp : MtdProgram size)

def CircOp.apply (c : Circ g) : CircOp g.maxSize → Circ g
  | .init m => (stateBackendBucketCircularInit c m).2
  | .read m => (stateBackendBucketCircularRead c m).2
  | .write buf me mp => (stateBackendBucketCircularWrite c buf me mp).2

end Barebox.State
