import Barebox.Uimage.Verify

/-!
# Loading the images of a uImage

What the data CRC covers is the `ih_size` bytes behind the header. The place of an image is
never compared with that: an image that ends behind it is loaded from whatever the file has
there, and a decompressor gets as many bytes as it asks for, also those behind its image.

`uimage_load_spec` is for every image and every call: the bytes handed on are those of the
image and are covered by the CRC if the handle has the image where it is in the file, and it
lies in what was verified (`Call.Covered`). For an image that the handle has in its place,
nothing less will do. `uimageOpen_placed` says when the handle has the images in their places:
for tables of 16 images at most whose sums do not wrap around.
-/

namespace Barebox.Uimage

open Lib List

variable {handle : Handle} {n : Nat}

/-! ## What is expected -/

/-- The table of a multi-file image: the lengths before the first zero -/
def tableOf : Nat → Bytes → Option (List Nat)
  | 0, _ => none
  | n + 1, b =>
    if b.length < 4 then none
    else if beNat (b.take 4) = 0 then some []
    else (tableOf n (b.drop 4)).map (beNat (b.take 4) :: ·)

/-- The bytes that images of these lengths take, each from a multiple of four on -/
def padded (lens : List Nat) : Nat := (lens.map fun len => (len + 3) / 4 * 4).sum

/-- Image `k` of a table starts behind the table and the images before it. -/
def startOf (lens : List Nat) (k : Nat) : Nat := 64 + 4 * (lens.length + 1) + padded (lens.take k)

/-- The images of a file: where they start and how long they are -/
def componentsOf (file : Bytes) (header : Header) : List (Nat × Nat) :=
  if header.type = typeMulti then
    match tableOf file.length (file.drop 64) with
    | none => []
    | some lens => lens.mapIdx fun k len => (startOf lens k, len)
  else [(64, header.size.toNat)]

/-- Where the data ends that the CRC is for -/
def verifiedEnd (header : Header) : Nat := 64 + header.size.toNat

def Call.imageNo : Call → Int
  | .load imageNo .. => imageNo
  | .loadToBuf imageNo .. => imageNo

/-- The image of a call -/
def Call.component (call : Call) (file : Bytes) (header : Header) : Option (Nat × Nat) :=
  if call.imageNo < 0 then none else (componentsOf file header)[call.imageNo.toNat]?

/-- The bytes are handed on as they are, and not to a decompressor. -/
def Call.plain (header : Header) : Call → Prop
  | .load .. => header.comp = compNone ∨ header.type = typeRamdisk
  | .loadToBuf .. => header.comp = compNone

def bytesOf (file : Bytes) : Option (Nat × Nat) → Bytes
  | none => []
  | some (first, len) => slice first len file

/-- Only bytes of the image are handed on, and only those that the CRC covers; a call
succeeds only if it covers the whole image, and has then handed on all of it, unless a
decompressor was content with less. -/
structure Checked (file : Bytes) (header : Header) (call : Call) (out : Outcome) : Prop where
  defined : out.result ≠ .error .EFAULT
  bytes : out.handed <+: bytesOf file (call.component file header)
  covered : ∀ first len, call.component file header = some (first, len) → out.handed ≠ [] →
    first + out.handed.length ≤ verifiedEnd header
  success : out.result = .ok () → ∃ first len, call.component file header = some (first, len)
    ∧ first + len ≤ verifiedEnd header ∧ (call.plain header → out.handed = slice first len file)

/-! ## What it takes -/

/-- The image that `uimage_open` has found -/
def Call.entry (l : Long) (call : Call) (handle : Handle) : Option (Nat × Nat) :=
  if call.imageNo < 0 then none
  else handle.ihd[call.imageNo.toNat]?.map fun e => ((e.1 + handle.dataOffset) % 2 ^ l.bits, e.2)

/-- The bytes that are flushed, up to the page that fails -/
def flushed (flush : Nat → Bool) : Nat → Nat → Nat → Nat
  | 0, _, _ => 0
  | pages + 1, len, pos =>
    if len = 0 then 0
    else
      let now := min len pageSize
      if flush pos then now + flushed flush pages (len - now) (pos + now) else now

/-- A decompressor that gets `got` bytes gets none behind its image or behind what was
verified, and does not succeed with an image that ends behind that. -/
def UncompressCovered (header : Header) (first len got : Nat) (ret : Bool) : Prop :=
  got ≤ len ∧ (got = 0 ∨ first + got ≤ verifiedEnd header) ∧ (ret = true → first + len ≤ verifiedEnd header)

/-- What a call asks for, of an image at `first` of `len` bytes, was verified. A copy is
counted in an `int`; a buffer that the file does not fill is refused, if the comparison of an
`int` with an `unsigned long` sees that; a decompressor is started for gzip data only. -/
def CoveredAt (l : Long) (file : Bytes) (header : Header) (first len : Nat) : Call → Prop
  | .load _ flush _ reqs ret =>
    if header.comp = compNone ∨ header.type = typeRamdisk then
      len < 2 ^ 31 ∧ first + flushed flush len len first ≤ verifiedEnd header
    else UncompressCovered header first len (min reqs.sum (file.length - first)) ret
  | .loadToBuf _ _ isGzip reqs ret =>
    if header.comp = compNone then
      first + len ≤ verifiedEnd header
        ∨ Int.bmod (min len (file.length - first) : Nat) (2 ^ 32) % 2 ^ l.bits < len
    else isGzip (slice first 128 file) = true → (first + len + 2 ^ l.bits - 4) % 2 ^ l.bits ≤ file.length →
      UncompressCovered header first len (min reqs.sum (file.length - first)) ret

/-- The image has a number. If the handle has it, and in the file, it has it in its place, and
what is asked for was verified; otherwise nothing is handed on. -/
def Call.Covered (l : Long) (file : Bytes) (handle : Handle) (call : Call) : Prop :=
  0 ≤ call.imageNo ∧ ∀ first len, call.entry l handle = some (first, len) → first ≤ file.length →
    call.component file handle.header = some (first, len) ∧ CoveredAt l file handle.header first len call

/-! ## Copies -/

section

variable {file : Bytes} {flush : Nat → Bool}

/-- A copy of `n` out of `len` bytes. As far as the file has them, they are those of the file. -/
structure Copied (file : Bytes) (len pos n : Nat) (out : Outcome) : Prop where
  le : n ≤ len
  length : out.handed.length = n
  bytes : pos + n ≤ file.length → out.handed = slice pos n file
  defined : out.result ≠ .error .EFAULT
  all : out.result = .ok () → n = len

/-- The loop copies page by page, and flushes what it has. -/
theorem copyLoop_copied (pages : Nat) (len pos : Nat) (buf : Bytes) (hbuf : buf.length = pageSize)
    (hle : len ≤ pages) :
    Copied file len pos (flushed flush pages len pos) (copyLoop file flush pages len pos buf) := by
  induction pages generalizing len pos buf with
  | zero => exact ⟨Nat.zero_le _, rfl, fun _ => rfl, nofun, fun _ => (Nat.le_zero.mp hle).symm⟩
  | succ pages ih =>
    rw [copyLoop, flushed]
    split
    next hlen => exact ⟨Nat.zero_le _, rfl, fun _ => rfl, nofun, fun _ => hlen.symm⟩
    next hlen =>
    have hpage : 0 < pageSize := by decide
    dsimp only
    generalize hnow : min len pageSize = now
    have hslice : (slice pos now file).length ≤ now := length_take_le ..
    have hnew : (overwrite 0 (slice pos now file) buf).length = pageSize := by
      rw [overwrite_length (by omega), hbuf]
    have htake : ((overwrite 0 (slice pos now file) buf).take now).length = now := length_take_of_le (by omega)
    have hbytes : pos + now ≤ file.length →
        (overwrite 0 (slice pos now file) buf).take now = slice pos now file := by
      intro hin
      exact take_left' (slice_length hin)
    cases flush pos with
    | false => exact ⟨(by omega : now ≤ len), htake, hbytes, nofun, nofun⟩
    | true =>
      have hrest := ih (len - now) (pos + now) _ hnew (by omega)
      have hle' := hrest.le
      rw [if_pos rfl, if_neg (by decide)]
      refine ⟨by omega, ?_, fun hin => ?_, hrest.defined, fun hok => ?_⟩
      · rw [length_append, htake, hrest.length]
      · rw [hbytes (by omega), hrest.bytes (by omega), slice_add]
      · have hall := hrest.all hok
        omega

variable {len : Nat}

/-- The first page is handed on also if that fails. -/
theorem eq_zero_of_flushed {pos : Nat} (h : flushed flush len len pos = 0) : len = 0 := by
  cases len with
  | zero => rfl
  | succ n =>
    have hpage : 0 < pageSize := by decide
    rw [flushed, if_neg (Nat.succ_ne_zero n)] at h
    dsimp only at h
    split at h <;> omega

end

/-! ## Calls -/

variable {counts : Nat → Nat} {file : Bytes} {header : Header}

/-- Verified data is there, and there are not too many bytes of it for an `int`. -/
theorem uimageVerify_ok {junk : Bytes} {turns : Nat}
    (h : uimageVerify file header counts junk turns = some (.ok ())) : verifiedEnd header ≤ file.length := by
  have hthere : ¬ file.length < 64 := by
    intro hshort
    rw [uimageVerify, if_pos hshort] at h
    cases h
  have hint : header.size.toNat < 2 ^ 31 := by
    refine Nat.lt_of_not_le fun hlarge => ?_
    rw [uimageVerify, if_neg hthere, if_pos hlarge] at h
    cases h
  refine Nat.le_of_not_lt fun hshort => ?_
  rw [uimageVerify_short junk hint (Nat.le_of_not_lt hthere) hshort] at h
  cases h

/-- Some bytes from a place on begin those of an image if and only if they are not more. -/
theorem slice_begins_iff (off n len : Nat) (b : Bytes) :
    slice off n b <+: slice off len b ↔ min n (b.length - off) ≤ len := by
  constructor
  · intro hbegin
    have hle := hbegin.length_le
    rw [length_slice, length_slice] at hle
    omega
  · intro hle
    by_cases hn : n ≤ len
    · rw [← take_slice b hn]
      exact List.take_prefix ..
    -- both end with the file
    have hsame : slice off n b = slice off len b := by
      unfold slice
      rw [take_of_length_le (by rw [length_drop]; omega), take_of_length_le (by rw [length_drop]; omega)]
    exact ⟨[], by rw [append_nil, hsame]⟩

section

variable {call : Call} {first len : Nat}

/-- For a call whose image is there. -/
theorem checked_iff (himage : call.component file header = some (first, len)) (out : Outcome) :
    Checked file header call out ↔ out.result ≠ .error .EFAULT ∧ out.handed <+: slice first len file
      ∧ (out.handed ≠ [] → first + out.handed.length ≤ verifiedEnd header)
      ∧ (out.result = .ok () → first + len ≤ verifiedEnd header
        ∧ (call.plain header → out.handed = slice first len file)) := by
  have hunique : ∀ {first' len' : Nat}, call.component file header = some (first', len') → first' = first ∧ len' = len := by
    intro first' len' h
    have hpair := Option.some.inj (h.symm.trans himage)
    exact ⟨congrArg Prod.fst hpair, congrArg Prod.snd hpair⟩
  constructor
  · intro ⟨hdefined, hbytes, hcovered, hsuccess⟩
    rw [himage] at hbytes
    refine ⟨hdefined, hbytes, hcovered first len himage, fun hok => ?_⟩
    obtain ⟨first', len', himage', hin, hplain⟩ := hsuccess hok
    obtain ⟨rfl, rfl⟩ := hunique himage'
    exact ⟨hin, hplain⟩
  · intro ⟨hdefined, hbytes, hcovered, hsuccess⟩
    refine ⟨hdefined, ?_, ?_, fun hok => ⟨first, len, himage, hsuccess hok⟩⟩
    · rw [himage]
      exact hbytes
    · intro first' len' himage'
      obtain ⟨rfl, rfl⟩ := hunique himage'
      exact hcovered

/-- What is not handed on is covered, if the call fails. -/
theorem checked_fail {e : Errno} (he : e ≠ .EFAULT) : Checked file header call (.fail e) where
  defined h := he (Except.error.inj h)
  bytes := List.nil_prefix
  covered _ _ _ h := absurd rfl h
  success h := nomatch h

theorem not_checked_fault : ¬ Checked file header call (.fail .EFAULT) := fun h => h.defined rfl

section

variable (himage : call.component file header = some (first, len))
include himage

/-- A decompressor -/
theorem uncompress_iff (hplain : ¬ call.plain header) (reqs : List Nat) (ret : Bool) :
    Checked file header call (uncompress file first reqs ret)
      ↔ UncompressCovered header first len (min reqs.sum (file.length - first)) ret := by
  have hlen := length_slice first reqs.sum file
  have hdefined : (uncompress file first reqs ret).result ≠ .error .EFAULT := by
    cases ret <;> exact nofun
  have hok : (uncompress file first reqs ret).result = .ok () ↔ ret = true := by
    cases ret with
    | false => exact iff_of_false nofun nofun
    | true => exact iff_of_true rfl rfl
  have hsome : (uncompress file first reqs ret).handed ≠ [] ↔ min reqs.sum (file.length - first) ≠ 0 := by
    rw [← hlen, ne_eq, ne_eq, length_eq_zero_iff]
    rfl
  rw [checked_iff himage, and_iff_right hdefined, hsome, hok]
  refine and_congr (slice_begins_iff ..) (and_congr ?_ (imp_congr_right fun _ => ?_))
  · show (_ → first + (slice first reqs.sum file).length ≤ _) ↔ _
    omega
  · exact and_iff_left fun h => absurd h hplain

/-- A copy -/
theorem uncompressCopy_iff
    (hverified : verifiedEnd header ≤ file.length) (flush : Nat → Bool) (stale : Nat → UInt8) :
    Checked file header call (uncompressCopy file flush len first stale)
      ↔ len < 2 ^ 31 ∧ first + flushed flush len len first ≤ verifiedEnd header := by
  unfold uncompressCopy
  split
  next hlarge => exact iff_of_false not_checked_fault fun h => absurd h.1 (Nat.not_lt.mpr hlarge)
  next hint =>
  have hbuf : ((range pageSize).map stale).length = pageSize := by
    rw [length_map, length_range]
  obtain ⟨hle, hlen, hbytes, hdefined, hok⟩ := @copyLoop_copied file flush len len first _ hbuf (Nat.le_refl _)
  rw [checked_iff himage, and_iff_right hdefined, and_iff_right (Nat.lt_of_not_le hint)]
  constructor
  · intro ⟨_, hcovered, hsuccess⟩
    by_cases hnone : (copyLoop file flush len len first ((range pageSize).map stale)).handed = []
    · -- a page that fails was handed on, so there was none and the copy has succeeded
      have hzero : len = 0 := by
        rw [hnone] at hlen
        exact eq_zero_of_flushed hlen.symm
      subst hzero
      exact (hsuccess rfl).1
    · have := hcovered hnone
      omega
  · intro hin
    have hhanded := hbytes (Nat.le_trans hin hverified)
    refine ⟨?_, fun _ => by omega, fun h => ?_⟩
    · rw [hhanded, slice_begins_iff]
      omega
    · rw [hok h] at hin hhanded
      exact ⟨hin, fun _ => hhanded⟩

/-- A buffer -/
theorem buffer_iff (l : Long) (hverified : verifiedEnd header ≤ file.length) (stale : Nat → UInt8) :
    Checked file header call
        (if Int.bmod (slice first len file).length (2 ^ 32) % 2 ^ l.bits < len then .fail .EINVAL
          else ⟨(range len).map fun i => (slice first len file).getD i (stale i), .ok ()⟩)
      ↔ first + len ≤ verifiedEnd header
        ∨ Int.bmod (min len (file.length - first) : Nat) (2 ^ 32) % 2 ^ l.bits < len := by
  rw [length_slice]
  split
  next hshort => exact iff_of_true (checked_fail nofun) (Or.inr hshort)
  next hlong =>
  rw [or_iff_left hlong]
  constructor
  · intro hchecked
    exact (((checked_iff himage _).mp hchecked).2.2.2 rfl).1
  · intro hin
    have hfull : (slice first len file).length = len := slice_length (Nat.le_trans hin hverified)
    have hsame : ((range len).map fun i => (slice first len file).getD i (stale i)) = slice first len file := by
      refine ext_getElem ?_ fun i h₁ h₂ => ?_
      · rw [length_map, length_range, hfull]
      · rw [getElem_map, getElem_range, getD_eq_getElem?_getD, getElem?_eq_getElem h₂]
        rfl
    rw [checked_iff himage, hsame]
    refine ⟨nofun, prefix_rfl, fun _ => ?_, fun _ => ⟨hin, fun _ => rfl⟩⟩
    rw [hfull]
    exact hin

end

/-- A call whose image the handle has where it is. -/
theorem call_iff {l : Long} (hverified : verifiedEnd handle.header ≤ file.length)
    (hnumber : 0 ≤ call.imageNo) (hentry : call.entry l handle = some (first, len)) (hthere : first ≤ file.length)
    (himage : call.component file handle.header = some (first, len)) :
    Checked file handle.header call (call.run l file handle) ↔ CoveredAt l file handle.header first len call := by
  unfold Call.entry at hentry
  rw [if_neg (Int.not_lt.mpr hnumber)] at hentry
  obtain ⟨⟨offset, len'⟩, hfound, hpair⟩ := Option.map_eq_some_iff.mp hentry
  obtain ⟨rfl, rfl⟩ := Prod.mk.inj hpair
  cases call with
  | load imageNo flush stale reqs ret =>
    have hfound' : handle.ihd[imageNo]? = some (offset, len') := hfound
    unfold Call.run CoveredAt
    dsimp only
    unfold uimageLoad
    rw [hfound']
    dsimp only
    rw [if_neg (Nat.not_lt.mpr hthere)]
    split
    next => exact uncompressCopy_iff himage hverified flush stale
    next hplain => exact uncompress_iff himage hplain reqs ret
  | loadToBuf imageNo stale isGzip reqs ret =>
    have hfound' : handle.ihd[imageNo.toNat]? = some (offset, len') := hfound
    have hnumber' : ¬ imageNo < 0 := Int.not_lt.mpr hnumber
    unfold Call.run CoveredAt
    dsimp only
    unfold uimageLoadToBuf
    rw [if_neg hnumber', hfound']
    dsimp only
    rw [if_neg (Nat.not_lt.mpr hthere)]
    split
    next => exact buffer_iff himage l hverified stale
    next hplain =>
    cases isGzip (slice ((offset + handle.dataOffset) % 2 ^ l.bits) 128 file) with
    | false => exact iff_of_true (checked_fail nofun) nofun
    | true =>
      rw [forall_prop_of_true rfl, if_neg nofun]
      split
      next hend =>
        exact iff_of_true (checked_fail nofun) fun h => absurd hend (Nat.not_lt.mpr h)
      next hend =>
      rw [forall_prop_of_true (Nat.le_of_not_lt hend)]
      exact uncompress_iff himage hplain reqs ret

/-- A call whose image was not found, or not in the file. -/
theorem call_refused {l : Long} (hnumber : 0 ≤ call.imageNo)
    (hnone : ∀ first len, call.entry l handle = some (first, len) → file.length < first) :
    call.run l file handle = .fail .EINVAL := by
  have hbehind : ∀ entry, handle.ihd[call.imageNo.toNat]? = some entry →
      file.length < (entry.1 + handle.dataOffset) % 2 ^ l.bits := by
    intro entry hfound
    refine hnone _ entry.2 ?_
    rw [Call.entry, if_neg (Int.not_lt.mpr hnumber), hfound]
    rfl
  cases call with
  | load imageNo flush stale reqs ret =>
    unfold Call.run
    dsimp only
    unfold uimageLoad
    cases hfound : handle.ihd[imageNo]? with
    | none => rfl
    | some entry => exact if_pos (hbehind entry hfound)
  | loadToBuf imageNo stale isGzip reqs ret =>
    have hnumber' : ¬ imageNo < 0 := Int.not_lt.mpr hnumber
    unfold Call.run
    dsimp only
    unfold uimageLoadToBuf
    rw [if_neg hnumber']
    cases hfound : handle.ihd[imageNo.toNat]? with
    | none => rfl
    | some entry => exact if_pos (hbehind entry hfound)

end

/-- A negative number leads outside of the table. -/
theorem not_checked_negative {l : Long} {call : Call} (h : ¬ 0 ≤ call.imageNo) :
    ¬ Checked file handle.header call (call.run l file handle) := by
  cases call with
  | load imageNo flush stale reqs ret => exact absurd (Int.natCast_nonneg imageNo) h
  | loadToBuf imageNo stale isGzip reqs ret =>
    have hfault : (Call.loadToBuf imageNo stale isGzip reqs ret).run l file handle = .fail .EFAULT :=
      if_pos (Int.lt_of_not_ge h)
    rw [hfault]
    exact not_checked_fault

/-- Of an image that was verified, only checked bytes are handed on if the call is covered; and
where the handle has the image of the call in its place, only then. -/
theorem uimage_load_spec (l : Long) {file : Bytes} {counts : Nat → Nat} {junk : Bytes} {turns : Nat} {handle : Handle}
    (hverify : uimageVerify file handle.header counts junk turns = some (.ok ())) (call : Call) :
    (call.Covered l file handle → Checked file handle.header call (call.run l file handle))
    ∧ (call.entry l handle = call.component file handle.header →
      Checked file handle.header call (call.run l file handle) → call.Covered l file handle) := by
  have hverified := uimageVerify_ok hverify
  constructor
  · intro ⟨hnumber, hcovered⟩
    by_cases hfound : ∃ first len, call.entry l handle = some (first, len) ∧ first ≤ file.length
    · obtain ⟨first, len, hentry, hthere⟩ := hfound
      obtain ⟨himage, hat⟩ := hcovered first len hentry hthere
      exact (call_iff hverified hnumber hentry hthere himage).mpr hat
    · rw [call_refused hnumber fun first len hentry =>
        Nat.lt_of_not_le fun hthere => hfound ⟨first, len, hentry, hthere⟩]
      exact checked_fail nofun
  · intro hplaced hchecked
    have hnumber : 0 ≤ call.imageNo := Classical.not_not.mp fun h => not_checked_negative h hchecked
    refine ⟨hnumber, fun first len hentry hthere => ?_⟩
    have himage := hplaced.symm.trans hentry
    exact ⟨himage, (call_iff hverified hnumber hentry hthere himage).mp hchecked⟩

/-! ## Where the images are -/

theorem padded_cons (len : Nat) (lens : List Nat) : padded (len :: lens) = (len + 3) / 4 * 4 + padded lens := rfl

/-- The offsets that are summed up are those of the images, as long as none is too large for
a `size_t`. -/
theorem placeImages_get (l : Long) (lens : List Nat) (offset : Nat)
    (hfit : ∀ k < lens.length, offset + padded (lens.take k) < 2 ^ l.bits) (k : Nat) :
    (placeImages l offset lens)[k]? = lens[k]?.map fun len => (offset + padded (lens.take k), len) := by
  induction lens generalizing offset k with
  | nil => rfl
  | cons len lens ih =>
    cases k with
    | zero => rfl
    | succ k =>
      rw [placeImages, getElem?_cons_succ, getElem?_cons_succ]
      cases lens with
      | nil => rfl
      | cons len' lens =>
        -- there is an image behind this one, so what this one takes is not too large
        have hone : offset + ((len + 3) / 4 * 4 + 0) < 2 ^ l.bits := hfit 1 (by simp)
        have hwhole : len + 3 < 2 ^ l.bits := by
          cases l with
          | bits32 =>
            simp only [Long.bits] at hone ⊢
            omega
          | bits64 =>
            simp only [Long.bits] at hone ⊢
            omega
        rw [Nat.mod_eq_of_lt hwhole, Nat.mod_eq_of_lt (by omega), ih]
        · rw [take_succ_cons, padded_cons, Nat.add_assoc]
        · intro k hk
          have hnext := hfit (k + 1) (Nat.succ_lt_succ hk)
          rw [take_succ_cons, padded_cons] at hnext
          omega

section

variable {l : Long} {junk : Nat → Nat → UInt8} (hfull : ∀ i, 64 ≤ counts i)
include hfull

theorem readShort_of_full {pos i : Nat} (hn : n ≤ 64) (hlong : pos + n ≤ file.length) :
    readShort file pos n (counts i) = slice pos n file := by
  have hcount := hfull i
  unfold readShort readCount
  dsimp only
  congr 1
  omega

/-- The table is read as it is, if it is not too long. -/
theorem readTable_eq : ∀ (fuel n i pos : Nat) {lens : List Nat}, tableOf fuel (file.drop pos) = some lens →
    lens.length ≤ n → readTable file counts junk n i pos = lens := by
  intro fuel
  induction fuel with
  | zero => exact nofun
  | succ fuel ih =>
    intro n i pos lens h hle
    rw [tableOf] at h
    split at h
    next => nomatch h
    next hlong =>
    cases n with
    | zero => exact (length_eq_zero_iff.mp (Nat.le_zero.mp hle)).symm
    | succ n =>
      rw [length_drop] at hlong
      have hread : readShort file pos 4 (counts i) = slice pos 4 file :=
        readShort_of_full hfull (by decide) (by omega)
      have hlen : (slice pos 4 file).length = 4 := slice_length (by omega)
      have hword : ((range 4).map fun k => (slice pos 4 file).getD k (junk i k)) = slice pos 4 file :=
        ext_getElem (by simp [hlen]) fun k h₁ h₂ => by simp [getElem?_eq_getElem h₂]
      have hnext : file.drop (pos + 4) = (file.drop pos).drop 4 := by rw [drop_drop]
      rw [readTable, hread, hword, hlen]
      split at h
      next hzero => exact (if_pos hzero).trans (Option.some.inj h)
      next hsize =>
      obtain ⟨rest, hrest, rfl⟩ := Option.map_eq_some_iff.mp h
      rw [← hnext] at hrest
      refine (if_neg hsize).trans (congrArg _ (ih n (i + 1) (pos + 4) hrest ?_))
      rw [length_cons] at hle
      omega

/-- For tables that end in the file, with 16 images at most and sums that fit a `size_t`, a
handle has every image where it is, and no others. -/
theorem uimageOpen_placed (hlong : 64 ≤ file.length) (hopen : uimageOpen l file counts junk = some handle)
    (htable : handle.header.type = typeMulti → ∃ lens, tableOf file.length (file.drop 64) = some lens
      ∧ lens.length ≤ maxMultiImageCount ∧ ∀ k < lens.length, startOf lens k < 2 ^ l.bits) (call : Call) :
    call.entry l handle = call.component file handle.header := by
  have hread : readShort file 0 64 (counts 0) = slice 0 64 file := readShort_of_full hfull (Nat.le_refl _) (by omega)
  have hlen : (slice 0 64 file).length = 64 := slice_length (by omega)
  have hword : 2 ^ 32 ≤ 2 ^ l.bits := by cases l <;> decide
  unfold Call.entry Call.component componentsOf
  split
  next => rfl
  next =>
  unfold uimageOpen at hopen
  dsimp only at hopen
  split at hopen
  next => nomatch hopen
  next =>
  split at hopen
  next => nomatch hopen
  next =>
  split at hopen
  next hmulti =>
    cases hopen
    -- a multi-file image: the table gives the places
    obtain ⟨lens, hlens, hfew, hfit⟩ := htable hmulti
    dsimp only
    rw [if_pos hmulti, hlens, hread, hlen, readTable_eq hfull _ _ _ _ hlens hfew,
      placeImages_get l lens 0 fun k hk => by
        have := hfit k hk
        rw [startOf] at this
        omega]
    dsimp only
    rw [getElem?_mapIdx, Option.map_map]
    cases hentry : lens[call.imageNo.toNat]? with
    | none => rfl
    | some len =>
      have hplace := hfit _ (List.getElem?_eq_some_iff.mp hentry).1
      simp only [Option.map_some, Function.comp, Nat.zero_add]
      rw [Nat.add_comm (padded _), ← startOf, Nat.mod_eq_of_lt hplace]
  next hsingle =>
    cases hopen
    dsimp only
    rw [if_neg hsingle]
    cases hnumber : call.imageNo.toNat with
    | zero =>
      simp only [getElem?_cons_zero, Option.map_some]
      rw [Nat.zero_add, Nat.mod_eq_of_lt (Nat.lt_of_lt_of_le (by decide) hword)]
    | succ k => rfl

end

/-! ## A multi-file image -/

/-- Two images, of three and of four bytes, behind their table -/
def multiData : Bytes := [0, 0, 0, 3, 0, 0, 0, 4, 0, 0, 0, 0, 5, 6, 7, 0, 1, 2, 3, 4]

/-- The CRCs of a header for `n` bytes of it, and of those bytes -/
def multiCrcs (n : Nat) : Nat × Nat := if n = 12 then (0x77aa3a81, 0xb7d85c6a) else (0xb67bdec8, 0x3dbb85a8)

def multiFile (n : Nat) : Bytes :=
  beBytes 4 0x27051956 ++ beBytes 4 (multiCrcs n).1 ++ beBytes 4 0 ++ beBytes 4 n ++ replicate 8 0
    ++ beBytes 4 (multiCrcs n).2 ++ [0, 0, 4, 0] ++ replicate 32 0 ++ multiData

def multiHeader (n : Nat) : Header := ⟨UInt32.ofNat n, UInt32.ofNat (multiCrcs n).2, 4, 0⟩

def multiHandle (n : Nat) : Handle := ⟨multiHeader n, [(0, 3), (4, 4)], 76⟩

set_option maxRecDepth 4000 in
/-- It is accepted and verified, as far as the header says. -/
theorem multiFile_verified : ∀ n ∈ [12, 20],
    uimageOpen .bits32 (multiFile n) (fun _ => 4096) (fun _ _ => 0) = some (multiHandle n)
      ∧ uimageVerify (multiFile n) (multiHeader n) (fun _ => 4096) (replicate pageSize 0) 2 = some (.ok ()) := by
  decide +kernel

/-- The second image is behind the first, and behind what its length is rounded up to. -/
theorem multiFile_placed : some (80, 4)
    = (Call.load 1 (fun _ => true) (fun _ => 0) [] true).component (multiFile 20) (multiHeader 20) :=
  uimageOpen_placed (l := .bits32) (fun _ => by decide) (by decide) (multiFile_verified 20 (by decide)).1
    (fun _ => ⟨[3, 4], rfl, by decide, by decide⟩) (Call.load 1 (fun _ => true) (fun _ => 0) [] true)

/-- With all of it verified the second image is copied, and only checked bytes are. -/
theorem multiFile_loaded :
    uimageLoad .bits32 (multiFile 20) (multiHandle 20) 1 (fun _ => true) (fun _ => 0) [] true = ⟨[1, 2, 3, 4], .ok ()⟩
      ∧ Checked (multiFile 20) (multiHeader 20) (.load 1 (fun _ => true) (fun _ => 0) [] true)
        (uimageLoad .bits32 (multiFile 20) (multiHandle 20) 1 (fun _ => true) (fun _ => 0) [] true) := by
  have hverify : uimageVerify (multiFile 20) (multiHandle 20).header (fun _ => 4096) _ _ = some (.ok ()) :=
    (multiFile_verified 20 (by decide)).2
  refine ⟨rfl, (uimage_load_spec .bits32 hverify (.load 1 (fun _ => true) (fun _ => 0) [] true)).1
    ⟨by decide, fun first len hentry _ => ?_⟩⟩
  have hpair : (80, 4) = (first, len) := Option.some.inj hentry
  obtain ⟨rfl, rfl⟩ := Prod.mk.inj hpair
  exact ⟨rfl, by decide, by decide⟩

/-- If only the table is verified, the images behind it are copied all the same. -/
theorem multiFile_unverified :
    uimageOpen .bits32 (multiFile 12) (fun _ => 4096) (fun _ _ => 0) = some (multiHandle 12)
      ∧ uimageVerify (multiFile 12) (multiHeader 12) (fun _ => 4096) (replicate pageSize 0) 2 = some (.ok ())
      ∧ ¬ Checked (multiFile 12) (multiHeader 12) (.load 1 (fun _ => true) (fun _ => 0) [] true)
        (uimageLoad .bits32 (multiFile 12) (multiHandle 12) 1 (fun _ => true) (fun _ => 0) [] true) := by
  obtain ⟨hopen, hverify⟩ := multiFile_verified 12 (by decide)
  refine ⟨hopen, hverify, fun hchecked => ?_⟩
  obtain ⟨first, len, himage, hin, _⟩ := hchecked.success rfl
  cases himage
  exact absurd hin (by decide)

end Barebox.Uimage
