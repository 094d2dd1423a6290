import Barebox.State.Direct
import Barebox.State.RawRoundTrip

/-!
# Restoring redundancy

After a successful load every copy should be as good as the one in use.
Whether it is hangs on the digest: verify shortens the length to header
and data before it looks at the HMAC, so the refresh compares, and writes
back, copies *without* their HMAC. Without authentication nothing is
missing from such a copy. With it, a copy that was rewritten no longer
verifies, and one that differs in its HMAC only is not rewritten.

The world here is the device of the direct buckets. A bucket owns a
`region` of it; a rewrite changes its own region and no other. A read depends
on its own region as far as there is head room for metadata. Without it, a
state can go on in the next region (`Reached`), and is lost when that one is
rewritten. `storage_restores` is when all copies are good again.
-/

namespace Barebox.State

open Lib List

/-! ## The first pass -/

/-- The first copy that passes, by its place and by what is in front of it. -/
theorem firstValid_iff {l : List (Bucket × Bool)} : ∀ {u : Nat} {b : Bucket},
    firstValid l = some (u, b) ↔
      l[u]? = some (b, true) ∧ ∀ j < u, ∃ b', l[j]? = some (b', false) := by
  induction l with
  | nil =>
    intro u b
    simp [firstValid]
  | cons s l ih =>
    intro u b
    obtain ⟨b₀, valid⟩ := s
    cases u with
    | zero => cases valid <;> simp [firstValid]
    | succ u =>
      rw [Nat.forall_lt_succ_left]
      cases valid <;> simp [firstValid, ih]

/-- A driver whose reads leave the world alone scans each bucket on its
own. -/
theorem scan_getElem? {ω φ : Type} (drv : Driver ω) (fmt : Format φ) (w : ω) (f : φ)
    (hread : ∀ i, (drv.read w i).2 = w) (hkeep : ∀ buf, fmt.keep f buf = f) :
    ∀ (bs : List Bucket) (i : Nat),
      (scan drv fmt i bs w f).2 = (w, f) ∧
      ∀ k, (scan drv fmt i bs w f).1[k]? = bs[k]?.map fun b => (scanOne drv fmt (i + k) b w f).1
  | [], i => ⟨rfl, fun k => by simp [scan]⟩
  | b :: bs, i => by
    have hone : (scanOne drv fmt i b w f).2 = (w, f) := by
      have hw := hread i
      unfold scanOne
      split
      all_goals
        next heq =>
        rw [heq] at hw
        cases hw
        simp only [hkeep]
    obtain ⟨hworld, hget⟩ := scan_getElem? drv fmt w f hread hkeep bs (i + 1)
    have hsplit : scan drv fmt i (b :: bs) w f
        = ((scanOne drv fmt i b w f).1 :: (scan drv fmt (i + 1) bs w f).1, w, f) := by
      rw [scan]
      simp only [hone, hworld]
    rw [hsplit]
    refine ⟨rfl, ?_⟩
    intro k
    cases k with
    | zero => rfl
    | succ k =>
      rw [getElem?_cons_succ, getElem?_cons_succ, hget k,
        show i + 1 + k = i + (k + 1) by omega]

/-! ## Regions of the device -/

section Regions

variable {cfg : DirectConfig} {dev : Device cfg}

/-- The stretch of the device that belongs to bucket `i`. -/
def Device.region (dev : Device cfg) (i : Nat) : Bytes := slice (cfg.off i) cfg.stride dev.bytes

variable {i : Nat}

theorem DirectConfig.off_add_le (hi : i < cfg.count) : cfg.off i + cfg.stride ≤ cfg.size := by
  have hmul := Nat.mul_le_mul_right cfg.stride (Nat.succ_le_of_lt hi)
  rw [Nat.succ_mul] at hmul
  have hfits := cfg.fits
  unfold DirectConfig.off
  omega

variable {j : Nat} {buf : Bytes}

theorem DirectConfig.off_lt (h : i < j) : cfg.off i + cfg.stride ≤ cfg.off j := by
  have hmul := Nat.mul_le_mul_right cfg.stride (Nat.succ_le_of_lt h)
  rw [Nat.succ_mul] at hmul
  unfold DirectConfig.off
  omega

theorem Device.region_length (hi : i < cfg.count) : (dev.region i).length = cfg.stride :=
  slice_length (by rw [dev.length_eq]; exact cfg.off_add_le hi)

theorem readFull_length (bytes : Bytes) (off len : Nat) : (readFull cfg bytes off len).length = len := by
  have hle : (slice off len bytes).length ≤ len := length_take_le _ _
  simp only [readFull, length_append, length_take, length_replicate]
  omega

/-- As far as the device reaches, a read delivers its bytes. -/
theorem readFull_take {bytes : Bytes} {off len n : Nat} (hn : n ≤ len)
    (hdev : off + n ≤ bytes.length) : (readFull cfg bytes off len).take n = slice off n bytes := by
  have hgot : n ≤ (slice off len bytes).length := by
    rw [length_slice]
    omega
  unfold readFull
  rw [take_append_of_le_length hgot, take_slice bytes hn]

theorem readFull_eq {bytes : Bytes} {off len : Nat} (hdev : off + len ≤ bytes.length) :
    readFull cfg bytes off len = slice off len bytes := by
  have h : (readFull cfg bytes off len).take len = slice off len bytes :=
    readFull_take (Nat.le_refl len) hdev
  rwa [take_of_length_le (by rw [readFull_length])] at h

/-- What a write of `payload` puts at the start of a region. -/
def DirectConfig.image (cfg : DirectConfig) (payload : Bytes) : Bytes :=
  if cfg.headRoom payload.length then directMeta payload.length ++ payload else payload

variable {payload : Bytes}

theorem DirectConfig.image_eq (hroom : payload.length + 8 ≤ cfg.stride) :
    cfg.image payload = directMeta payload.length ++ payload :=
  if_pos (Or.inr hroom)

theorem directMeta_length (len : Nat) : (directMeta len).length = 8 := by
  simp [directMeta]

theorem DirectConfig.image_length_le
    (hroom : payload.length + 8 ≤ cfg.stride) : (cfg.image payload).length ≤ cfg.stride := by
  rw [DirectConfig.image_eq hroom, length_append, directMeta_length]
  omega

variable {dev' : Device cfg}

/-- Where the last bucket ends. -/
def DirectConfig.stop (cfg : DirectConfig) : Nat := cfg.off cfg.count

/-- A write that succeeds and stays within its region: the image is over the
beginning of the region, and nothing else has changed. -/
theorem directWrite_regions
    (hfit : (cfg.image payload).length ≤ cfg.stride) (hi : i < cfg.count)
    (h : stateBackendBucketDirectWrite cfg dev i payload = (.ok, dev')) :
    dev'.region i = cfg.image payload ++ (dev.region i).drop (cfg.image payload).length ∧
    (∀ j < cfg.count, j ≠ i → dev'.region j = dev.region j) ∧
    dev'.bytes.drop cfg.stop = dev.bytes.drop cfg.stop ∧
    (cfg.headRoom payload.length ∨ cfg.backwardCompatible = true) := by
  have hoff := cfg.off_add_le hi
  have hput : dev.put (cfg.off i) (cfg.image payload) = .ok dev' ∧
      (cfg.headRoom payload.length ∨ cfg.backwardCompatible = true) := by
    unfold stateBackendBucketDirectWrite at h
    unfold DirectConfig.image
    split at h
    · next hroom =>
      rw [if_pos hroom]
      cases hp : dev.put (cfg.off i) (directMeta payload.length ++ payload) with
      | error e => simp [hp] at h
      | ok d => exact ⟨by simpa [hp] using h, Or.inl hroom⟩
    · next hroom =>
      rw [if_neg hroom]
      split at h
      · cases h
      next hcompat =>
      cases hp : dev.put (cfg.off i) payload with
      | error e => simp [hp] at h
      | ok d => exact ⟨by simpa [hp] using h, Or.inr (by simpa using hcompat)⟩
  -- with a header or without one it is one write at the bucket's offset
  obtain ⟨hput, hcompat⟩ := hput
  unfold Device.put at hput
  rw [dif_pos (by omega)] at hput
  cases hput
  have hlen := dev.length_eq
  refine ⟨?_, ?_, ?_, hcompat⟩
  · have hpre : (dev.bytes.take (cfg.off i)).length = cfg.off i := length_take_of_le (by omega)
    show slice (cfg.off i) cfg.stride (overwrite (cfg.off i) (cfg.image payload) dev.bytes) = _
    unfold overwrite Device.region slice
    rw [append_assoc, drop_left' hpre, take_append, take_of_length_le hfit, drop_take, drop_drop]
  · intro j hj hne
    rcases Nat.lt_or_gt_of_ne hne with hlt | hgt
    · exact slice_overwrite_before (cfg.off_lt hlt) (by omega)
    · have := cfg.off_lt hgt
      exact slice_overwrite_after (by omega) (by omega)
  · have hstop : cfg.off i + cfg.stride ≤ cfg.stop := cfg.off_lt hi
    exact drop_overwrite_after (by omega) (by omega)

/-! ## The second pass -/

variable {faults : Nat → Option Errno} {payload : Bytes}

/-- What the device looks like after some buckets have been rewritten. -/
structure Rewritten (payload : Bytes) (dev dev' : Device cfg) (P : Nat → Prop) : Prop where
  written : ∀ j < cfg.count, P j →
    dev'.region j = cfg.image payload ++ (dev.region j).drop (cfg.image payload).length
  kept : ∀ j < cfg.count, ¬ P j → dev'.region j = dev.region j
  behind : dev'.bytes.drop cfg.stop = dev.bytes.drop cfg.stop
  allowed : ∀ j < cfg.count, P j → cfg.headRoom payload.length ∨ cfg.backwardCompatible = true

/-- One turn of the refresh rewrites its own region, if it has to and all goes well, … -/
theorem bucketRefresh_rewritten (hfit : (cfg.image payload).length ≤ cfg.stride) {b : Bucket} (hi : i < cfg.count)
    (hok : ∀ r ∈ (bucketRefresh (directDriver cfg faults) payload i b dev).2.2, r = .ok) :
    Rewritten payload dev (bucketRefresh (directDriver cfg faults) payload i b dev).2.1
      fun j => j = i ∧ needsWrite b payload = true := by
  unfold bucketRefresh at hok ⊢
  by_cases hneed : needsWrite b payload = true
  · simp only [hneed, if_true] at hok ⊢
    cases hw : (directDriver cfg faults).write dev i payload with
    | mk r dev' =>
      rw [hw] at hok
      cases r with
      | err e =>
        have := hok (.err e) (mem_singleton_self _)
        cases this
      | ok =>
        obtain ⟨hself, hother, hbehind, hallowed⟩ := directWrite_regions hfit hi hw
        refine ⟨?_, fun j hj hne => hother j hj fun heq => hne ⟨heq, trivial⟩, hbehind, fun _ _ _ => hallowed⟩
        rintro j hj ⟨rfl, -⟩
        exact hself
  · rw [if_neg hneed]
    exact ⟨fun j _ h => absurd h.2 hneed, fun _ _ _ => rfl, rfl, fun j _ h => absurd h.2 hneed⟩

/-- Rewriting some buckets and then others. -/
theorem Rewritten.trans {dev₁ dev₂ dev₃ : Device cfg} {P Q : Nat → Prop}
    (h₁ : Rewritten payload dev₁ dev₂ P) (h₂ : Rewritten payload dev₂ dev₃ Q) :
    Rewritten payload dev₁ dev₃ fun j => P j ∨ Q j where
  written j hj hPQ := by
    by_cases hQ : Q j
    · rw [h₂.written j hj hQ]
      by_cases hP : P j
      · rw [h₁.written j hj hP, drop_left]
      · rw [h₁.kept j hj hP]
    · rw [h₂.kept j hj hQ, h₁.written j hj (hPQ.resolve_right hQ)]
  kept j hj hnot := by
    rw [h₂.kept j hj fun hQ => hnot (Or.inr hQ), h₁.kept j hj fun hP => hnot (Or.inl hP)]
  behind := h₂.behind.trans h₁.behind
  allowed j hj hPQ := hPQ.elim (h₁.allowed j hj) (h₂.allowed j hj)

/-- … which is said by any description of the regions, … -/
theorem Rewritten.congr {P Q : Nat → Prop}
    (h : Rewritten payload dev dev' P) (hPQ : ∀ j, P j ↔ Q j) : Rewritten payload dev dev' Q :=
  ⟨fun j hj hQ => h.written j hj ((hPQ j).mpr hQ), fun j hj hQ => h.kept j hj fun hP => hQ ((hPQ j).mp hP),
    h.behind, fun j hj hQ => h.allowed j hj ((hPQ j).mpr hQ)⟩

/-- … and leaves the image at the front of such a region. -/
theorem Rewritten.image {P : Nat → Prop} (h : Rewritten payload dev dev' P) (hi : i < cfg.count) (hP : P i) :
    (dev'.region i).take (cfg.image payload).length = cfg.image payload := by
  rw [h.written i hi hP, take_left]

/-- The buckets the second pass rewrites, the one in use excepted. -/
theorem refreshOthers_rewritten (hfit : (cfg.image payload).length ≤ cfg.stride) {u : Nat} :
    ∀ (bs : List Bucket) (i : Nat) (dev : Device cfg), i + bs.length ≤ cfg.count →
      (∀ r ∈ (refreshOthers (directDriver cfg faults) payload u i bs dev).2.2, r = .ok) →
      Rewritten payload dev (refreshOthers (directDriver cfg faults) payload u i bs dev).2.1
        fun j => j ≠ u ∧ ∃ b, (b, j) ∈ bs.zipIdx i ∧ needsWrite b payload = true
  | [], i, dev, _, _ => ⟨fun j _ ⟨_, _, hb, _⟩ => (nomatch hb), fun _ _ _ => rfl, rfl,
      fun j _ ⟨_, _, hb, _⟩ => (nomatch hb)⟩
  | b :: bs, i, dev, hcount, hok => by
    rw [length_cons] at hcount
    rw [refreshOthers] at hok ⊢
    by_cases hu : i = u
    · simp only [hu, if_true] at hok ⊢
      subst hu
      refine (refreshOthers_rewritten hfit bs (i + 1) dev (by omega) hok).congr fun j => ?_
      refine and_congr_right fun hne => ?_
      simp [zipIdx_cons, hne]
    · simp only [hu, if_false] at hok ⊢
      have hfirst : Rewritten payload dev
          (bucketRefresh (directDriver cfg faults) payload i b dev).2.1
          fun j => j = i ∧ needsWrite b payload = true :=
        bucketRefresh_rewritten hfit (by omega) fun r hr => hok r (mem_append_left _ hr)
      have hrest := refreshOthers_rewritten hfit bs (i + 1)
        (bucketRefresh (directDriver cfg faults) payload i b dev).2.1 (by omega)
        fun r hr => hok r (mem_append_right _ hr)
      refine (hfirst.trans hrest).congr fun j => ?_
      constructor
      · rintro (⟨rfl, hneed⟩ | ⟨hne, b', hb', hneed⟩)
        · exact ⟨hu, b, mem_cons_self, hneed⟩
        · exact ⟨hne, b', mem_cons_of_mem _ hb', hneed⟩
      · rintro ⟨hne, b', hb', hneed⟩
        rcases mem_cons.mp hb' with hb' | hb'
        · cases hb'
          exact Or.inl ⟨rfl, hneed⟩
        · exact Or.inr ⟨hne, b', hb', hneed⟩

/-- When nothing needs a rewrite, nothing is written. -/
theorem refreshOthers_none {ω : Type} {drv : Driver ω} {u : Nat} {w : ω} :
    ∀ (bs : List Bucket) (i : Nat), (∀ b ∈ bs, needsWrite b payload = false) →
      (refreshOthers drv payload u i bs w).2 = (w, [])
  | [], _, _ => rfl
  | b :: bs, i, h => by
    have hb := h b (mem_cons_self)
    have hbs : (refreshOthers drv payload u (i + 1) bs w).2 = (w, []) :=
      refreshOthers_none bs (i + 1) fun b hb => h b (mem_cons_of_mem _ hb)
    rw [refreshOthers]
    split
    · simp only [hbs]
    · simp only [bucketRefresh, hb, Bool.false_eq_true, if_false, hbs, nil_append]

/-! ## Reading a region -/

theorem readFull_header (hstride : 8 ≤ cfg.stride) (hi : i < cfg.count) :
    readFull cfg dev.bytes (cfg.off i) 8 = (dev.region i).take 8 := by
  have hoff := cfg.off_add_le hi
  rw [readFull_eq (by rw [dev.length_eq]; omega)]
  exact (take_slice _ hstride).symm

/-- With metadata in front, a read delivers exactly what was written. -/
theorem directRead_image (hroom : payload.length + 8 ≤ cfg.stride) (hi : i < cfg.count)
    (hlen : payload.length < 256 ^ 4)
    (h : (dev.region i).take (8 + payload.length) = directMeta payload.length ++ payload) :
    stateBackendBucketDirectRead cfg none dev i = .data false payload := by
  have hoff := cfg.off_add_le hi
  have hheader : readFull cfg dev.bytes (cfg.off i) 8 = directMeta payload.length := by
    rw [readFull_header (by omega) hi, ← take_take_of_le _ (by omega : 8 ≤ 8 + payload.length), h,
      take_append_of_le_length (by rw [directMeta_length]),
      take_of_length_le (by rw [directMeta_length])]
  have hdata : readFull cfg dev.bytes (cfg.off i + 8) payload.length = payload := by
    have hslice : slice 8 payload.length (dev.region i) = payload := by
      rw [← slice_take _ (Nat.le_refl _), h, slice_append_right _ (by rw [directMeta_length]),
        directMeta_length, slice_zero, take_length]
    unfold Device.region at hslice
    rw [slice_slice _ (by omega)] at hslice
    rw [readFull_eq (by rw [dev.length_eq]; omega), hslice]
  have hmagic : leNat ((directMeta payload.length).take 4) = directMagic := by
    unfold directMeta
    rw [take_append_of_le_length (by simp), take_of_length_le (by simp),
      leNat_leBytes_of_lt (by decide)]
  have hreadLen : leNat ((directMeta payload.length).drop 4) = payload.length := by
    unfold directMeta
    rw [drop_append_of_le_length (by simp), drop_eq_nil_of_le (by simp), nil_append,
      leNat_leBytes_of_lt hlen]
  unfold stateBackendBucketDirectRead
  simp only [hheader, hmagic, hreadLen, if_true, hdata]
  rw [if_neg (by omega)]

/-- Without metadata, and without anything that looks like it, a read
delivers the whole region. -/
theorem directRead_noMeta (hcompat : cfg.backwardCompatible = true) (hstride : 8 ≤ cfg.stride)
     (hi : i < cfg.count) (hmagic : leNat ((dev.region i).take 4) ≠ directMagic) :
    stateBackendBucketDirectRead cfg none dev i = .data false (dev.region i) := by
  have hoff := cfg.off_add_le hi
  have hwhole : readFull cfg dev.bytes (cfg.off i) cfg.stride = dev.region i :=
    readFull_eq (by rw [dev.length_eq]; exact hoff)
  unfold stateBackendBucketDirectRead
  simp only [readFull_header hstride hi, take_take_of_le _ (by decide : 4 ≤ 8), hmagic, if_false,
    hcompat, Bool.not_true, Bool.false_eq_true, hwhole]

/-- The eight bytes behind a bucket, which a read can reach. -/
def Device.behind (dev : Device cfg) (i : Nat) : Bytes := slice (cfg.off (i + 1)) 8 dev.bytes

/-- The length that the metadata of a bucket say. -/
def Device.metaLen (dev : Device cfg) (i : Nat) : Nat := leNat (slice 4 4 (dev.region i))

theorem DirectConfig.off_succ (i : Nat) : cfg.off (i + 1) = cfg.off i + cfg.stride := by
  unfold DirectConfig.off
  rw [Nat.succ_mul, Nat.add_assoc]

/-- Behind the header the read may go on into the next region: nothing but the length in the
header stops it. -/
theorem slice_behind (hstride : 8 ≤ cfg.stride) {len : Nat} (hlen : len ≤ cfg.stride) :
    slice (cfg.off i + 8) len dev.bytes = ((dev.region i).drop 8 ++ dev.behind i).take len := by
  have hregion : (dev.region i).drop 8 = (dev.bytes.drop (cfg.off i + 8)).take (cfg.stride - 8) := by
    unfold Device.region slice
    rw [drop_take, drop_drop]
  have hbehind : dev.behind i = ((dev.bytes.drop (cfg.off i + 8)).drop (cfg.stride - 8)).take 8 := by
    unfold Device.behind slice
    rw [cfg.off_succ, drop_drop, Nat.add_assoc, Nat.add_sub_cancel' hstride]
  rw [hregion, hbehind, ← take_add, Nat.sub_add_cancel hstride, take_take_of_le _ hlen]
  rfl

/-- With metadata in front, a read goes on behind the bucket. -/
theorem directRead_meta (hstride : 8 ≤ cfg.stride) (hi : i < cfg.count)
    (hmagic : leNat ((dev.region i).take 4) = directMagic) : stateBackendBucketDirectRead cfg none dev i
      = if dev.metaLen i > cfg.stride then .fail .EINVAL
        else .data false (readFull cfg dev.bytes (cfg.off i + 8) (dev.metaLen i)) := by
  have hlen : leNat (((dev.region i).take 8).drop 4) = dev.metaLen i := by
    unfold Device.metaLen slice
    rw [drop_take]
  unfold stateBackendBucketDirectRead
  simp only [readFull_header hstride hi, take_take_of_le _ (by decide : 4 ≤ 8), hmagic, hlen, if_true]

/-- A read depends on the bucket, and on what is behind it if there are metadata. -/
theorem directRead_congr (hstride : 8 ≤ cfg.stride) (hi : i < cfg.count) (hreg : dev'.region i = dev.region i)
    (hbehind : leNat ((dev.region i).take 4) = directMagic → dev'.behind i = dev.behind i) :
    stateBackendBucketDirectRead cfg none dev' i = stateBackendBucketDirectRead cfg none dev i := by
  by_cases hmagic : leNat ((dev.region i).take 4) = directMagic
  · have hmeta : dev'.metaLen i = dev.metaLen i := by
      unfold Device.metaLen
      rw [hreg]
    rw [directRead_meta hstride hi hmagic, directRead_meta hstride hi (by rw [hreg]; exact hmagic), hmeta]
    split
    · rfl
    next hle =>
    have hslice : slice (cfg.off i + 8) (dev.metaLen i) dev'.bytes
        = slice (cfg.off i + 8) (dev.metaLen i) dev.bytes := by
      rw [slice_behind hstride (by omega), slice_behind hstride (by omega), hreg, hbehind hmagic]
    unfold readFull
    rw [hslice]
  · have hoff := cfg.off_add_le hi
    have hwhole : ∀ (d : Device cfg), readFull cfg d.bytes (cfg.off i) cfg.stride = d.region i :=
      fun d => readFull_eq (by rw [d.length_eq]; exact hoff)
    unfold stateBackendBucketDirectRead
    simp only [readFull_header hstride hi, hreg, take_take_of_le _ (by decide : 4 ≤ 8), hmagic, if_false, hwhole]

/-- A read after other regions have changed: up to the head room, the same
buffer. -/
theorem directRead_same (hi : i < cfg.count)
    (hstride : 8 ≤ cfg.stride) (hreg : dev'.region i = dev.region i)
    (h : stateBackendBucketDirectRead cfg none dev i = .data false buf) :
    ∃ buf', stateBackendBucketDirectRead cfg none dev' i = .data false buf' ∧
      buf'.length = buf.length ∧ buf'.take (cfg.stride - 8) = buf.take (cfg.stride - 8) := by
  have hoff := cfg.off_add_le hi
  -- a piece of the region is a piece of the device
  have hpiece : ∀ (d : Device cfg) (n : Nat), n ≤ cfg.stride - 8 →
      slice (cfg.off i + 8) n d.bytes = slice 8 n (d.region i) := by
    intro d n hn
    unfold Device.region
    rw [slice_slice _ (by omega)]
  unfold stateBackendBucketDirectRead at h ⊢
  simp only [readFull_header hstride hi] at h ⊢
  rw [hreg]
  split at h
  · next hmagic =>
    rw [if_pos hmagic]
    split at h
    · cases h
    next hlen =>
    rw [if_neg hlen]
    cases h
    refine ⟨_, rfl, by rw [readFull_length, readFull_length], ?_⟩
    have hcut : ∀ (d : Device cfg) (n : Nat),
        (readFull cfg d.bytes (cfg.off i + 8) n).take (cfg.stride - 8)
          = slice 8 (min n (cfg.stride - 8)) (d.region i) := by
      intro d n
      rw [← hpiece d _ (Nat.min_le_right _ _),
        ← readFull_take (Nat.min_le_left n (cfg.stride - 8)) (by rw [d.length_eq]; omega),
        Nat.min_comm, ← take_take]
      congr 1
      exact (take_of_length_le (by rw [readFull_length])).symm
    rw [hcut, hcut, hreg]
  · next hmagic =>
    rw [if_neg hmagic]
    split at h
    · cases h
    next hcompat =>
    rw [if_neg hcompat]
    cases h
    have hwhole : ∀ (d : Device cfg), readFull cfg d.bytes (cfg.off i) cfg.stride = d.region i :=
      fun d => readFull_eq (by rw [d.length_eq]; exact hoff)
    rw [hwhole, hwhole, hreg]
    exact ⟨_, rfl, rfl, rfl⟩

end Regions

/-! ## Loading from direct buckets -/

/-- Everything a load of a raw state from direct buckets depends on: the
device, which reads fail, which buckets are marked for refresh, and the
format with its magic and flags. No bucket has a buffer yet. -/
structure Load (cfg : DirectConfig) where
  dev : Device cfg
  faults : Nat → Option Errno
  flags : List Bool
  raw : RawFormat
  magic : UInt32
  noAuth : Bool
  flags_length : flags.length = cfg.count

namespace Load

variable {cfg : DirectConfig} (x : Load cfg)

/-- The buckets before the call. -/
def buckets : List Bucket := x.flags.map fun flag => ⟨[], 0, flag⟩

def outcome : Outcome (Device cfg) Unit :=
  stateStorageRead (directDriver cfg x.faults) (rawFormat x.raw x.magic x.noAuth) x.buckets x.dev ()

/-- A buffer verifies, and `p` is its header and data. -/
def Accepts (buf p : Bytes) : Prop :=
  backendFormatRawVerify x.raw x.magic buf x.noAuth = (.ok, p.length) ∧ buf.take p.length = p

/-- Bucket `i` reads and verifies, and `p` is its header and data. -/
def Holds (dev : Device cfg) (fault : Option Errno) (i : Nat) (p : Bytes) : Prop :=
  ∃ buf, stateBackendBucketDirectRead cfg fault dev i = .data false buf ∧ x.Accepts buf p

/-- `p` is what the first bucket that reads and verifies holds. -/
def FirstValid (p : Bytes) : Prop :=
  ∃ u < cfg.count, x.Holds x.dev (x.faults u) u p ∧
    ∀ j < u, ∀ q, ¬ x.Holds x.dev (x.faults j) j q

/-- After the load, every bucket holds `p`. -/
def Restored (p : Bytes) : Prop := ∀ i < cfg.count, x.Holds x.outcome.world none i p

/-- No digest is checked. -/
def NoAuth : Prop := x.raw.auth x.noAuth = .ok none

/-- Every bucket already holds `p` and none is marked for refresh. -/
def Intact (p : Bytes) : Prop :=
  ∀ i < cfg.count, x.flags[i]? = some false ∧ x.Holds x.dev (x.faults i) i p

/-- The first pass at bucket `i`. -/
def scanned (i : Nat) (flag : Bool) : Bucket × Bool :=
  (scanOne (directDriver cfg x.faults) (rawFormat x.raw x.magic x.noAuth) i ⟨[], 0, flag⟩ x.dev ()).1

/-- The second pass rewrites bucket `j`. -/
def Needs (p : Bytes) (j : Nat) : Prop :=
  ∃ flag, x.flags[j]? = some flag ∧ needsWrite (x.scanned j flag).1 p = true

/-- The data of bucket `i` goes on in the next one, which is rewritten. -/
def Reached (p : Bytes) (i : Nat) : Prop :=
  leNat ((x.dev.region i).take 4) = directMagic ∧ i + 1 < cfg.count ∧ x.Needs p (i + 1)

/-- What is read when `p` was written without metadata verifies. -/
structure ReadsBack (p : Bytes) : Prop where
  /-- A bucket with `p` over its beginning, which must not look like metadata, … -/
  rewritten : ∀ i < cfg.count, x.Needs p i → leNat (p.take 4) ≠ directMagic ∧
    x.Accepts (p ++ (x.dev.region i).drop p.length) p
  /-- … one whose end is now the beginning of `p`, … -/
  reached : ∀ i < cfg.count, ¬ x.Needs p i → x.Reached p i →
    x.Accepts (p.take (cfg.stride - 8) ++ p.take (x.dev.metaLen i - (cfg.stride - 8))) p
  /-- … and one that is as before. -/
  kept : ∀ i < cfg.count, ¬ x.Needs p i → ¬ x.Reached p i → x.Holds x.dev none i p

variable {x} {p : Bytes} {fault : Option Errno} {i j : Nat} {buf : Bytes} {dev : Device cfg}

/-- A copy that holds an image holds a valid one. -/
theorem Holds.valid (h : x.Holds dev fault i p) :
    (∃ d, x.raw.auth x.noAuth = .ok d) ∧ ValidRaw x.magic p := by
  obtain ⟨buf, -, hverify, htake⟩ := h
  cases hd : x.raw.auth x.noAuth with
  | error e =>
    exact absurd (by rw [hverify]) (verify_auth_error hd x.magic buf)
  | ok d =>
    have hvalid := ((verify_ok_iff hd buf p.length).mp hverify).2.1
    rw [htake] at hvalid
    exact ⟨⟨d, rfl⟩, hvalid⟩

/-- A read that delivers a buffer: no fault, no complaint, and not more than the stride. -/
theorem directRead_data {unclean : Bool} (h : stateBackendBucketDirectRead cfg fault dev i = .data unclean buf) :
    fault = none ∧ unclean = false ∧ buf.length ≤ cfg.stride := by
  unfold stateBackendBucketDirectRead at h
  split at h
  · cases h
  dsimp only at h
  repeat' split at h
  all_goals cases h
  · exact ⟨rfl, rfl, by rw [readFull_length]; omega⟩
  · exact ⟨rfl, rfl, by rw [readFull_length]⟩

theorem Holds.length (h : x.Holds dev fault i p) : headerSize ≤ p.length ∧ p.length ≤ cfg.stride := by
  refine ⟨h.valid.2.length_ge, ?_⟩
  obtain ⟨buf, hread, hverify, -⟩ := h
  have hle := verify_len_le x.raw x.magic buf x.noAuth
  rw [hverify] at hle
  exact Nat.le_trans hle (directRead_data hread).2.2

theorem ValidRaw.length_lt {magic : UInt32} (h : ValidRaw magic p) : p.length < 2 ^ 17 := by
  have hdl : headerDataLen p < 256 ^ 2 := by
    have hlt := leNat_lt (slice 6 2 p)
    have hlen : (slice 6 2 p).length ≤ 2 := length_take_le _ _
    exact Nat.lt_of_lt_of_le hlt (Nat.pow_le_pow_right (by decide) hlen)
  have hlen := h.length
  unfold headerSize at hlen
  omega

/-- A copy that is read goes to `verify`, and keeps the length that this returns. -/
theorem scanned_data (flag : Bool) (h : stateBackendBucketDirectRead cfg (x.faults i) x.dev i = .data false buf) :
    x.scanned i flag = (Bucket.mk buf (backendFormatRawVerify x.raw x.magic buf x.noAuth).2 flag,
      decide ((backendFormatRawVerify x.raw x.magic buf x.noAuth).1 = .ok)) := by
  unfold scanned scanOne
  have hread : (directDriver cfg x.faults).read x.dev i = (.data false buf, x.dev) := by
    show (stateBackendBucketDirectRead cfg (x.faults i) x.dev i, x.dev) = _
    rw [h]
  rw [hread]
  simp [rawFormat, take_of_length_le]

/-- A direct bucket is read without complaint or not at all; a bucket that
was not read has an empty buffer and is not valid. -/
theorem scanned_cases (i : Nat) (flag : Bool) :
    (∃ buf, stateBackendBucketDirectRead cfg (x.faults i) x.dev i = .data false buf ∧
      x.faults i = none) ∨ ((x.scanned i flag).1.len = 0 ∧ (x.scanned i flag).2 = false) := by
  cases hread : stateBackendBucketDirectRead cfg (x.faults i) x.dev i with
  | data unclean buf =>
    obtain ⟨hfault, rfl, -⟩ := directRead_data hread
    exact Or.inl ⟨buf, rfl, hfault⟩
  | fail e =>
    right
    have hdrv : (directDriver cfg x.faults).read x.dev i = (.fail e, x.dev) := by
      show (stateBackendBucketDirectRead cfg (x.faults i) x.dev i, x.dev) = _
      rw [hread]
    unfold scanned scanOne
    rw [hdrv]
    cases e <;> exact ⟨rfl, rfl⟩

/-- A copy that holds an image passes the scan with it, … -/
theorem Holds.scanned {q : Bytes} (h : x.Holds x.dev (x.faults i) i q) (flag : Bool) :
    ∃ buf, x.scanned i flag = (⟨buf, q.length, flag⟩, true) ∧ buf.take q.length = q := by
  obtain ⟨buf, hread, hverify, htake⟩ := h
  refine ⟨buf, ?_, htake⟩
  rw [scanned_data flag hread, hverify]
  rfl

/-- … and one that passes holds what its buffer begins with. -/
theorem holds_of_scanned {flag : Bool} {b : Bucket} (h : x.scanned i flag = (b, true)) :
    x.Holds x.dev (x.faults i) i (b.buf.take b.len) := by
  rcases scanned_cases i flag with ⟨buf, hread, -⟩ | ⟨-, hnot⟩
  · have hdata := scanned_data flag hread
    rw [h] at hdata
    obtain ⟨rfl, hok⟩ := Prod.mk.inj hdata
    have hok : (backendFormatRawVerify x.raw x.magic buf x.noAuth).1 = .ok := by simpa using hok.symm
    have hlen : (buf.take (backendFormatRawVerify x.raw x.magic buf x.noAuth).2).length
        = (backendFormatRawVerify x.raw x.magic buf x.noAuth).2 :=
      length_take_of_le (verify_len_le x.raw x.magic buf x.noAuth)
    refine ⟨buf, hread, ?_, ?_⟩
    · rw [hlen, ← hok]
    · rw [hlen]
  · rw [h] at hnot
    cases hnot

/-- The first pass, bucket by bucket. -/
def scannedAll (x : Load cfg) : List (Bucket × Bool) :=
  (scan (directDriver cfg x.faults) (rawFormat x.raw x.magic x.noAuth) 0 x.buckets x.dev ()).1

theorem scannedAll_getElem? (k : Nat) : x.scannedAll[k]? = x.flags[k]?.map (x.scanned k) := by
  have hget := (scan_getElem? (directDriver cfg x.faults) (rawFormat x.raw x.magic x.noAuth) x.dev ()
    (fun _ => rfl) (fun _ => rfl) x.buckets 0).2 k
  unfold scannedAll
  rw [hget, buckets, getElem?_map, Option.map_map, Nat.zero_add]
  rfl

theorem flags_getElem? (hi : i < cfg.count) : ∃ flag, x.flags[i]? = some flag := by
  rw [← x.flags_length] at hi
  exact ⟨_, getElem?_eq_getElem hi⟩

/-- The bucket in use. -/
theorem selected (hret : x.outcome.ret = .ok p) :
    ∃ u b flag, firstValid x.scannedAll = some (u, b) ∧ b.buf.take b.len = p ∧
      x.flags[u]? = some flag ∧ x.scanned u flag = (b, true) := by
  unfold outcome at hret
  rw [stateStorageRead_ret] at hret
  split at hret
  · cases hret
  next u b hfirst =>
  cases hret
  have hget : x.flags[u]?.map (x.scanned u) = some (b, true) := by
    rw [← scannedAll_getElem?]
    exact (firstValid_iff.mp hfirst).1
  obtain ⟨flag, hflag, hscanned⟩ := Option.map_eq_some_iff.mp hget
  exact ⟨u, b, flag, hfirst, rfl, hflag, hscanned⟩

theorem lt_count {flag : Bool} (h : x.flags[i]? = some flag) : i < cfg.count := by
  rw [← x.flags_length]
  exact (List.getElem?_eq_some_iff.mp h).1

/-- A load that succeeds has found such a bucket. -/
theorem firstValid_of_ret (hret : x.outcome.ret = .ok p) : x.FirstValid p := by
  obtain ⟨u, b, flag, hfirst, rfl, hflag, hscanned⟩ := selected hret
  refine ⟨u, lt_count hflag, holds_of_scanned hscanned, ?_⟩
  intro j hj q' hq'
  obtain ⟨b', hb'⟩ := (firstValid_iff.mp hfirst).2 j hj
  have hgetj : x.flags[j]?.map (x.scanned j) = some (b', false) := by
    rw [← scannedAll_getElem?]
    exact hb'
  obtain ⟨flagj, -, hscannedj⟩ := Option.map_eq_some_iff.mp hgetj
  obtain ⟨buf, hvalid, -⟩ := hq'.scanned flagj
  cases hvalid.symm.trans hscannedj

/-- What the load does, in terms of the first pass. -/
theorem outcome_spec (hret : x.outcome.ret = .ok p) :
    ((∀ r ∈ x.outcome.writes, r = .ok) → (cfg.image p).length ≤ cfg.stride →
      Rewritten p x.dev x.outcome.world (x.Needs p)) ∧
    ((∀ j < cfg.count, ¬ x.Needs p j) → x.outcome.world = x.dev) := by
  obtain ⟨u, b, flag, hfirst, htake, hflag, hscanned⟩ := selected hret
  have hb : b = (x.scanned u flag).1 := by rw [hscanned]
  have hworld := (scan_getElem? (directDriver cfg x.faults) (rawFormat x.raw x.magic x.noAuth) x.dev ()
    (fun _ => rfl) (fun _ => rfl) x.buckets 0).1
  have hlist : ∀ j, (x.scannedAll.map Prod.fst)[j]? = x.flags[j]?.map fun f => (x.scanned j f).1 := by
    intro j
    rw [getElem?_map, scannedAll_getElem?, Option.map_map]
    rfl
  -- the other buckets are refreshed first, then the one in use
  have houtcome : x.outcome =
      let others := refreshOthers (directDriver cfg x.faults) p u 0 (x.scannedAll.map Prod.fst) x.dev
      let used := bucketRefresh (directDriver cfg x.faults) p u b others.2.1
      ⟨.ok p, b.buf, used.2.1, (), others.1.set u { used.1 with buf := [], len := 0 },
        others.2.2 ++ used.2.2⟩ := by
    unfold outcome stateStorageRead
    unfold scannedAll at hfirst ⊢
    simp only [hworld, hfirst, htake]
  have hneeds : ∀ j, x.Needs p j ↔
      ∃ b, (x.scannedAll.map Prod.fst)[j]? = some b ∧ needsWrite b p = true := by
    intro j
    rw [hlist j]
    constructor
    · rintro ⟨f, hf, hneed⟩
      exact ⟨_, by rw [hf]; rfl, hneed⟩
    · rintro ⟨b', hb', hneed⟩
      obtain ⟨f, hf, rfl⟩ := Option.map_eq_some_iff.mp hb'
      exact ⟨f, hf, hneed⟩
  rw [houtcome]
  refine ⟨?_, ?_⟩
  · intro hok hfit
    have hlen : (x.scannedAll.map Prod.fst).length ≤ cfg.count := by
      rw [← x.flags_length]
      refine getElem?_eq_none_iff.mp ?_
      rw [hlist, getElem?_eq_none (Nat.le_refl _), Option.map_none]
    have hothers := refreshOthers_rewritten hfit (x.scannedAll.map Prod.fst) 0 x.dev
      (by rw [Nat.zero_add]; exact hlen) fun r hr => hok r (mem_append_left _ hr)
    have hused := bucketRefresh_rewritten hfit (lt_count hflag) fun r hr => hok r (mem_append_right _ hr)
    refine (hothers.trans hused).congr ?_
    intro j
    rw [hneeds j]
    constructor
    · rintro (⟨-, b', hb', hneed⟩ | ⟨rfl, hneed⟩)
      · exact ⟨b', mk_mem_zipIdx_iff_getElem?.mp hb', hneed⟩
      · exact ⟨b, by rw [hlist, hflag, hb]; rfl, hneed⟩
    · rintro ⟨b', hb', hneed⟩
      by_cases hj : j = u
      · subst hj
        rw [hlist, hflag, Option.map_some, ← hb] at hb'
        cases hb'
        exact Or.inr ⟨rfl, hneed⟩
      · exact Or.inl ⟨hj, b', mk_mem_zipIdx_iff_getElem?.mpr hb', hneed⟩
  · intro hnone
    -- nothing is written, so the device stays
    have hall : ∀ b' ∈ x.scannedAll.map Prod.fst, needsWrite b' p = false := by
      intro b' hb'
      obtain ⟨j, hj⟩ := mem_iff_getElem?.mp hb'
      have hjc : j < cfg.count := by
        rw [hlist] at hj
        obtain ⟨f, hf, -⟩ := Option.map_eq_some_iff.mp hj
        exact lt_count hf
      cases hneed : needsWrite b' p with
      | false => rfl
      | true => exact absurd ((hneeds j).mpr ⟨b', hj, hneed⟩) (hnone j hjc)
    have hused : needsWrite b p = false := by
      refine hall b (mem_iff_getElem?.mpr ⟨u, ?_⟩)
      rw [hlist, hflag, hb]
      rfl
    have hothers : (refreshOthers (directDriver cfg x.faults) p u 0 (x.scannedAll.map Prod.fst)
        x.dev).2 = (x.dev, []) := refreshOthers_none _ 0 hall
    simp only [bucketRefresh, hused, Bool.false_eq_true, if_false, hothers]

/-- A bucket that is not rewritten was read, and its buffer starts with
`p`. -/
theorem of_not_needs (hj : j < cfg.count) (hp : headerSize ≤ p.length) (h : ¬ x.Needs p j) :
    x.flags[j]? = some false ∧ x.faults j = none ∧
    ∃ buf, stateBackendBucketDirectRead cfg none x.dev j = .data false buf ∧
      p.length ≤ buf.length ∧ buf.take p.length = p := by
  obtain ⟨flag, hflag⟩ := x.flags_getElem? hj
  have hneed : needsWrite (x.scanned j flag).1 p = false :=
    Bool.eq_false_iff.mpr fun htrue => h ⟨flag, hflag, htrue⟩
  simp only [needsWrite, Bool.or_eq_false_iff, decide_eq_false_iff_not, ne_eq,
    Decidable.not_not] at hneed
  obtain ⟨⟨hrefresh, hlen⟩, htake⟩ := hneed
  rcases scanned_cases j flag with ⟨buf, hread, hfault⟩ | ⟨hzero, -⟩
  · rw [scanned_data flag hread] at hrefresh hlen htake
    dsimp only at hrefresh hlen htake
    rw [hfault] at hread
    refine ⟨by rw [hflag, hrefresh], hfault, buf, hread, ?_, htake⟩
    rw [← hlen]
    exact verify_len_le ..
  · unfold headerSize at hp
    omega

theorem holds_iff_of_read (hread : stateBackendBucketDirectRead cfg none dev i = .data false buf) :
    x.Holds dev none i p ↔ x.Accepts buf p := by
  constructor
  · rintro ⟨buf', hread', h⟩
    cases hread.symm.trans hread'
    exact h
  · exact fun h => ⟨buf, hread, h⟩

theorem not_needs_of_holds (hflag : x.flags[j]? = some false)
    (h : x.Holds x.dev (x.faults j) j p) : ¬ x.Needs p j := by
  rintro ⟨flag, hflag', hneed⟩
  rw [hflag] at hflag'
  cases hflag'
  obtain ⟨buf, hscanned, htake⟩ := h.scanned false
  rw [hscanned] at hneed
  simp [needsWrite, htake] at hneed

/-- Without authentication a bucket holds `p` as soon as its buffer starts
with it. -/
theorem holds_of_prefix (hauth : x.NoAuth) (hvalid : ValidRaw x.magic p)
     (hread : stateBackendBucketDirectRead cfg none dev i = .data false buf)
    (hlen : p.length ≤ buf.length) (htake : buf.take p.length = p) : x.Holds dev none i p := by
  refine ⟨buf, hread, (verify_ok_iff hauth buf p.length).mpr ⟨hlen, ?_, ?_⟩, htake⟩
  · rw [htake]
    exact hvalid
  · exact nofun

variable {dev' : Device cfg}

/-- With head room, a rewritten bucket reads back as `p` alone. -/
theorem read_of_needs (hvalid : ValidRaw x.magic p)
    (hroom : p.length + 8 ≤ cfg.stride) (hrw : Rewritten p x.dev dev' (x.Needs p))
    (hj : j < cfg.count) (hneed : x.Needs p j) : stateBackendBucketDirectRead cfg none dev' j = .data false p := by
  have himage := hrw.image hj hneed
  rw [DirectConfig.image_eq hroom, length_append] at himage
  have hlt := ValidRaw.length_lt hvalid
  exact directRead_image hroom hj (by omega) himage

/-- A state that begins like metadata is not read back: its length would have to be 0,
and then the sum over the data is 0 and not the magic it is taken for. -/
theorem not_holds_of_magic (hvalid : ValidRaw x.magic p) (hi : i < cfg.count) (hle : p.length ≤ cfg.stride)
    (hlt : cfg.stride < p.length + 8) (hpre : (dev.region i).take p.length = p)
    (hmagic : leNat (p.take 4) = directMagic) : ¬ x.Holds dev none i p := by
  rintro ⟨buf, hread, hverify, htake⟩
  have h16 := hvalid.length_ge
  have hoff := cfg.off_add_le hi
  unfold headerSize at h16
  have hfield : ∀ k n, k + n ≤ 16 → slice k n (dev.region i) = slice k n p := fun k n hk => by
    rw [← slice_take (dev.region i) (by omega : k + n ≤ p.length), hpre]
  have hstart : leNat ((dev.region i).take 4) = directMagic := by
    rw [← slice_zero, hfield 0 4 (by decide)]
    exact hmagic
  have hmeta : dev.metaLen i = leNat (slice 4 4 p) := congrArg leNat (hfield 4 4 (by decide))
  rw [directRead_meta (by omega) hi hstart, hmeta] at hread
  split at hread
  · cases hread
  next hlen =>
  cases hread
  have hle' := verify_len_le x.raw x.magic (readFull cfg dev.bytes (cfg.off i + 8) (leNat (slice 4 4 p))) x.noAuth
  rw [hverify, readFull_length] at hle'
  -- the state begins with what comes behind its first eight bytes
  have hrepeats : p.take 4 = slice 8 4 p := by
    rw [← hfield 8 4 (by decide), ← htake, take_take_of_le _ (by omega : 4 ≤ p.length),
      readFull_take (by omega) (by rw [dev.length_eq]; omega)]
    unfold Device.region
    rw [slice_slice _ (by omega)]
  have hdata : headerDataCrc p = directMagic := by
    unfold headerDataCrc
    rw [← hrepeats]
    exact hmagic
  -- the length is in the upper half of the word
  have hlenField : leNat (slice 4 4 p) = leNat (slice 4 2 p) + 65536 * headerDataLen p := by
    have hsplit : slice 4 4 p = slice 4 2 p ++ slice 6 2 p := by
      unfold slice
      rw [show 4 = 2 + 2 from rfl, take_add, drop_drop]
    rw [hsplit, leNat_append, slice_length (by omega : 4 + 2 ≤ p.length)]
    rfl
  have hlength := hvalid.length
  unfold headerSize at hlength
  have hnone : headerDataLen p = 0 := by omega
  have hcrc := hvalid.dataCrc
  rw [hnone, hdata, show slice headerSize 0 p = [] from take_zero] at hcrc
  exact absurd hcrc (by decide)

/-- What is not rewritten begins with `p`, in its own region and the one behind. -/
theorem region_of_not_needs (hi : i < cfg.count) (hvalid : ValidRaw x.magic p) (hle : p.length ≤ cfg.stride)
    (hlt : cfg.stride < p.length + 8) (hneed : ¬ x.Needs p i)
    (hmagic : leNat ((x.dev.region i).take 4) = directMagic) :
    (x.dev.region i).drop 8 = p.take (cfg.stride - 8) ∧ p.length ≤ x.dev.metaLen i
      ∧ x.dev.metaLen i ≤ cfg.stride := by
  have h16 := hvalid.length_ge
  unfold headerSize at h16
  obtain ⟨-, -, buf, hread, hlen, htake⟩ := of_not_needs hi hvalid.length_ge hneed
  rw [directRead_meta (by omega) hi hmagic] at hread
  split at hread
  · cases hread
  next hmeta =>
  cases hread
  rw [readFull_length] at hlen
  refine ⟨?_, hlen, by omega⟩
  have hoff := cfg.off_add_le hi
  have hregion := x.dev.region_length hi
  rw [← htake, take_take_of_le _ (by omega : cfg.stride - 8 ≤ p.length),
    readFull_take (by omega) (by rw [x.dev.length_eq]; omega), slice_behind (by omega) (by omega),
    take_left' (by rw [length_drop, hregion])]

section

variable (hret : x.outcome.ret = .ok p)
include hret

theorem restored_of_intact (h : x.Intact p) : x.Restored p := by
  have hnone : ∀ j < cfg.count, ¬ x.Needs p j :=
    fun j hj => not_needs_of_holds (h j hj).1 (h j hj).2
  have hworld := (outcome_spec hret).2 hnone
  intro i hi
  have hholds := (h i hi).2
  obtain ⟨-, hfault, -⟩ := of_not_needs hi hholds.length.1 (hnone i hi)
  rw [hfault] at hholds
  rw [hworld]
  exact hholds

variable (hw : ∀ r ∈ x.outcome.writes, r = .ok)
include hw

/-- With room for the header a copy that is rewritten can be read back. -/
theorem restored_of_headRoom
    (hauth : x.NoAuth) (hvalid : ValidRaw x.magic p) (hroom : p.length + 8 ≤ cfg.stride) :
    x.Restored p := by
  have hrw := (outcome_spec hret).1 hw (DirectConfig.image_length_le hroom)
  intro i hi
  by_cases hneed : x.Needs p i
  · exact holds_of_prefix hauth hvalid (read_of_needs hvalid hroom hrw hi hneed) (Nat.le_refl _)
      (take_length ..)
  -- not rewritten: the region is as it was, and `p` lies within it
  obtain ⟨-, -, buf, hread, hlen, htake⟩ := of_not_needs hi hvalid.length_ge hneed
  obtain ⟨buf', hread', hlen', htake'⟩ :=
    directRead_same hi (by omega) (hrw.kept i hi hneed) hread
  refine holds_of_prefix hauth hvalid hread' (by omega) ?_
  rw [← take_take_of_le buf' (by omega : p.length ≤ cfg.stride - 8), htake',
    take_take_of_le buf (by omega), htake]

/-- Without head room, all copies are good again if and only if what is read back is. -/
theorem restored_iff_of_noRoom (hvalid : ValidRaw x.magic p) (hle : p.length ≤ cfg.stride)
    (hroom : ¬ cfg.headRoom p.length) : x.Restored p ↔ x.ReadsBack p := by
  have himage : cfg.image p = p := if_neg hroom
  have hrw := (outcome_spec hret).1 hw (by rw [himage]; exact hle)
  have h16 := hvalid.length_ge
  unfold headerSize at h16
  have hlt : cfg.stride < p.length + 8 := Nat.lt_of_not_le fun h => hroom (Or.inr h)
  have hstride : 8 ≤ cfg.stride := by omega
  -- a bucket that was rewritten
  have hwritten : ∀ i < cfg.count, x.Needs p i → (x.Holds x.outcome.world none i p ↔
      leNat (p.take 4) ≠ directMagic ∧ x.Accepts (p ++ (x.dev.region i).drop p.length) p) := by
    intro i hi hneed
    have hregion := hrw.written i hi hneed
    rw [himage] at hregion
    by_cases hmagic : leNat (p.take 4) = directMagic
    · have hpre : (x.outcome.world.region i).take p.length = p := by rw [hregion, take_left]
      exact iff_of_false (not_holds_of_magic hvalid hi hle hlt hpre hmagic) fun h => h.1 hmagic
    · have hstart : leNat ((x.outcome.world.region i).take 4) ≠ directMagic := by
        rwa [hregion, take_append_of_le_length (by omega)]
      have hread := directRead_noMeta ((hrw.allowed i hi hneed).resolve_left hroom) hstride hi hstart
      rw [hregion] at hread
      exact (holds_iff_of_read hread).trans (and_iff_right hmagic).symm
  -- one that was not, and goes on in one that was
  have hreached : ∀ i < cfg.count, ¬ x.Needs p i → x.Reached p i → (x.Holds x.outcome.world none i p ↔
      x.Accepts (p.take (cfg.stride - 8) ++ p.take (x.dev.metaLen i - (cfg.stride - 8))) p) := by
    rintro i hi hneed ⟨hmagic, hnext, hneedNext⟩
    obtain ⟨hown, hplen, hmeta⟩ := region_of_not_needs hi hvalid hle hlt hneed hmagic
    have hregion := hrw.kept i hi hneed
    have hlen : x.outcome.world.metaLen i = x.dev.metaLen i := by
      unfold Device.metaLen
      rw [hregion]
    have hbehind : x.outcome.world.behind i = p.take 8 := by
      have hnextRegion := hrw.image hnext hneedNext
      rw [himage] at hnextRegion
      rw [← hnextRegion, take_take_of_le _ (by omega : 8 ≤ p.length)]
      exact (take_slice _ hstride).symm
    have hoff := cfg.off_add_le hnext
    rw [cfg.off_succ] at hoff
    have hread := directRead_meta hstride hi (by rw [hregion]; exact hmagic)
    rw [hlen, if_neg (by omega), readFull_eq (by rw [Device.length_eq]; omega),
      slice_behind hstride hmeta, hregion, hown, hbehind, take_append, take_of_length_le (by
        rw [length_take]; omega), length_take, Nat.min_eq_left (by omega), take_take_of_le _ (by omega)] at hread
    exact holds_iff_of_read hread
  -- one that is as before
  have hkept : ∀ i < cfg.count, ¬ x.Needs p i → ¬ x.Reached p i →
      (x.Holds x.outcome.world none i p ↔ x.Holds x.dev none i p) := by
    intro i hi hneed hnot
    unfold Holds
    rw [directRead_congr hstride hi (hrw.kept i hi hneed) fun hmagic => by
      by_cases hnext : i + 1 < cfg.count
      · have hregion := hrw.kept (i + 1) hnext fun hneedNext => hnot ⟨hmagic, hnext, hneedNext⟩
        have htake := congrArg (List.take 8) hregion
        unfold Device.region at htake
        rwa [take_slice _ hstride, take_slice _ hstride] at htake
      · have hlast : i + 1 = cfg.count := by omega
        have hbehind := congrArg (List.take 8) hrw.behind
        unfold DirectConfig.stop at hbehind
        rwa [← hlast] at hbehind]
  constructor
  · intro h
    exact ⟨fun i hi hneed => (hwritten i hi hneed).mp (h i hi),
      fun i hi hneed hr => (hreached i hi hneed hr).mp (h i hi),
      fun i hi hneed hr => (hkept i hi hneed hr).mp (h i hi)⟩
  · intro h i hi
    by_cases hneed : x.Needs p i
    · exact (hwritten i hi hneed).mpr (h.rewritten i hi hneed)
    · by_cases hr : x.Reached p i
      · exact (hreached i hi hneed hr).mpr (h.reached i hi hneed hr)
      · exact (hkept i hi hneed hr).mpr (h.kept i hi hneed hr)

/-- With a digest to check, a bucket that was rewritten is lost: its digest
is not there any more. -/
theorem intact_of_restored
    {dg : Digest} (hauth : x.raw.auth x.noAuth = .ok (some dg)) (hvalid : ValidRaw x.magic p)
    (hroom : p.length + 8 ≤ cfg.stride) (h : x.Restored p) : x.Intact p := by
  have hrw := (outcome_spec hret).1 hw (DirectConfig.image_length_le hroom)
  have hnone : ∀ j < cfg.count, ¬ x.Needs p j := by
    intro j hj hneed
    obtain ⟨buf, hread, hverify, -⟩ := h j hj
    rw [read_of_needs hvalid hroom hrw hj hneed] at hread
    cases hread
    have hle := ((verify_ok_iff hauth p p.length).mp hverify).1
    have hpos := dg.length_pos
    have hdlen : digestLength (some dg) = dg.length := rfl
    omega
  have hworld := (outcome_spec hret).2 hnone
  intro i hi
  have hholds := h i hi
  rw [hworld] at hholds
  obtain ⟨hflag, hfault, -⟩ := of_not_needs hi hvalid.length_ge (hnone i hi)
  rw [hfault]
  exact ⟨hflag, hholds⟩

end

end Load

/-- **Redundancy restoration.** A load that succeeds, with all its writes,
leaves every bucket readable and valid with the header and data of the
bucket in use, if and only if there was nothing to rewrite, or there is head
room for metadata and no digest is checked, or without head room what was
written reads back. -/
theorem storage_restores {cfg : DirectConfig} (x : Load cfg) (p : Bytes)
    (hret : x.outcome.ret = .ok p) (hw : ∀ r ∈ x.outcome.writes, r = .ok) :
    x.Restored p ↔ x.Intact p ∨ (cfg.headRoom p.length ∧ x.NoAuth) ∨ (¬ cfg.headRoom p.length ∧ x.ReadsBack p) := by
  obtain ⟨u, hu, hholds, -⟩ := Load.firstValid_of_ret hret
  obtain ⟨⟨d, hd⟩, hvalid⟩ := hholds.valid
  obtain ⟨h16, hle⟩ := hholds.length
  have hroomle : cfg.headRoom p.length → p.length + 8 ≤ cfg.stride := by
    rintro (h | h)
    · unfold headerSize at h16
      omega
    · exact h
  constructor
  · intro hrestored
    by_cases hroom : cfg.headRoom p.length
    · cases d with
      | none => exact Or.inr (Or.inl ⟨hroom, hd⟩)
      | some dg => exact Or.inl (Load.intact_of_restored hret hw hd hvalid (hroomle hroom) hrestored)
    · exact Or.inr (Or.inr ⟨hroom, (Load.restored_iff_of_noRoom hret hw hvalid hle hroom).mp hrestored⟩)
  · rintro (hintact | ⟨hroom, hauth⟩ | ⟨hroom, hback⟩)
    · exact Load.restored_of_intact hret hintact
    · exact Load.restored_of_headRoom hret hw hauth hvalid (hroomle hroom)
    · exact (Load.restored_iff_of_noRoom hret hw hvalid hle hroom).mpr hback

/-- Two buckets of 64 bytes. -/
def smallDirect : DirectConfig := ⟨0, 64, 2, 128, false, [], by decide⟩

/-- A load with a stored copy in the first bucket and none in the second. -/
def oneCopy (raw : RawFormat) (stored : Bytes) : Load smallDirect where
  dev :=
    ⟨(directMeta stored.length ++ stored ++ replicate 128 0xff).take 128, by
      rw [length_take, length_append, length_replicate]
      show min 128 _ = 128
      omega⟩
  faults := fun _ => none
  flags := [false, false]
  raw := raw
  magic := 0x1234
  noAuth := false
  flags_length := rfl

/-- Header and data of a state with one byte. -/
def oneByteState : Bytes := rawHeader 0x1234 1 (crc32 0 [7]) ++ [7]

theorem storage_restores_blank : (oneCopy ⟨none⟩ oneByteState).Restored oneByteState :=
  (storage_restores (oneCopy ⟨none⟩ oneByteState) oneByteState
    (by decide +kernel) (by decide +kernel)).mpr (Or.inr (Or.inl ⟨by decide +kernel, rfl⟩))

/-- With an HMAC, the blank bucket is filled with a copy that does not
verify. -/
theorem storage_restores_hmac :
    ¬ ∀ (cfg : DirectConfig) (x : Load cfg) (p : Bytes), x.outcome.ret = .ok p →
      (∀ r ∈ x.outcome.writes, r = .ok) → x.Restored p := by
  intro h
  have hrestored := h smallDirect
    (oneCopy ⟨some (.ok crcDigest)⟩ (oneByteState ++ crcDigest.final oneByteState)) oneByteState
    (by decide +kernel) (by decide +kernel)
  obtain ⟨buf, hread, hverify, -⟩ := hrestored 1 (by decide)
  have hgot : stateBackendBucketDirectRead smallDirect none
      (oneCopy ⟨some (.ok crcDigest)⟩
        (oneByteState ++ crcDigest.final oneByteState)).outcome.world 1
      = .data false oneByteState := by
    decide +kernel
  rw [hgot] at hread
  cases hread
  revert hverify
  decide +kernel

end Barebox.State
