import Barebox.State.Circular
import Barebox.Lib.Run

/-!
# Flash discipline of the circular bucket

Flash may only be programmed where it is erased, and only inside the
bucket's own eraseblock. `write_area` is what keeps the driver honest: it
is set by `init`, by both branches of `read`, by the ECC handling under
`read`, and by `write` — before programming, so that a failed program is
skipped over next time.

`FlashInv` is the invariant behind it: *everything from `write_area` on is
erased, or `write_area = 0`* (in which case the next write erases first).
It survives every call with every outcome of the mtd layer, with one
proviso the code itself has to make: when a read or a program reports
`-EBADMSG`, the torture test that follows must leave the block erased. A
failed torture test may leave anything behind, and nothing tells the
bucket.

`circularPrepare_cases` says once what a write is about to do; the
invariant and the discipline are both read off from it.
-/

namespace Barebox.State

open Lib List

/-! ## The all-`0xff` check -/

theorem allFfBytes_iff : ∀ (b : Bytes), allFfBytes b = true ↔ ∀ x ∈ b, x = 0xff
  | [] => by simp [allFfBytes]
  | b :: r => by
    rw [forall_mem_cons, ← allFfBytes_iff r, allFfBytes]
    split
    next hb => exact ⟨nofun, fun h => absurd h.1 hb⟩
    next hb => exact (and_iff_right (Decidable.not_not.mp hb)).symm

/-- The word by word check with its tail is the check of all bytes. -/
theorem allFfWords_iff (b : Bytes) : allFfWords b = true ↔ ∀ x ∈ b, x = 0xff := by
  fun_induction allFfWords b with
  | case1 b₀ b₁ b₂ b₃ r hne =>
    -- the first word already differs
    have hnot : ¬ (b₀ = 0xff ∧ b₁ = 0xff ∧ b₂ = 0xff ∧ b₃ = 0xff) :=
      fun h => hne (leNat_word_ones.mpr h)
    constructor
    · intro h
      exact absurd h (by simp)
    · intro h
      exact absurd ⟨h b₀ (by simp), h b₁ (by simp), h b₂ (by simp), h b₃ (by simp)⟩ hnot
  | case2 b₀ b₁ b₂ b₃ heq =>
    obtain ⟨h₀, h₁, h₂, h₃⟩ := leNat_word_ones.mp (by simpa using heq)
    simp [h₀, h₁, h₂, h₃]
  | case3 b₀ b₁ b₂ b₃ r heq _ ih =>
    obtain ⟨h₀, h₁, h₂, h₃⟩ := leNat_word_ones.mp (by simpa using heq)
    rw [ih]
    simp [h₀, h₁, h₂, h₃]
  | case4 r => exact allFfBytes_iff r

/-- `mtd_buf_all_ff` does what it says, whatever the alignment. -/
theorem mtdBufAllFf_iff : ∀ (addr : Nat) (b : Bytes), mtdBufAllFf addr b = true ↔ ∀ x ∈ b, x = 0xff
  | _, [] => by simp [mtdBufAllFf]
  | addr, b :: r => by
    unfold mtdBufAllFf
    split
    next ha =>
      rw [forall_mem_cons, ← mtdBufAllFf_iff (addr + 1) r]
      split
      next hb => exact ⟨nofun, fun h => absurd h.1 hb⟩
      next hb =>
      rw [and_iff_right (Decidable.not_not.mp hb)]
      split
      next hr => simp [hr, mtdBufAllFf]
      next => exact Iff.rfl
    next ha => rw [allFfWords_iff]

/-! ## The backward scan -/

theorem scanBack_le (ws : Nat) (buf : Bytes) : ∀ (n : Nat), scanBack ws buf n ≤ n
  | 0 => Nat.le_refl _
  | n + 1 => by
    unfold scanBack
    split
    · exact Nat.le_succ_of_le (scanBack_le ws buf n)
    · exact Nat.le_refl _

variable {buf : Bytes} {ws len written : Nat}

/-- The scan stops behind the last byte that is not erased. -/
theorem scanBack_erased : ∀ (n : Nat), (∀ x ∈ buf.drop (n * ws), x = 0xff) →
      ∀ x ∈ buf.drop (scanBack ws buf n * ws), x = 0xff
  | 0, h => h
  | n + 1, h => by
    unfold scanBack
    split
    next hff =>
      refine scanBack_erased n ?_
      have hsplit : buf.drop (n * ws) = slice (n * ws) ws buf ++ buf.drop ((n + 1) * ws) := by
        unfold slice
        rw [Nat.succ_mul, ← drop_drop, take_append_drop]
      rw [hsplit]
      exact forall_mem_append.mpr ⟨(mtdBufAllFf_iff _ _).mp hff, h⟩
    next => exact h

/-- The scan stops at a page that is not all `0xff`. -/
theorem scanBack_page : ∀ (n : Nat), 0 < scanBack ws buf n →
    ∃ x ∈ slice ((scanBack ws buf n - 1) * ws) ws buf, x ≠ 0xff
  | 0, h => absurd h (Nat.lt_irrefl 0)
  | n + 1, h => by
    unfold scanBack at h ⊢
    split at h
    next hff =>
      rw [if_pos hff]
      exact scanBack_page n h
    next hff =>
    rw [if_neg hff]
    refine Classical.byContradiction fun hnone => hff ((mtdBufAllFf_iff _ _).mpr ?_)
    intro x hx
    exact Classical.byContradiction fun hne => hnone ⟨x, hx, hne⟩

/-- A page that is not all `0xff`, with only erased bytes behind it, is
where the scan stops. -/
theorem scanBack_eq {k : Nat} (hk : 0 < k)
    (hpage : ∃ x ∈ slice ((k - 1) * ws) ws buf, x ≠ 0xff)
    (herased : ∀ x ∈ buf.drop (k * ws), x = 0xff) : ∀ (n : Nat), k ≤ n → scanBack ws buf n = k
  | 0, hn => by omega
  | n + 1, hn => by
    unfold scanBack
    rcases Nat.lt_or_ge n k with hlt | hge
    · -- the page itself
      obtain rfl : k = n + 1 := by omega
      rw [if_neg]
      intro hff
      obtain ⟨x, hx, hne⟩ := hpage
      exact hne ((mtdBufAllFf_iff _ _).mp hff x hx)
    · -- a page of the erased rest
      rw [if_pos, scanBack_eq hk hpage herased n hge]
      rw [mtdBufAllFf_iff]
      intro x hx
      have hmem : x ∈ (buf.drop (k * ws)).drop ((n - k) * ws) := by
        rw [drop_drop, ← Nat.add_mul, Nat.add_sub_cancel' hge]
        exact mem_of_mem_slice hx
      exact herased x (mem_of_mem_drop hmem)

/-! ## Erased areas -/

namespace Eraseblock

variable {size : Nat} {e : Eraseblock size}

theorem erased_erasedFrom (w : Nat) : (erased size).ErasedFrom w :=
  fun _ hx => eq_of_mem_replicate (mem_of_mem_drop hx)

variable {w : Nat}

theorem ErasedFrom.mono {v : Nat} (h : e.ErasedFrom v) (hvw : v ≤ w) : e.ErasedFrom w := by
  intro x hx
  refine h x ?_
  have hsplit : e.bytes.drop w = (e.bytes.drop v).drop (w - v) := by
    rw [drop_drop, Nat.add_sub_cancel' hvw]
  rw [hsplit] at hx
  exact mem_of_mem_drop hx

theorem erasedFrom_size : e.ErasedFrom size := by
  intro x hx
  rw [drop_eq_nil_of_le (Nat.le_of_eq e.length_eq)] at hx
  exact absurd hx (by simp)

section

variable {off : Nat} {new : Bytes} (h : off + new.length ≤ size) (hw : off + new.length ≤ w)
include h hw

/-- Programming does not touch what lies behind it. -/
theorem program_drop : (e.program off new h).bytes.drop w = e.bytes.drop w := by
  have hb : off + new.length ≤ e.bytes.length := by rw [e.length_eq]; exact h
  exact drop_overwrite_after (by rw [masked_length hb]; exact hw) (by omega)

theorem ErasedFrom.program (he : e.ErasedFrom w) : (e.program off new h).ErasedFrom w := by
  intro x hx
  rw [program_drop h hw] at hx
  exact he x hx

end

end Eraseblock

/-! ## What the calls can do -/

variable {g : Geometry} {c : Circ g}

theorem Geometry.writesize_pos (g : Geometry) : 0 < g.writesize :=
  Nat.lt_of_lt_of_le (by decide) g.writesize_ge

/-- A record that fits the block has not lost bits of its length. -/
theorem writtenLength_eq (hmax : writtenLength g len ≤ g.maxSize)
    (hlen : len + metaSize ≤ writtenLength g len) :
    writtenLength g len = roundup (len + metaSize) g.writesize := by
  have hws : g.writesize ≤ g.maxSize := by
    refine Nat.le_of_dvd ?_ g.writesize_dvd
    unfold metaSize at hlen
    omega
  have hlt := roundup_lt (len + metaSize) g.writesize_pos
  have hmax' := g.maxSize_lt
  unfold writtenLength at hlen hmax ⊢
  -- a quotient of at least one would make the record longer than `len + metaSize + writesize`
  rcases Nat.eq_zero_or_pos (roundup (len + metaSize) g.writesize / 2 ^ 32) with h0 | hpos
  · omega
  · omega

theorem writeBuf_length (h : buf.length + metaSize ≤ written) :
    (writeBuf buf written).length = written := by
  unfold metaSize at h
  simp only [writeBuf, metaSize, length_append, length_replicate, leBytes_length]
  omega

/-- The mtd layer keeps to the proviso: a torture test after `-EBADMSG`
passes, leaving the block erased. -/
def MtdRead.TorturePasses {size : Nat} (m : MtdRead size) : Prop :=
  m.ret = .err .EBADMSG → m.torture = .passed
@[inherit_doc MtdRead.TorturePasses]
def MtdProgram.TorturePasses {size : Nat} (m : MtdProgram size) : Prop :=
  m.ret = .err .EBADMSG → m.torture = .passed

variable {c' : Circ g} {m : MtdRead g.maxSize}

variable {off : Nat}

/-- What `state_mtd_peb_read` can do: fail, deliver the bytes, or deliver
zeroes from a block that was tortured back to the erased state. -/
theorem stateMtdPebRead_cases (hm : m.TorturePasses)
    {r : BucketRead} (h : stateMtdPebRead c off len m = (r, c')) : (∃ e, r = .fail e ∧ c' = c) ∨
    (∃ u, r = .data u (slice off len c.peb.bytes) ∧ c' = c) ∨
    (r = .data true (replicate len 0) ∧ c' = { c with peb := .erased _, writeArea := 0 }) := by
  unfold stateMtdPebRead at h
  split at h
  · cases h
    exact Or.inl ⟨_, rfl, rfl⟩
  split at h
  · cases h
    exact Or.inr (Or.inl ⟨_, rfl, rfl⟩)
  · cases h
    exact Or.inr (Or.inl ⟨_, rfl, rfl⟩)
  · next hbad =>
    rw [hm hbad] at h
    cases h
    exact Or.inr (Or.inr ⟨rfl, rfl⟩)
  · cases h
    exact Or.inl ⟨_, rfl, rfl⟩

/-- What `state_mtd_peb_write` can do to the block: nothing, program some
bytes of the range it was given, or leave it erased after a torture test. -/
theorem stateMtdPebWrite_cases {m : MtdProgram g.maxSize}
    (hm : m.TorturePasses) {r : Ret} (h : stateMtdPebWrite c buf off m = (r, c')) :
    ∃ peb, c' = { c with peb := peb } ∧
      (peb = c.peb ∨ peb = .erased _ ∨
        ∃ (new : Bytes) (hnew : off + new.length ≤ g.maxSize),
          new.length ≤ buf.length ∧ peb = c.peb.program off new hnew) := by
  unfold stateMtdPebWrite at h
  split at h
  · next hin =>
    split at h
    · cases h
      exact ⟨_, rfl, Or.inr (Or.inr ⟨buf, hin.1, Nat.le_refl _, rfl⟩)⟩
    · cases h
      exact ⟨_, rfl, Or.inr (Or.inr ⟨buf, hin.1, Nat.le_refl _, rfl⟩)⟩
    · next hbad =>
      rw [hm hbad] at h
      cases h
      exact ⟨_, rfl, Or.inr (Or.inl rfl)⟩
    · cases h
      exact ⟨_, rfl, Or.inr (Or.inr ⟨_, _, length_take_le _ _, rfl⟩)⟩
  · cases h
    exact ⟨_, rfl, Or.inl rfl⟩

/-- The block a record starting at `start` is programmed onto. -/
def Circ.pebAt (c : Circ g) (start : Nat) : Eraseblock g.maxSize :=
  if start = 0 then .erased _ else c.peb

/-- What a write can do before it reaches the flash: return early with the
bucket as it was, return early after a failed erase, or have the record,
which fits, go to `writeStart` — offset 0 of a freshly erased block, or
`write_area`. -/
theorem circularPrepare_cases (c : Circ g) (buf : Bytes) (me : MtdErase g.maxSize) :
    (∃ e, circularPrepare c buf me = .error (e, c)) ∨
    (∃ e, circularPrepare c buf me = .error (e, { c with writeArea := 0, peb := me.left })) ∨
    (writtenLength g buf.length ≤ g.maxSize ∧
      buf.length + metaSize ≤ writtenLength g buf.length ∧
      let start := c.writeStart (writtenLength g buf.length)
      circularPrepare c buf me = .ok
        (⟨start, writeBuf buf (writtenLength g buf.length), c.pebAt start⟩,
          { c with
            writeArea := start + writtenLength g buf.length
            peb := c.pebAt start })) := by
  unfold circularPrepare
  by_cases hbig : writtenLength g buf.length > g.maxSize
  · exact Or.inl ⟨.E2BIG, by simp [hbig]⟩
  by_cases hshort : writtenLength g buf.length < buf.length + metaSize
  · exact Or.inl ⟨.EFAULT, by simp [hbig, hshort]⟩
  simp only [hbig, hshort, if_false]
  by_cases hzero : c.writeStart (writtenLength g buf.length) = 0
  · cases hret : me.ret with
    | ok =>
      refine Or.inr (Or.inr ⟨by omega, by omega, ?_⟩)
      simp only [hzero, if_true, stateMtdPebErase, hret, Circ.pebAt]
    | err e =>
      refine Or.inr (Or.inl ⟨e, ?_⟩)
      simp only [hzero, if_true, stateMtdPebErase, hret]
  · refine Or.inr (Or.inr ⟨by omega, by omega, ?_⟩)
    simp only [hzero, if_false, Circ.pebAt]

/-- A record never reaches past the block, and only one at the very start
of the block may end where the block does. -/
theorem writeStart_add_le (h : written ≤ g.maxSize) :
    c.writeStart written + written ≤ g.maxSize := by
  unfold Circ.writeStart
  split <;> omega

theorem writeStart_cases (c : Circ g) (written : Nat) :
    c.writeStart written = 0 ∨ c.writeStart written = c.writeArea := by
  unfold Circ.writeStart
  split
  · exact Or.inl rfl
  · exact Or.inr rfl

/-! ## The invariant -/

/-- Everything from `write_area` on is erased, or `write_area = 0`; and
`write_area` is a page boundary of the block. -/
structure FlashInv (c : Circ g) : Prop where
  le : c.writeArea ≤ g.maxSize
  dvd : g.writesize ∣ c.writeArea
  erased : c.writeArea = 0 ∨ c.peb.ErasedFrom c.writeArea

theorem FlashInv.of_zero (h : c.writeArea = 0) : FlashInv c :=
  ⟨by omega, by rw [h]; exact Nat.dvd_zero _, Or.inl h⟩

theorem fresh_flashInv (peb : Eraseblock g.maxSize) : FlashInv (Circ.fresh peb) :=
  FlashInv.of_zero rfl

/-- Where `init` leaves `write_area`, for whatever block it has read. -/
theorem scan_pages (g : Geometry) (buf : Bytes) :
    scanBack g.writesize buf (g.maxSize / g.writesize) * g.writesize ≤ g.maxSize :=
  Nat.le_trans (Nat.mul_le_mul_right _ (scanBack_le _ _ _)) (Nat.div_mul_le_self _ _)

theorem scan_erasedFrom (peb : Eraseblock g.maxSize) : peb.ErasedFrom
      (scanBack g.writesize peb.bytes (g.maxSize / g.writesize) * g.writesize) := by
  refine scanBack_erased _ ?_
  intro x hx
  rw [Nat.div_mul_cancel g.writesize_dvd] at hx
  exact Eraseblock.erasedFrom_size x hx

/-- `init` sets `write_area` to where its scan stopped, and nothing else
that the invariant looks at. -/
theorem circularInit_cases (hm : m.TorturePasses) {r : Ret}
    (h : stateBackendBucketCircularInit c m = (r, c')) : (∃ e, r = .err e ∧ c' = c) ∨ (r = .ok ∧ ∃ buf,
      c'.writeArea = scanBack g.writesize buf (g.maxSize / g.writesize) * g.writesize ∧
      ((buf = c.peb.bytes ∧ c'.peb = c.peb) ∨ c'.peb = .erased _)) := by
  unfold stateBackendBucketCircularInit at h
  cases hread : stateMtdPebRead c 0 g.maxSize m with
  | mk res c₁ =>
    rw [hread] at h
    have hcases : (∃ e, res = .fail e ∧ c₁ = c) ∨
        ∃ u buf, res = .data u buf ∧ ((buf = c.peb.bytes ∧ c₁.peb = c.peb) ∨ c₁.peb = .erased _) := by
      rcases stateMtdPebRead_cases hm hread with hfail | ⟨u, rfl, rfl⟩ | ⟨rfl, rfl⟩
      · exact Or.inl hfail
      · refine Or.inr ⟨u, _, rfl, Or.inl ⟨?_, rfl⟩⟩
        rw [slice_zero, take_of_length_le (Nat.le_of_eq c₁.peb.length_eq)]
      · exact Or.inr ⟨true, _, rfl, Or.inr rfl⟩
    rcases hcases with ⟨e, rfl, rfl⟩ | ⟨u, buf, rfl, hpeb⟩
    · cases h
      exact Or.inl ⟨e, rfl, rfl⟩
    dsimp only at h
    split at h
    · next hstop =>
      cases h
      exact Or.inr ⟨rfl, buf, hstop.symm, hpeb⟩
    · split at h
      · cases h
        exact Or.inr ⟨rfl, buf, rfl, hpeb⟩
      · cases h
        exact Or.inr ⟨rfl, buf, rfl, hpeb⟩

/-- The calls keep the invariant one by one: looking for the last record, … -/
theorem circularInit_flashInv (hm : m.TorturePasses) (hinv : FlashInv c) :
    FlashInv (stateBackendBucketCircularInit c m).2 := by
  cases h : stateBackendBucketCircularInit c m with
  | mk r c' =>
    rcases circularInit_cases hm h with ⟨e, -, rfl⟩ | ⟨-, buf, hwa, hpeb⟩
    · exact hinv
    refine ⟨?_, ?_, Or.inr ?_⟩
    · rw [hwa]
      exact scan_pages g buf
    · rw [hwa]
      exact Nat.dvd_mul_left _ _
    · rcases hpeb with ⟨rfl, hpeb⟩ | hpeb
      · rw [hwa, hpeb]
        exact scan_erasedFrom c.peb
      · rw [hpeb]
        exact Eraseblock.erased_erasedFrom _

theorem stateMtdPebRead_flashInv (off len : Nat) (hm : m.TorturePasses)
    (hinv : FlashInv c) : FlashInv (stateMtdPebRead c off len m).2 := by
  cases h : stateMtdPebRead c off len m with
  | mk r c' =>
    rcases stateMtdPebRead_cases hm h with ⟨_, _, rfl⟩ | ⟨_, _, rfl⟩ | ⟨_, rfl⟩
    · exact hinv
    · exact hinv
    · exact FlashInv.of_zero rfl

/-- … reading, which may erase the block, … -/
theorem circularRead_flashInv (hm : m.TorturePasses) (hinv : FlashInv c) :
    FlashInv (stateBackendBucketCircularRead c m).2 := by
  unfold stateBackendBucketCircularRead
  split
  · exact hinv
  split
  · exact stateMtdPebRead_flashInv _ _ hm (FlashInv.of_zero rfl)
  split
  · exact FlashInv.of_zero rfl
  have hread := stateMtdPebRead_flashInv (c.writeArea - c.lastWrittenLength)
    c.lastWrittenLength hm hinv
  split
  · next heq => rw [heq] at hread; exact hread
  · next heq => rw [heq] at hread; exact hread

/-- Where a record is about to be programmed, everything is erased. -/
theorem FlashInv.pebAt_erasedFrom (hinv : FlashInv c) (written : Nat) :
    (c.pebAt (c.writeStart written)).ErasedFrom (c.writeStart written) := by
  unfold Circ.pebAt
  split
  · exact Eraseblock.erased_erasedFrom _
  next hne =>
  rcases writeStart_cases c written with h0 | hwa
  · exact absurd h0 hne
  · rw [hwa] at hne ⊢
    rcases hinv.erased with h0 | herased
    · exact absurd h0 hne
    · exact herased

theorem FlashInv.writeStart_dvd (hinv : FlashInv c) (written : Nat) :
    g.writesize ∣ c.writeStart written := by
  rcases writeStart_cases c written with h0 | hwa
  · rw [h0]
    exact Nat.dvd_zero _
  · rw [hwa]
    exact hinv.dvd

variable {me : MtdErase g.maxSize}

/-- … and writing, also when it fails half way. -/
theorem circularWrite_flashInv {mp : MtdProgram g.maxSize}
    (hm : mp.TorturePasses) (hinv : FlashInv c) :
    FlashInv (stateBackendBucketCircularWrite c buf me mp).2 := by
  unfold stateBackendBucketCircularWrite
  rcases circularPrepare_cases c buf me with ⟨e, hprep⟩ | ⟨e, hprep⟩ | ⟨hmax, hlen, hprep⟩
  · rw [hprep]
    exact hinv
  · rw [hprep]
    exact FlashInv.of_zero rfl
  rw [hprep]
  dsimp only
  have hdvd : g.writesize ∣ writtenLength g buf.length := by
    rw [writtenLength_eq hmax hlen]
    exact dvd_roundup _ _
  cases hw : stateMtdPebWrite _ _ _ mp with
  | mk r c₂ =>
    obtain ⟨peb, rfl, hpeb⟩ := stateMtdPebWrite_cases hm hw
    refine ⟨writeStart_add_le hmax, Nat.dvd_add (hinv.writeStart_dvd _) hdvd, Or.inr ?_⟩
    -- `write_area` is behind the record already, whatever became of it
    have hbehind := (hinv.pebAt_erasedFrom (writtenLength g buf.length)).mono
      (Nat.le_add_right _ (writtenLength g buf.length))
    rcases hpeb with rfl | rfl | ⟨new, hnew, hle, rfl⟩
    · exact hbehind
    · exact Eraseblock.erased_erasedFrom _
    · rw [writeBuf_length hlen] at hle
      exact hbehind.program hnew (Nat.add_le_add_left hle _)

/-! ## The discipline -/

/-- The program operation a call issues, if any. -/
def CircOp.issued (c : Circ g) : CircOp g.maxSize → Option (ProgramOp g.maxSize)
  | .write buf me _ =>
    match circularPrepare c buf me with
    | .ok (op, _) => some op
    | .error _ => none
  | _ => none

/-- Whatever torture tests the call runs, they pass. -/
def CircOp.TorturePasses {size : Nat} : CircOp size → Prop
  | .init m => m.TorturePasses
  | .read m => m.TorturePasses
  | .write _ _ mp => mp.TorturePasses

/-- A program operation that flash allows: inside the block, onto erased
bytes only. -/
def ProgramOp.Disciplined {size : Nat} (op : ProgramOp size) : Prop :=
  op.offset + op.buf.length ≤ size ∧
  ∀ x ∈ slice op.offset op.buf.length op.onto.bytes, x = 0xff

theorem CircOp.apply_flashInv (c : Circ g) (op : CircOp g.maxSize) (hinv : FlashInv c)
    (hok : op.TorturePasses) : FlashInv (CircOp.apply c op) := by
  cases op with
  | init m => exact circularInit_flashInv hok hinv
  | read m => exact circularRead_flashInv hok hinv
  | write buf me mp => exact circularWrite_flashInv hok hinv

/-- Under the invariant, what a write issues is disciplined. -/
theorem circularPrepare_disciplined
    {op : ProgramOp g.maxSize} (hinv : FlashInv c)
    (h : circularPrepare c buf me = .ok (op, c')) : op.Disciplined := by
  rcases circularPrepare_cases c buf me with ⟨e, hprep⟩ | ⟨e, hprep⟩ | ⟨hmax, hlen, hprep⟩
  · rw [hprep] at h
    cases h
  · rw [hprep] at h
    cases h
  rw [hprep] at h
  cases h
  unfold ProgramOp.Disciplined
  rw [writeBuf_length hlen]
  refine ⟨writeStart_add_le hmax, ?_⟩
  intro x hx
  exact hinv.pebAt_erasedFrom _ x (mem_of_mem_slice hx)

/-- **Flash discipline.** From any contents of the eraseblock, along every
sequence of calls and for every outcome of the mtd layer — torture tests
passing is the one proviso — each program operation the bucket issues
stays inside the block and touches erased bytes only. -/
theorem circular_flash_discipline (peb : Eraseblock g.maxSize) (ops : List (CircOp g.maxSize))
    (hops : ∀ op ∈ ops, op.TorturePasses) :
    Along CircOp.apply (fun c op => ∀ p, op.issued c = some p → p.Disciplined)
      (Circ.fresh peb) ops := by
  refine Along.of_inv CircOp.apply_flashInv ?_ ops (Along.of_forall ops _ hops)
    (fresh_flashInv peb)
  intro c op hinv _ p hp
  cases op with
  | init m => exact absurd hp (by simp [CircOp.issued])
  | read m => exact absurd hp (by simp [CircOp.issued])
  | write buf me mp =>
    simp only [CircOp.issued] at hp
    split at hp
    · next hprep =>
      cases hp
      exact circularPrepare_disciplined hinv hprep
    · cases hp

/-- The discipline on a bad day: a program that dies after one byte, an
ECC error on the read that follows, and an erase that fails. -/
theorem circular_flash_discipline_faulty :
    Along CircOp.apply (fun c op => ∀ p, op.issued c = some p → p.Disciplined)
      (Circ.fresh (g := smallGeometry) (.erased 64))
      [.init .clean, .write [1, 2, 3] .clean ⟨.err .EIo, [1], .passed⟩,
        .read ⟨.err .EBADMSG, .passed⟩, .write [4] ⟨.err .EIo, .erased 64⟩ .clean,
        .write [5] .clean .clean] := by
  refine circular_flash_discipline _ _ ?_
  intro op hop
  simp only [mem_cons, not_mem_nil, or_false] at hop
  rcases hop with rfl | rfl | rfl | rfl | rfl
  all_goals exact fun _ => rfl

end Barebox.State
