import Barebox.Nandbb.Erase
import Barebox.Nandbb.Write

/-!
# The NAND device from open to close

`nand_bb_device_iff` puts reading and writing together: when the device is the
concatenation of its good eraseblocks, and when it is not.
-/

namespace Barebox.Nandbb

open Lib List

variable {mtd : Mtd}
variable {flash : Flash} {bb : Bb} {room len : Nat}

/-- What a turn of the write loop copies: something, and no more than the lower half of
the count, which is all of it below 2 GiB. -/
theorem now_cases {now : Int} (hnow : now = min (Int.bmod len (2 ^ 32)) room) (hpos : ¬ now ≤ 0) :
    0 < now.toNat ∧ now.toNat ≤ len % 2 ^ 32 ∧ len % 2 ^ 32 < 2 ^ 31 ∧ now.toNat ≤ room := by
  unfold Int.bmod at hnow
  dsimp only at hnow
  split at hnow
  all_goals omega

/-- A turn that copies nothing, or less. -/
theorem now_none (hlen : len ≠ 0) (hroom : 0 < room)
    (hno : min (Int.bmod len (2 ^ 32)) (room : Int) ≤ 0) :
    2 ^ 31 ≤ len ∧ (len % 2 ^ 32 < 2 ^ 31 → len % 2 ^ 32 = 0) := by
  unfold Int.bmod at hno
  dsimp only at hno
  split at hno
  all_goals omega

section

variable (haligned : writebufSize ∣ mtd.erasesize)
include haligned

/-- Writes that succeed have written all of their bytes, and those that fail do so because the
chip does not take a full buffer. A write of 2 GiB or more does not return, unless it fails
before the count is zero as an `int`. -/
theorem writeLoop_cases (fuel : Nat) :
    ∀ {flash : Flash} {bb : Bb} {data buf : Bytes}, Wrote mtd flash bb data → buf.length < fuel →
    (∃ flash' bb', writeLoop mtd fuel flash bb buf = (flash', bb', some (.ok ()))
        ∧ Wrote mtd flash' bb' (data ++ buf) ∧ buf.length < 2 ^ 31)
      ∨ (∃ flash' bb' e, writeLoop mtd fuel flash bb buf = (flash', bb', some (.error e))
        ∧ buf.length % 2 ^ 32 < 2 ^ 31 ∧ ¬ Stored mtd (data.length + buf.length % 2 ^ 32))
      ∨ ∃ flash' bb', writeLoop mtd fuel flash bb buf = (flash', bb', none) ∧ 2 ^ 31 ≤ buf.length
        ∧ (buf.length % 2 ^ 32 < 2 ^ 31 → Stored mtd (data.length + buf.length % 2 ^ 32)) := by
  induction fuel with
  | zero =>
    intro _ _ _ _ _ hfuel
    exact absurd hfuel (Nat.not_lt_zero _)
  | succ fuel ih =>
    intro flash bb data buf h hfuel
    have hrem := h.rem
    have hmod := Nat.mod_lt data.length (show 0 < writebufSize by decide)
    generalize hout : writeLoop mtd (fuel + 1) flash bb buf = out
    rw [writeLoop] at hout
    split at hout
    next hz =>
      rw [eq_nil_of_length_eq_zero hz, append_nil]
      exact Or.inl ⟨_, _, hout.symm, h, by decide⟩
    next hnz =>
    dsimp only at hout
    rw [hrem] at hout
    split at hout
    next hno =>
      obtain ⟨hhuge, hzero⟩ := now_none hnz (Nat.sub_pos_of_lt hmod) hno
      refine Or.inr (Or.inr ⟨_, _, hout.symm, hhuge, fun hlt => ?_⟩)
      rw [hzero hlt, Nat.add_zero]
      exact h.stored
    next hpos =>
    generalize hnow : min (Int.bmod buf.length (2 ^ 32)) ((writebufSize - data.length % writebufSize : Nat) : Int)
      = now at hout hpos
    obtain ⟨hn, hle, hlow, hroom⟩ := now_cases hnow.symm hpos
    generalize now.toNat = n at hout hn hle hroom
    have hpiece : (buf.take n).length = n := by
      rw [length_take]
      omega
    -- the piece is kept or flushed, and the rest goes on from there
    have hpart : (∃ flash' bb' e, out = (flash', bb', some (.error e)) ∧ ¬ Stored mtd (data.length + n))
        ∨ ∃ flash₁ bb₁, Wrote mtd flash₁ bb₁ (data ++ buf.take n) ∧ writeLoop mtd fuel flash₁ bb₁ (buf.drop n) = out := by
      split at hout
      next hfull =>
        generalize hflush : nandBbWriteBuf mtd flash _ writebufSize = flush at hout
        obtain ⟨flash₁, bb₁, ret⟩ := flush
        have hcases := h.flush (by omega) haligned (by rw [hpiece]; exact hfull) hflush
        rw [hpiece] at hcases
        obtain ⟨rfl, hwrote⟩ | ⟨⟨e, rfl⟩, hno⟩ := hcases
        · exact Or.inr ⟨_, _, hwrote, hout⟩
        · exact Or.inl ⟨_, _, e, hout.symm, hno⟩
      next hnot =>
      have hwrote := @Wrote.fill mtd flash data (buf.take n) bb h (by omega) (by omega)
      rw [hpiece] at hwrote
      exact Or.inr ⟨_, _, hwrote, hout⟩
    obtain ⟨flash', bb', e, herr, hno⟩ | ⟨flash₁, bb₁, hwrote, hrest⟩ := hpart
    · exact Or.inr (Or.inl ⟨flash', bb', e, herr, hlow, fun hst => hno (hst.mono (by omega))⟩)
    · have hloop := ih hwrote (show (buf.drop n).length < fuel by rw [length_drop]; omega)
      have hleft : (buf.length - n) % 2 ^ 32 = buf.length % 2 ^ 32 - n := by omega
      have hpos : (data ++ buf.take n).length + (buf.length % 2 ^ 32 - n) = data.length + buf.length % 2 ^ 32 := by
        rw [length_append, hpiece]
        omega
      rw [hrest, append_assoc, take_append_drop, length_drop, hleft, hpos] at hloop
      refine hloop.imp (fun ⟨flash', bb', heq, hall, hlt⟩ => ⟨flash', bb', heq, hall, by omega⟩) (Or.imp ?_ ?_)
      · exact fun ⟨flash', bb', e, heq, _, hno⟩ => ⟨flash', bb', e, heq, hlow, hno⟩
      · exact fun ⟨flash', bb', heq, hge, hst⟩ => ⟨flash', bb', heq, by omega, fun _ => hst (by omega)⟩

/-- The same of a call. -/
theorem nandBbWrite_cases {data : Bytes} (h : Wrote mtd flash bb data) (buf : Bytes) (pos : Nat) :
    (∃ flash' bb' n, nandBbWrite mtd flash bb buf pos = (flash', bb', some (.ok n))
        ∧ Wrote mtd flash' bb' (data ++ buf) ∧ buf.length < 2 ^ 31)
      ∨ (∃ flash' bb' e, nandBbWrite mtd flash bb buf pos = (flash', bb', some (.error e))
        ∧ buf.length % 2 ^ 32 < 2 ^ 31 ∧ ¬ Stored mtd (data.length + buf.length % 2 ^ 32))
      ∨ ∃ flash' bb', nandBbWrite mtd flash bb buf pos = (flash', bb', none) ∧ 2 ^ 31 ≤ buf.length
        ∧ (buf.length % 2 ^ 32 < 2 ^ 31 → Stored mtd (data.length + buf.length % 2 ^ 32)) := by
  unfold nandBbWrite
  rcases writeLoop_cases haligned (buf.length + 1) h (Nat.lt_succ_self _) with
    ⟨flash', bb', hloop, hwrote⟩ | ⟨flash', bb', e, hloop, hno⟩ | ⟨flash', bb', hloop, hge⟩
  · rw [hloop]
    exact Or.inl ⟨_, _, _, rfl, hwrote⟩
  · rw [hloop]
    exact Or.inr (Or.inl ⟨_, _, _, rfl, hno⟩)
  · rw [hloop]
    exact Or.inr (Or.inr ⟨_, _, rfl, hge⟩)

/-! ## Writes one after the other -/

/-- Calls of `nand_bb_write`, up to the first one that does not succeed. -/
def writeAll (mtd : Mtd) : Flash → Bb → Nat → List Bytes → Flash × Bb × Option (Except Errno Unit)
  | flash, bb, _, [] => (flash, bb, some (.ok ()))
  | flash, bb, pos, buf :: bufs =>
    match nandBbWrite mtd flash bb buf pos with
    | (flash, bb, some (.ok _)) => writeAll mtd flash bb (pos + buf.length) bufs
    | (flash, bb, some (.error e)) => (flash, bb, some (.error e))
    | (flash, bb, none) => (flash, bb, none)

/-- No write of 2 GiB or more is come to, but one that the chip makes fail in time. The buffers
are behind `pos` bytes that have been written. -/
def NoHugeWrite (mtd : Mtd) : Nat → List Bytes → Prop
  | _, [] => True
  | pos, buf :: bufs =>
    (buf.length < 2 ^ 31 ∨ buf.length % 2 ^ 32 < 2 ^ 31 ∧ ¬ Stored mtd (pos + buf.length % 2 ^ 32))
      ∧ (Stored mtd (pos + buf.length) → NoHugeWrite mtd (pos + buf.length) bufs)

/-- All writes succeed, or one fails, or one is too large. -/
theorem writeAll_cases (bufs : List Bytes) :
    ∀ {flash : Flash} {bb : Bb} {pos : Nat} {data : Bytes}, Wrote mtd flash bb data →
    (∃ flash' bb', writeAll mtd flash bb pos bufs = (flash', bb', some (.ok ()))
        ∧ Wrote mtd flash' bb' (data ++ bufs.flatten) ∧ NoHugeWrite mtd data.length bufs)
      ∨ (∃ flash' bb' e, writeAll mtd flash bb pos bufs = (flash', bb', some (.error e))
        ∧ NoHugeWrite mtd data.length bufs ∧ ¬ Stored mtd (data ++ bufs.flatten).length)
      ∨ ∃ flash' bb', writeAll mtd flash bb pos bufs = (flash', bb', none)
        ∧ ¬ NoHugeWrite mtd data.length bufs := by
  induction bufs with
  | nil =>
    intro flash bb pos data h
    rw [flatten_nil, append_nil]
    exact Or.inl ⟨flash, bb, rfl, h, trivial⟩
  | cons buf bufs ih =>
    intro flash bb pos data h
    rw [NoHugeWrite, writeAll, flatten_cons, ← append_assoc, ← length_append]
    rcases nandBbWrite_cases haligned h buf pos with
      ⟨_, _, _, hwrite, hwrote, hlt⟩ | ⟨_, _, _, hwrite, hlow, hno⟩ | ⟨_, _, hwrite, hge, hst⟩
    · rw [hwrite]
      refine (@ih _ _ (pos + buf.length) _ hwrote).imp ?_ (Or.imp ?_ ?_)
      · exact fun ⟨_, _, heq, hall, hrest⟩ => ⟨_, _, heq, hall, Or.inl hlt, fun _ => hrest⟩
      · exact fun ⟨_, _, _, heq, hrest, hno⟩ => ⟨_, _, _, heq, ⟨Or.inl hlt, fun _ => hrest⟩, hno⟩
      · exact fun ⟨_, _, heq, hno⟩ => ⟨_, _, heq, fun hall => hno (hall.2 hwrote.stored)⟩
    · -- the chip does not take a buffer of this write, and so not all of the data
      rw [hwrite]
      refine Or.inr (Or.inl ⟨_, _, _, rfl, ⟨Or.inr ⟨hlow, hno⟩, fun hst => ?_⟩, fun hst => ?_⟩)
      · rw [length_append] at hst
        exact absurd (hst.mono (by omega)) hno
      · rw [length_append, length_append] at hst
        exact hno (hst.mono (by omega))
    · rw [hwrite]
      refine Or.inr (Or.inr ⟨_, _, rfl, fun hall => ?_⟩)
      rcases hall.1 with hlt | ⟨hlow, hno⟩
      · exact absurd hlt (Nat.not_lt.mpr hge)
      · exact hno (hst hlow)

/-! ## Close -/

/-- A close that returns 0 leaves the data on the device, and one that cannot write
the last of it does not return 0. -/
structure CloseRight (mtd : Mtd) (flash : Flash) (bb : Bb) (data : Bytes) : Prop where
  stored : (nandBbClose mtd flash bb).2.2 = .ok () → Holds mtd (nandBbClose mtd flash bb).1 data
  reported : bb.needsWrite = true →
    (∃ e, (nandBbWriteBuf mtd flash bb (bb.offset % writebufSize)).2.2 = .error e) →
    (nandBbClose mtd flash bb).2.2 ≠ .ok ()

/-- Closing flushes the rest of the buffer, which needs room for it. -/
theorem closeRight_iff {data : Bytes} (h : Wrote mtd flash bb data) : CloseRight mtd flash bb data
      ↔ Room mtd (flushed data.length) (data.length % writebufSize) := by
  have hneeds := h.needs
  have hlt := Nat.mod_lt data.length (show 0 < writebufSize by decide)
  by_cases hrem : data.length % writebufSize = 0
  · -- there is nothing left to write
    have hclean : bb.needsWrite = false := Bool.eq_false_iff.mpr fun hn => hneeds.mp hn hrem
    have hholds := h.holds
    have hflushed : flushed data.length = data.length := by
      unfold flushed
      omega
    rw [hflushed, take_length] at hholds
    refine iff_of_true ⟨fun _ => ?_, fun hn => ?_⟩ ⟨?_, fun i hi => ?_⟩
    · unfold nandBbClose
      rw [hclean]
      exact hholds
    · rw [hclean] at hn
      nomatch hn
    · rw [hflushed, hrem]
      exact hholds.le
    · rw [hrem] at hi
      nomatch hi
  · have hdirty := hneeds.mpr hrem
    have hlen : (bb.writebuf.take (data.length % writebufSize)).length = data.length % writebufSize := by
      rw [length_take, h.buffer]
      omega
    rcases nandBbWriteBuf_cases haligned h.sound h.ahead hlen (by omega) (by omega) flash with
      ⟨hroom, r, hok, -, -, -, hgoods⟩ | ⟨hno, flash', bb', e, herr⟩
    · refine iff_of_true ⟨fun _ => ?_, fun _ ⟨e, he⟩ => ?_⟩ hroom
      · rw [← hlen, ← length_take_of_le (flushed_le data.length)] at hgoods
        have hholds := h.holds.append (by omega) hgoods
        rw [h.pending, take_append_drop] at hholds
        unfold nandBbClose
        rw [if_pos hdirty, h.rem, hok, h.pending]
        exact hholds
      · rw [h.rem, hok] at he
        nomatch he
    · refine iff_of_false (fun hclose => hclose.reported hdirty ⟨e, ?_⟩ rfl) hno
      rw [h.rem, herr]

/-! ## The device -/

/-- All writes return, and when they succeed the close is right. -/
def WritesRight (mtd : Mtd) (flash : Flash) (bb : Bb) (bufs : List Bytes) : Prop :=
  match writeAll mtd flash bb 0 bufs with
  | (flash, bb, some (.ok ())) => CloseRight mtd flash bb bufs.flatten
  | (_, _, some (.error _)) => True
  | (_, _, none) => False

/-- No write that is come to is of 2 GiB or more, and a chip that takes the full buffers takes
what is left when the device is closed. -/
structure TakesAll (mtd : Mtd) (bufs : List Bytes) : Prop where
  noHuge : NoHugeWrite mtd 0 bufs
  rest : Stored mtd bufs.flatten.length →
    Room mtd (flushed bufs.flatten.length) (bufs.flatten.length % writebufSize)

/-- Data is lost exactly where the chip does not take what is left for the close. -/
theorem writes_iff (h : Wrote mtd flash bb []) (bufs : List Bytes) :
    WritesRight mtd flash bb bufs ↔ TakesAll mtd bufs := by
  unfold WritesRight
  rcases writeAll_cases haligned bufs h with
    ⟨_, _, hall, hwrote, hsmall⟩ | ⟨_, _, e, hall, hsmall, hno⟩ | ⟨_, _, hall, hno⟩
  · rw [nil_append] at hwrote
    rw [hall]
    dsimp only
    rw [closeRight_iff haligned hwrote]
    exact ⟨fun hroom => ⟨hsmall, fun _ => hroom⟩, fun htakes => htakes.rest hwrote.stored⟩
  · rw [hall]
    exact iff_of_true trivial ⟨hsmall, fun hst => absurd hst hno⟩
  · rw [hall]
    exact iff_of_false id fun htakes => hno htakes.noHuge

end

/-- After an open, nothing has been written. -/
theorem wrote_open {flags : Nat} {malloc : Bytes} (hmalloc : malloc.length = writebufSize)
    (herased : ∀ i ∈ goods mtd, flash i = 0xff) : Wrote mtd flash ⟨true, false, 0, flags, malloc⟩ [] where
  rem := rfl
  sound := sound_zero mtd
  ahead := rfl
  buffer := hmalloc
  pending := rfl
  needs := iff_of_false Bool.false_ne_true fun h => h rfl
  holds := by
    refine ⟨Nat.zero_le _, eq_replicate_iff.mpr ⟨length_map _, fun b hb => ?_⟩⟩
    obtain ⟨i, hi, rfl⟩ := mem_map.mp hb
    exact herased i hi
  stored := stored_zero mtd

/-- A device that has just been opened delivers what the callers ask for if and only
if they ask for what comes next, and keeps what is written to it if and only if
there is nothing wrong with what is left for the close. -/
theorem nand_bb_device_iff (mtd : Mtd) (haligned : writebufSize ∣ mtd.erasesize) (bb : Bb)
    (hclosed : bb.opened = false) (flags : Nat) (malloc : Bytes) (hmalloc : malloc.length = writebufSize) :
    (∀ ops, (∀ flash, ReadsRight mtd flash (nandBbOpen bb flags malloc).1 ops) ↔ InStep mtd flags 0 ops)
      ∧ ∀ flash bufs, (∀ i ∈ goods mtd, flash i = 0xff) →
        (WritesRight mtd flash (nandBbOpen bb flags malloc).1 bufs
          ↔ TakesAll mtd bufs) := by
  have hopen : (nandBbOpen bb flags malloc).1 = ⟨true, false, 0, flags, malloc⟩ := by
    unfold nandBbOpen
    rw [hclosed]
    rfl
  rw [hopen]
  exact ⟨fun ops => reads_iff ops ⟨sound_zero mtd, rfl⟩,
    fun flash bufs herased => writes_iff haligned (wrote_open hmalloc herased) bufs⟩

/-- Before the first open. -/
def closed : Bb := ⟨false, false, 0, 0, []⟩

def heap : Bytes := replicate 8192 0

theorem heap_length : heap.length = writebufSize := length_replicate

/-- A chip whose first eraseblock is bad. -/
def badFirst : Mtd := { fourBlocks with bad := fun k => k = 0 }

/-- Its device begins with the second one. -/
theorem goods_badFirst : goods badFirst = range' 8192 3 ++ goodsFrom badFirst 8195 := by
  have hskip : goods badFirst = goodsFrom badFirst 8192 := (goodsFrom_bad (sound_zero badFirst) rfl).1
  rw [hskip]
  exact goodsFrom_good rfl (by decide) (by decide)

/-- A read, a seek and a read behind it; and three bytes that are written behind the bad
eraseblock. -/
theorem badFirst_device : writebufSize ∣ badFirst.erasesize ∧ closed.opened = false
    ∧ (∀ flash, ReadsRight badFirst flash (nandBbOpen closed 0 heap).1
        [.read 10 0, .lseek 20000, .read 5 20000])
    ∧ WritesRight badFirst (fun _ => 0xff) (nandBbOpen closed 1 heap).1 [[1, 2, 3]] := by
  refine ⟨⟨1, rfl⟩, rfl, ?_, ?_⟩
  · refine ((nand_bb_device_iff badFirst ⟨1, rfl⟩ closed rfl 0 heap heap_length).1 _).mpr ⟨?_, ?_, trivial⟩
    · exact ⟨Or.inr (Or.inl rfl), fun _ _ => rfl, by omega⟩
    · refine ⟨Or.inr (Or.inl ?_), fun _ _ => rfl, by omega⟩
      unfold seekPos
      rw [if_pos ⟨rfl, by decide⟩]
  · refine ((nand_bb_device_iff badFirst ⟨1, rfl⟩ closed rfl 1 heap heap_length).2 _ _ fun _ _ => rfl).mpr ⟨?_, ?_⟩
    · exact ⟨Or.inl (by decide), fun _ => trivial⟩
    · intro _
      refine ⟨?_, fun _ _ => rfl⟩
      rw [goods_badFirst, length_append, length_range']
      exact Nat.le_add_right_of_le (by decide)

/-- A read at 5 delivers byte 0; and a chip that cannot be written is closed with
success. -/
theorem fourBlocks_not_device :
    ¬ (∀ flash, ReadsRight fourBlocks flash (nandBbOpen closed 0 heap).1 [.read 1 5])
    ∧ ¬ WritesRight { fourBlocks with writeError := fun _ => some .EIo } (fun _ => 0xff)
        (nandBbOpen closed 1 heap).1 [[1, 2, 3]] := by
  constructor
  · intro h
    have hread := (h fun i => if i = 5 then 1 else 0).1
    have hbyte := congrArg Prod.fst (Except.ok.inj hread)
    exact absurd hbyte (by decide)
  · intro h
    have hwrote : Wrote { fourBlocks with writeError := fun _ => some .EIo } (fun _ => 0xff)
      ⟨true, false, 0, 1, heap⟩ [] := wrote_open heap_length fun _ _ => rfl
    have htakes := (writes_iff ⟨1, rfl⟩ hwrote [[1, 2, 3]]).mp h
    nomatch (htakes.rest (stored_zero _)).clean 0 (.head _)

end Barebox.Nandbb
