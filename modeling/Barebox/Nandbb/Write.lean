import Barebox.Nandbb.Read

/-!
# Writing the NAND device — `nand_bb_write`, `nand_bb_close`

Writes collect 8192 bytes and put them behind what there is already; the rest is
put there when the device is closed. `Wrote` is what holds in between. What
`nand_bb_write_buf` says about the rest is thrown away by `nand_bb_close`, and
that is where data is lost (`writes_iff`). Whether the chip takes the full buffers is a matter
of its size, its bad eraseblocks and its errors alone (`Stored`).
-/

namespace Barebox.Nandbb

open Lib List

variable {mtd : Mtd} {flash : Flash} {r : Nat} {buf : Bytes}

/-- A write programs all of its bytes, or fails. -/
theorem mtdWrite_cases (mtd : Mtd) (flash : Flash) (r : Nat) (buf : Bytes) :
    (∀ i ∈ range' r buf.length, mtd.writeError i = none) ∧ mtdWrite mtd flash r buf = .ok (program flash r buf)
      ∨ (∃ i ∈ range' r buf.length, mtd.writeError i ≠ none) ∧ ∃ e, mtdWrite mtd flash r buf = .error e := by
  unfold mtdWrite
  cases hfind : (range' r buf.length).findSome? mtd.writeError with
  | none => exact Or.inl ⟨findSome?_eq_none_iff.mp hfind, rfl⟩
  | some e =>
    obtain ⟨i, hi, herr⟩ := exists_of_findSome?_eq_some hfind
    exact Or.inr ⟨⟨i, hi, by rw [herr]; nofun⟩, e, rfl⟩

/-! ## A buffer -/

section

variable (haligned : writebufSize ∣ mtd.erasesize)
include haligned

/-- A buffer does not come over the end of an eraseblock. -/
theorem mod_add_le {n : Nat} (hr : writebufSize ∣ r) (hn : n ≤ writebufSize) :
    r % mtd.erasesize + n ≤ mtd.erasesize := by
  obtain ⟨a, ha⟩ : writebufSize ∣ r % mtd.erasesize := (Nat.dvd_mod_iff haligned).mpr hr
  obtain ⟨b, hb⟩ := haligned
  have hlt := Nat.mod_lt r mtd.pos
  have hab : a < b := by
    rw [ha, hb] at hlt
    exact Nat.lt_of_mul_lt_mul_left hlt
  have hle : writebufSize * (a + 1) ≤ writebufSize * b := Nat.mul_le_mul_left _ hab
  rw [Nat.mul_succ] at hle
  omega

omit haligned in
/-- Where the device has the positions, it has the bytes. -/
theorem fits_of_room {n : Nat} (hgood : mtd.blockIsbad r = false)
    (hblock : r % mtd.erasesize + n ≤ mtd.erasesize) (hr : r < mtd.size)
    (hroom : n ≤ (goodsFrom mtd r).length) : r + n ≤ mtd.size := by
  refine Nat.le_of_not_lt fun hlt => ?_
  rw [goodsFrom_good (n := mtd.size - r) hgood (by omega) (by omega), length_append,
    length_range', goodsFrom_end (by omega), length_nil] at hroom
  omega

/-- Where there is room for the buffer, it is written to the next positions. Where there
is none, or the chip fails, the loop fails. -/
theorem writeBufLoop_cases (flash : Flash) (fuel : Nat) : ∀ (offset : Nat) {r : Nat} (buf : Bytes), Sound mtd r →
    writebufSize ∣ r → 0 < fuel → mtd.size + 1 < r + fuel → 0 < buf.length → buf.length ≤ writebufSize →
    ((buf.length ≤ (goodsFrom mtd r).length ∧ ∀ i ∈ (goodsFrom mtd r).take buf.length, mtd.writeError i = none)
      ∧ ∃ r', writeBufLoop mtd fuel flash offset r buf = (program flash r' buf, offset + (r' - r), .ok ())
        ∧ r ≤ r' ∧ writebufSize ∣ r' ∧ mtd.blockIsbad r' = false ∧ r' + buf.length ≤ mtd.size
        ∧ goodsFrom mtd r' = goodsFrom mtd r)
    ∨ (¬ (buf.length ≤ (goodsFrom mtd r).length ∧ ∀ i ∈ (goodsFrom mtd r).take buf.length, mtd.writeError i = none))
      ∧ ∃ flash' offset' e, writeBufLoop mtd fuel flash offset r buf = (flash', offset', .error e) := by
  induction fuel with
  | zero =>
    intro offset r buf _ _ hfuel
    exact absurd hfuel (Nat.lt_irrefl 0)
  | succ fuel ih =>
    intro offset r buf hsound hr _ hfuel hpos hle
    have hepos := mtd.pos
    generalize hout : writeBufLoop mtd (fuel + 1) flash offset r buf = out
    rw [writeBufLoop, if_neg (Nat.ne_of_gt hpos)] at hout
    split at hout
    next hend =>
      refine Or.inr ⟨fun hroom => ?_, _, _, _, hout.symm⟩
      rw [goodsFrom_end hend] at hroom
      exact absurd hroom.1 (Nat.not_le_of_lt hpos)
    next hin =>
    split at hout
    next hbad =>
      -- a bad block is skipped, and the address goes on behind it
      obtain ⟨hskip, hsound'⟩ := goodsFrom_bad hsound hbad
      rw [hskip, ← hout]
      rcases ih (offset + mtd.erasesize) buf hsound' (Nat.dvd_add hr haligned) (by omega) (by omega) hpos hle with
        ⟨hroom, r', hloop, hler, hrest⟩ | hfails
      · refine Or.inl ⟨hroom, r', ?_, by omega, hrest⟩
        rw [hloop, show offset + mtd.erasesize + (r' - (r + mtd.erasesize)) = offset + (r' - r) by omega]
      · exact Or.inr hfails
    next hgood =>
    have hgood := Bool.eq_false_iff.mpr hgood
    -- the buffer does not cross the end of the block
    have hblock := mod_add_le haligned hr hle
    dsimp only at hout
    rw [Nat.min_eq_left (by omega), take_length, drop_length] at hout
    split at hout
    next hno =>
      refine Or.inr ⟨fun hroom => ?_, _, _, _, hout.symm⟩
      have hfits := fits_of_room hgood hblock (by omega) hroom.1
      omega
    next hfits =>
    have hgoods := goodsFrom_good hgood hblock (by omega)
    rcases mtdWrite_cases mtd flash r buf with ⟨hclean, hwrite⟩ | ⟨⟨i, hi, herr⟩, e, hwrite⟩
    · rw [hwrite] at hout
      refine Or.inl ⟨?_, r, ?_, Nat.le_refl r, hr, hgood, by omega, rfl⟩
      · rw [hgoods, take_left' length_range', length_append, length_range']
        exact ⟨Nat.le_add_right _ _, hclean⟩
      · rw [← hout, Nat.sub_self]
        cases fuel with
        | zero => rfl
        | succ fuel => rfl
    · rw [hwrite] at hout
      refine Or.inr ⟨fun hroom => ?_, _, _, _, hout.symm⟩
      rw [hgoods, take_left' length_range'] at hroom
      exact herr (hroom.2 i hi)

end

/-! ## What is on the device -/

theorem program_at {k : Nat} (hk : k < buf.length) (herased : flash (r + k) = 0xff) :
    program flash r buf (r + k) = buf.getD k 0 := by
  unfold program
  rw [if_pos (by omega), herased, Nat.add_sub_cancel_left]
  exact UInt8.neg_one_and

theorem program_other {i : Nat} (h : i < r ∨ r + buf.length ≤ i) : program flash r buf i = flash i := by
  unfold program
  rw [if_neg (by omega)]

/-- Programming erased bytes. -/
theorem map_program (herased : ∀ i ∈ range' r buf.length, flash i = 0xff) :
    (range' r buf.length).map (program flash r buf) = buf := by
  refine ext_getElem (by rw [length_map, length_range']) fun k hk hk' => ?_
  rw [getElem_map, getElem_range', Nat.one_mul, program_at hk',
    getD_eq_getElem?_getD, getElem?_eq_getElem hk']
  · rfl
  · exact herased _ (mem_range'_1.mpr ⟨by omega, by omega⟩)

/-- The device has the data, and is erased behind it. -/
structure Holds (mtd : Mtd) (flash : Flash) (data : Bytes) : Prop where
  le : data.length ≤ (goods mtd).length
  eq : contents mtd flash = data ++ replicate ((goods mtd).length - data.length) 0xff

variable {data piece : Bytes}

/-- Behind what was written the chip is erased. -/
theorem Holds.erased (h : Holds mtd flash data) :
    ∀ i ∈ (goods mtd).drop data.length, flash i = 0xff := by
  intro i hi
  have hbehind := congrArg (List.drop data.length) h.eq
  unfold contents at hbehind
  rw [← map_drop, drop_left' rfl] at hbehind
  have hmem : flash i ∈ ((goods mtd).drop data.length).map flash := mem_map_of_mem hi
  rw [hbehind] at hmem
  exact eq_of_mem_replicate hmem

/-- A buffer is written behind the data. -/
theorem Holds.append (h : Holds mtd flash data) (hpos : 0 < buf.length)
    (hgoods : (goods mtd).drop data.length = range' r buf.length ++ goodsFrom mtd (r + buf.length)) :
    Holds mtd (program flash r buf) (data ++ buf) := by
  have hsplit : goods mtd = (goods mtd).take data.length
      ++ (range' r buf.length ++ goodsFrom mtd (r + buf.length)) := by
    rw [← hgoods, take_append_drop]
  have hlen := congrArg List.length hgoods
  rw [length_drop, length_append, length_range'] at hlen
  -- in front of the buffer, in it, and behind it
  have hfront : ((goods mtd).take data.length).map (program flash r buf) = data := by
    have hdata := congrArg (List.take data.length) h.eq
    unfold contents at hdata
    rw [← map_take, take_left' rfl] at hdata
    refine (map_congr_left fun i hi => program_other (Or.inl ?_)).trans hdata
    have hsorted := goods_sorted mtd
    rw [hsplit, pairwise_append] at hsorted
    refine hsorted.2.2 i hi r (mem_append_left _ ?_)
    exact mem_range'_1.mpr ⟨Nat.le_refl r, by omega⟩
  have hin : (range' r buf.length).map (program flash r buf) = buf := by
    refine map_program fun i hi => h.erased i ?_
    rw [hgoods]
    exact mem_append_left _ hi
  have hbehind : (goodsFrom mtd (r + buf.length)).map (program flash r buf)
      = replicate (goodsFrom mtd (r + buf.length)).length 0xff := by
    refine eq_replicate_iff.mpr ⟨length_map _, fun b hb => ?_⟩
    obtain ⟨i, hi, rfl⟩ := mem_map.mp hb
    have hge := (mem_range'_1.mp (mem_of_mem_filter hi)).1
    rw [program_other (Or.inr hge)]
    refine h.erased i ?_
    rw [hgoods]
    exact mem_append_right _ hi
  refine ⟨by rw [length_append]; omega, ?_⟩
  unfold contents
  rw [hsplit, map_append, map_append, hbehind, ← append_assoc, ← hsplit,
    length_append]
  congr 2
  omega

/-! ## Between two writes -/

/-- How many of `n` bytes have been flushed. -/
def flushed (n : Nat) : Nat := n - n % writebufSize

/-- The base of the buffer: where it is put, bad eraseblocks apart. -/
def Bb.base (bb : Bb) : Nat := bb.offset - bb.offset % writebufSize

/-- The chip takes `n` bytes at position `pos`. -/
structure Room (mtd : Mtd) (pos n : Nat) : Prop where
  le : pos + n ≤ (goods mtd).length
  clean : ∀ i ∈ ((goods mtd).drop pos).take n, mtd.writeError i = none

/-- It takes bytes at the beginning if it takes each part of them. -/
theorem room_add (mtd : Mtd) (n k : Nat) : Room mtd 0 (n + k) ↔ Room mtd 0 n ∧ Room mtd n k := by
  have htake : ((goods mtd).drop 0).take (n + k) = ((goods mtd).drop 0).take n ++ ((goods mtd).drop n).take k := by
    rw [drop_zero, take_add]
  constructor
  · intro ⟨hle, hclean⟩
    rw [htake, forall_mem_append] at hclean
    exact ⟨⟨by omega, hclean.1⟩, ⟨by omega, hclean.2⟩⟩
  · intro ⟨hfirst, hrest⟩
    refine ⟨by have := hrest.le; omega, ?_⟩
    rw [htake, forall_mem_append]
    exact ⟨hfirst.clean, hrest.clean⟩

/-- The chip takes the full buffers among the first `n` bytes. -/
def Stored (mtd : Mtd) (n : Nat) : Prop := Room mtd 0 (flushed n)

theorem stored_zero (mtd : Mtd) : Stored mtd 0 := ⟨Nat.zero_le _, nofun⟩

/-- What takes more bytes takes fewer. -/
theorem Stored.mono {n m : Nat} (h : Stored mtd m) (hle : n ≤ m) : Stored mtd n := by
  have hflushed : flushed n ≤ flushed m := by
    unfold flushed writebufSize
    omega
  unfold Stored at h ⊢
  rw [← Nat.add_sub_cancel' hflushed, room_add] at h
  exact h.1

/-- The bytes from the beginning on have been written: the buffer has the last of
them. -/
structure Wrote (mtd : Mtd) (flash : Flash) (bb : Bb) (data : Bytes) : Prop where
  rem : bb.offset % writebufSize = data.length % writebufSize
  sound : Sound mtd bb.base
  ahead : goodsFrom mtd bb.base = (goods mtd).drop (flushed data.length)
  buffer : bb.writebuf.length = writebufSize
  pending : bb.writebuf.take (data.length % writebufSize) = data.drop (flushed data.length)
  needs : bb.needsWrite = true ↔ data.length % writebufSize ≠ 0
  holds : Holds mtd flash (data.take (flushed data.length))
  stored : Stored mtd data.length

theorem dvd_base (bb : Bb) : writebufSize ∣ bb.base := Nat.dvd_sub_mod _

theorem flushed_le (n : Nat) : flushed n ≤ n := Nat.sub_le _ _

section

variable {bb : Bb} {done count : Nat} (haligned : writebufSize ∣ mtd.erasesize)
  (hsound : Sound mtd bb.base) (hahead : goodsFrom mtd bb.base = (goods mtd).drop done)
  (hlen : (bb.writebuf.take count).length = count) (hpos : 0 < count)
  (hle : count ≤ writebufSize)
include haligned hsound hahead hlen hpos hle

/-- A buffer that is flushed is behind what there was. -/
theorem nandBbWriteBuf_cases (flash : Flash) :
    (Room mtd done count ∧ ∃ r, nandBbWriteBuf mtd flash bb count
          = (program flash r (bb.writebuf.take count), { bb with offset := bb.offset + (r - bb.base) }, .ok ())
        ∧ bb.base ≤ r ∧ writebufSize ∣ r ∧ Sound mtd (r + count)
        ∧ (goods mtd).drop done = range' r count ++ goodsFrom mtd (r + count))
    ∨ ¬ Room mtd done count ∧ ∃ flash' bb' e, nandBbWriteBuf mtd flash bb count = (flash', bb', .error e) := by
  have hloop := writeBufLoop_cases haligned flash (mtd.size + 2) bb.offset (bb.writebuf.take count) hsound
    (dvd_base bb) (by omega) (by omega) (by omega) (by omega)
  have hroom : (count ≤ ((goods mtd).drop done).length ∧ ∀ i ∈ ((goods mtd).drop done).take count, mtd.writeError i = none)
      ↔ Room mtd done count := by
    rw [length_drop]
    exact ⟨fun ⟨h, hclean⟩ => ⟨by omega, hclean⟩, fun ⟨h, hclean⟩ => ⟨by omega, hclean⟩⟩
  rw [hlen, hahead, hroom] at hloop
  unfold nandBbWriteBuf
  unfold Bb.base at hloop ⊢
  rcases hloop with ⟨hroom, r, hloop, hler, hr, hgood, hfits, hgoods⟩ | ⟨hno, flash', offset', e, hloop⟩
  · have hblock := mod_add_le haligned hr hle
    refine Or.inl ⟨hroom, r, by rw [hloop], hler, hr, sound_add hgood hblock, ?_⟩
    rw [← hgoods, goodsFrom_good hgood hblock hfits]
  · exact Or.inr ⟨hno, flash', { bb with offset := offset' }, e, by rw [hloop]⟩

end

/-- The buffer with a piece behind what is in it. -/
theorem take_overwrite {w : Nat} (h : w + piece.length ≤ buf.length) :
    (overwrite w piece buf).take (w + piece.length) = buf.take w ++ piece := by
  refine take_left' ?_
  rw [length_append, length_take]
  omega

section

variable {bb : Bb} (h : Wrote mtd flash bb data) (hpos : 0 < piece.length)
include h hpos

/-- A piece that does not fill the buffer. -/
theorem Wrote.fill (hlt : data.length % writebufSize + piece.length < writebufSize) :
    Wrote mtd flash { bb with
      writebuf := overwrite (data.length % writebufSize) piece bb.writebuf, needsWrite := true,
      offset := bb.offset + piece.length } (data ++ piece) := by
  have hrem := h.rem
  have hbuffer := h.buffer
  have hpending := h.pending
  have hmod : (data.length + piece.length) % writebufSize
      = data.length % writebufSize + piece.length := by
    unfold writebufSize at hlt ⊢
    omega
  have hmod' : (bb.offset + piece.length) % writebufSize
      = data.length % writebufSize + piece.length := by
    unfold writebufSize at hlt hrem ⊢
    omega
  -- no boundary of the buffer is crossed
  have hflushed : flushed (data.length + piece.length) = flushed data.length := by
    unfold flushed
    omega
  have hbase : bb.offset + piece.length - (bb.offset + piece.length) % writebufSize = bb.base := by
    unfold Bb.base
    omega
  refine ⟨?_, ?_, ?_, ?_, ?_, ?_, ?_, ?_⟩
  · rw [length_append, hmod]
    exact hmod'
  · unfold Bb.base
    rw [hbase]
    exact h.sound
  · unfold Bb.base
    rw [hbase, length_append, hflushed]
    exact h.ahead
  · rw [overwrite_length (by omega), hbuffer]
  · rw [length_append, hmod, hflushed, take_overwrite (by omega), hpending,
      drop_append_of_le_length (flushed_le _)]
  · rw [length_append]
    exact iff_of_true rfl (by omega)
  · rw [length_append, hflushed, take_append_of_le_length (flushed_le _)]
    exact h.holds
  · unfold Stored
    rw [length_append, hflushed]
    exact h.stored

variable (haligned : writebufSize ∣ mtd.erasesize)
  (hfull : data.length % writebufSize + piece.length = writebufSize)
include haligned hfull

omit hpos haligned in
/-- What is flushed with a piece that fills the buffer. -/
theorem Wrote.stored_iff :
    Stored mtd (data.length + piece.length) ↔ Room mtd (flushed data.length) writebufSize := by
  have hsum : flushed (data.length + piece.length) = flushed data.length + writebufSize := by
    unfold flushed
    unfold writebufSize at hfull ⊢
    omega
  unfold Stored
  rw [hsum, room_add]
  exact and_iff_right h.stored

/-- A piece that fills the buffer is put on the chip, or the chip does not take it. -/
theorem Wrote.flush {flash' : Flash} {bb' : Bb} {ret : Except Errno Unit} (hflush : nandBbWriteBuf mtd flash { bb with
      writebuf := overwrite (data.length % writebufSize) piece bb.writebuf, needsWrite := false }
      writebufSize = (flash', bb', ret)) :
    (ret = .ok () ∧ Wrote mtd flash' { bb' with offset := bb'.offset + piece.length } (data ++ piece))
      ∨ (∃ e, ret = .error e) ∧ ¬ Stored mtd (data.length + piece.length) := by
  rw [h.stored_iff hfull]
  have hbuffer := h.buffer
  have hrem := h.rem
  have hdone : (data.take (flushed data.length)).length = flushed data.length := by
    rw [length_take, Nat.min_eq_left (flushed_le _)]
  generalize hstate : ({ bb with
    writebuf := overwrite (data.length % writebufSize) piece bb.writebuf, needsWrite := false } : Bb)
    = bb₁ at hflush
  have hbase : bb₁.base = bb.base := by rw [← hstate]; rfl
  have hoffset : bb₁.offset = bb.offset := by rw [← hstate]
  have hneeds : bb₁.needsWrite = false := by rw [← hstate]
  -- all of the buffer is written
  have hwhole : bb₁.writebuf.take writebufSize = data.drop (flushed data.length) ++ piece := by
    have htake : (overwrite (data.length % writebufSize) piece bb.writebuf).take
        (data.length % writebufSize + piece.length) = _ := take_overwrite (by omega)
    rw [hfull, h.pending] at htake
    rw [← hstate]
    exact htake
  have hlen₁ : bb₁.writebuf.length = writebufSize := by
    rw [← hstate]
    rw [overwrite_length (by omega), hbuffer]
  have hlen : (bb₁.writebuf.take writebufSize).length = writebufSize := by
    rw [length_take, hlen₁, Nat.min_self]
  have hsound₁ : Sound mtd bb₁.base := by
    rw [hbase]
    exact h.sound
  have hahead₁ : goodsFrom mtd bb₁.base = (goods mtd).drop (flushed data.length) := by
    rw [hbase]
    exact h.ahead
  rcases nandBbWriteBuf_cases haligned hsound₁ hahead₁ hlen (by decide) (Nat.le_refl _) flash with
    ⟨hroom, r, hok, hler, hr, hsound, hgoods⟩ | ⟨hno, _, _, e, herr⟩
  case inr =>
    rw [herr] at hflush
    cases hflush
    exact Or.inr ⟨⟨e, rfl⟩, hno⟩
  rw [hok] at hflush
  cases hflush
  refine Or.inl ⟨rfl, ?_⟩
  have hall : (data.length + piece.length) % writebufSize = 0 := by
    unfold writebufSize at hfull ⊢
    omega
  have hflushed : flushed (data.length + piece.length) = data.length + piece.length := by
    unfold flushed
    omega
  have hnext : bb₁.offset + (r - bb₁.base) + piece.length = r + writebufSize := by
    have hle := Nat.mod_le bb.offset writebufSize
    rw [hbase]
    rw [hbase] at hler
    unfold Bb.base at hler ⊢
    omega
  have hmod : (r + writebufSize) % writebufSize = 0 := by
    rw [Nat.add_mod_right]
    exact Nat.mod_eq_zero_of_dvd hr
  have hwritten : data.take (flushed data.length) ++ bb₁.writebuf.take writebufSize = data ++ piece := by
    rw [hwhole, ← append_assoc, take_append_drop]
  have hbase₂ : r + writebufSize - (r + writebufSize) % writebufSize = r + writebufSize := by
    rw [hmod, Nat.sub_zero]
  rw [hnext]
  refine ⟨?_, ?_, ?_, hlen₁, ?_, ?_, ?_, ?_⟩
  · rw [length_append, hmod, hall]
  · unfold Bb.base
    rw [hbase₂]
    exact hsound
  · have hbehind := congrArg (List.drop writebufSize) hgoods
    have hsum : flushed data.length + writebufSize = data.length + piece.length := by
      have hle := Nat.mod_le data.length writebufSize
      unfold flushed
      omega
    rw [drop_left' length_range', drop_drop, hsum] at hbehind
    unfold Bb.base
    rw [hbase₂, length_append, hflushed, hbehind]
  · rw [length_append, hall, hflushed, drop_eq_nil_of_le (Nat.le_of_eq length_append)]
    rfl
  · rw [hneeds, length_append, hall]
    exact iff_of_false Bool.false_ne_true (fun h => h rfl)
  · rw [length_append, hflushed, ← length_append, take_length, ← hwritten]
    exact h.holds.append (by omega) (by rw [hlen, hdone]; exact hgoods)
  · rw [length_append]
    exact (h.stored_iff hfull).mpr hroom

end

end Barebox.Nandbb
