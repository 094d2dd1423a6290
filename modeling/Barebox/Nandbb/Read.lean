import Barebox.Nandbb.Contents

/-!
# Reading the NAND device — `nand_bb_read`, `nand_bb_lseek`

A read delivers the bytes from the device's own offset on (`nandBbRead_ok`), and
a seek puts that offset to a position (`nandBbLseek_spec`). The bytes that a
caller asks for by their offset are delivered if and only if the device happens
to be there (`reads_iff`).
-/

namespace Barebox.Nandbb

open Lib List

variable {mtd : Mtd} {flash : Flash}
variable {count pos : Nat}

/-- A read of the chip gives its bytes, or an error if one of them cannot be read. -/
theorem mtdRead_cases (mtd : Mtd) (r n : Nat) :
    (∀ i ∈ range' r n, mtd.readError i = none) ∧ (∀ flash, mtdRead mtd flash r n = .ok ((range' r n).map flash))
      ∨ (∃ i ∈ range' r n, mtd.readError i ≠ none) ∧ ∃ e, ∀ flash, mtdRead mtd flash r n = .error e := by
  unfold mtdRead
  cases hfind : (range' r n).findSome? mtd.readError with
  | none => exact Or.inl ⟨findSome?_eq_none_iff.mp hfind, fun _ => rfl⟩
  | some e =>
    obtain ⟨i, hi, herr⟩ := exists_of_findSome?_eq_some hfind
    exact Or.inr ⟨⟨i, hi, by rw [herr]; nofun⟩, e, fun _ => rfl⟩

/-- A turn of the loop that reads. -/
theorem goodsFrom_now {r : Nat} (hgood : mtd.blockIsbad r = false) (hr : r < mtd.size) {now : Nat}
    (hnow : now = min (min count (mtd.erasesize - r % mtd.erasesize)) (mtd.size - r)) :
    (goodsFrom mtd r).take count
        = range' r now ++ (goodsFrom mtd (r + now)).take (count - now)
      ∧ (goodsFrom mtd r).drop count = (goodsFrom mtd (r + now)).drop (count - now)
      ∧ Sound mtd (r + now) := by
  have hlt := Nat.mod_lt r mtd.pos
  have hblock : r % mtd.erasesize + now ≤ mtd.erasesize := by omega
  have hle : now ≤ count := by omega
  rw [goodsFrom_good hgood hblock (by omega)]
  refine ⟨?_, ?_, sound_add hgood hblock⟩
  · rw [take_append, length_range', take_of_length_le (by rw [length_range']; exact hle)]
  · rw [drop_append, length_range', drop_eq_nil_of_le (by rw [length_range']; exact hle),
      nil_append]

/-- A read that the chip lets through delivers the bytes from the offset on, and any
other fails. How far it comes has nothing to do with what is in the chip. -/
theorem readLoop_cases (fuel : Nat) : ∀ {r count : Nat}, Sound mtd r → mtd.size < r + fuel →
    ((∀ i ∈ (goodsFrom mtd r).take count, mtd.readError i = none)
      ∧ ∃ r', (∀ flash buf, readLoop mtd flash fuel r count buf
          = (r', .ok (buf ++ ((goodsFrom mtd r).take count).map flash)))
        ∧ Sound mtd r' ∧ goodsFrom mtd r' = (goodsFrom mtd r).drop count)
    ∨ (∃ i ∈ (goodsFrom mtd r).take count, mtd.readError i ≠ none)
      ∧ ∀ flash buf, ∃ r' e, readLoop mtd flash fuel r count buf = (r', .error e) := by
  induction fuel with
  | zero =>
    intro r count hsound hfuel
    have hend : goodsFrom mtd r = [] := goodsFrom_end (by omega)
    rw [hend, take_nil, drop_nil]
    exact Or.inl ⟨nofun, r, fun _ buf => by rw [map_nil, append_nil]; rfl, hsound, hend⟩
  | succ fuel ih =>
    intro r count hsound hfuel
    have hpos := mtd.pos
    simp only [readLoop]
    by_cases hz : count = 0
    · rw [hz, take_zero]
      exact Or.inl ⟨nofun, r, fun _ buf => by rw [if_pos rfl, map_nil, append_nil], hsound, rfl⟩
    simp only [if_neg hz]
    by_cases hend : mtd.size ≤ r
    · rw [goodsFrom_end hend, take_nil, drop_nil]
      exact Or.inl ⟨nofun, r, fun _ buf => by rw [if_pos hend, map_nil, append_nil], hsound, goodsFrom_end hend⟩
    simp only [if_neg hend]
    by_cases hbad : mtd.blockIsbad r
    · -- a bad block holds nothing of the file
      obtain ⟨hskip, hsound'⟩ := goodsFrom_bad hsound hbad
      simp only [if_pos hbad]
      rw [hskip]
      exact ih hsound' (by omega)
    simp only [if_neg hbad]
    have hlt := Nat.mod_lt r hpos
    -- what is left of this block is read at once
    generalize hnow : min (min count (mtd.erasesize - r % mtd.erasesize)) (mtd.size - r) = now
    obtain ⟨htake, hdrop, hsound'⟩ := goodsFrom_now (Bool.eq_false_iff.mpr hbad) (by omega) hnow.symm
    rw [htake, hdrop, forall_mem_append]
    simp only [map_append, ← append_assoc]
    rcases mtdRead_cases mtd r now with ⟨hclean, hread⟩ | ⟨⟨i, hi, herr⟩, e, hread⟩
    · simp only [hread]
      rcases @ih (r + now) (count - now) hsound' (by omega) with
        ⟨hrest, r', hok, hrest'⟩ | ⟨⟨i, hi, herr⟩, hfails⟩
      · exact Or.inl ⟨⟨hclean, hrest⟩, r', fun _ _ => hok _ _, hrest'⟩
      · exact Or.inr ⟨⟨i, mem_append_right _ hi, herr⟩, fun _ _ => hfails _ _⟩
    · simp only [hread]
      exact Or.inr ⟨⟨i, mem_append_left _ hi, herr⟩, fun _ _ => ⟨r, e, rfl⟩⟩

section

variable {bb : Bb} (hsound : Sound mtd bb.offset)
include hsound

/-- The bytes of the good blocks, one block after the other, if all can be read, … -/
theorem nandBbRead_ok (offset : Nat)
    (hread : ∀ i ∈ (goodsFrom mtd bb.offset).take count, mtd.readError i = none) :
    ∃ r, (∀ flash, nandBbRead mtd flash bb count offset = ({ bb with offset := r },
        .ok (((goodsFrom mtd bb.offset).take count).map flash,
          Int.bmod ((goodsFrom mtd bb.offset).take count).length (2 ^ 32))))
      ∧ Sound mtd r ∧ goodsFrom mtd r = (goodsFrom mtd bb.offset).drop count := by
  rcases readLoop_cases (mtd.size + 1) hsound (by omega) with ⟨-, r, hloop, hr⟩ | ⟨⟨i, hi, herr⟩, -⟩
  · refine ⟨r, fun flash => ?_, hr⟩
    unfold nandBbRead
    rw [hloop]
    dsimp only
    rw [nil_append, Except.map, length_map]
  · exact absurd (hread i hi) herr

/-- … and only then. -/
theorem readable_of_nandBbRead {offset : Nat} {x : Bytes × Int}
    (hok : (nandBbRead mtd flash bb count offset).2 = .ok x) :
    ∀ i ∈ (goodsFrom mtd bb.offset).take count, mtd.readError i = none := by
  rcases readLoop_cases (mtd.size + 1) hsound (by omega) with ⟨hread, -⟩ | ⟨-, hloop⟩
  · exact hread
  · obtain ⟨r, e, hloop⟩ := hloop flash []
    unfold nandBbRead at hok
    rw [hloop] at hok
    nomatch hok

end

/-! ## Seeking -/

theorem calcSizeLoop_end (fuel : Nat) (h : mtd.size ≤ pos) (size : Nat) :
    calcSizeLoop mtd fuel pos size = size := by
  cases fuel with
  | zero => rfl
  | succ fuel => rw [calcSizeLoop, if_pos h]

/-- The loop adds up, so that the sum so far can be taken out. -/
theorem calcSizeLoop_add (fuel : Nat) : ∀ (pos size : Nat),
    calcSizeLoop mtd fuel pos size = size + calcSizeLoop mtd fuel pos 0 := by
  induction fuel with
  | zero =>
    intro pos size
    rfl
  | succ fuel ih =>
    intro pos size
    rw [calcSizeLoop, calcSizeLoop]
    split
    next => rfl
    next =>
    split
    next => exact ih _ _
    next =>
      rw [ih, ih _ (0 + _), Nat.zero_add, Nat.add_assoc]

/-- A seek comes to the position if the device is large enough, and fails
otherwise. -/
theorem lseekLoop_spec (fuel : Nat) : ∀ {r : Nat} (offset : Nat), r % mtd.erasesize = 0 → mtd.size < r + fuel →
    (r < mtd.size → offset ≤ calcSizeLoop mtd fuel r 0 →
      ∃ r', lseekLoop mtd fuel r offset = some r' ∧ Sound mtd r'
        ∧ goodsFrom mtd r' = (goodsFrom mtd r).drop offset)
      ∧ (calcSizeLoop mtd fuel r 0 < offset → lseekLoop mtd fuel r offset = none) := by
  induction fuel with
  | zero =>
    intro r offset _ hfuel
    exact ⟨fun hr _ => absurd hr (by omega), fun _ => rfl⟩
  | succ fuel ih =>
    intro r offset hstart hfuel
    have hpos := mtd.pos
    rw [calcSizeLoop, lseekLoop]
    split
    next hend => exact ⟨fun hr _ => absurd hr (by omega), fun _ => rfl⟩
    next hin =>
    have hnext : (r + mtd.erasesize) % mtd.erasesize = 0 := by rw [Nat.add_mod_right, hstart]
    -- there is something to go to behind this block
    have hbehind : ∀ offset, 0 < offset → offset ≤ calcSizeLoop mtd fuel (r + mtd.erasesize) 0 →
        r + mtd.erasesize < mtd.size := by
      intro offset h hle
      refine Nat.lt_of_not_le fun hend => ?_
      rw [calcSizeLoop_end fuel hend] at hle
      omega
    dsimp only
    cases hbad : mtd.blockIsbad r with
    | true =>
      obtain ⟨hskip, hsound⟩ := goodsFrom_bad (Or.inl hstart) hbad
      rw [if_pos rfl, if_pos rfl, hskip]
      dsimp only
      split
      next hz =>
        rw [hz]
        exact ⟨fun _ _ => ⟨_, rfl, hsound, drop_zero.symm⟩, fun h => absurd h (by omega)⟩
      next hnz =>
      obtain ⟨hfound, hnone⟩ := ih offset hnext (by omega)
      exact ⟨fun _ hle => hfound (hbehind offset (by omega) hle) hle, hnone⟩
    | false =>
      rw [if_neg Bool.false_ne_true, if_neg Bool.false_ne_true, calcSizeLoop_add]
      split
      next hz =>
        have hle : offset ≤ mtd.erasesize := by omega
        have hblock : r % mtd.erasesize + min offset mtd.erasesize ≤ mtd.erasesize := by omega
        refine ⟨fun _ _ => ⟨_, rfl, sound_add hbad hblock, ?_⟩, fun h => absurd h (by omega)⟩
        rw [goodsFrom_add hbad hblock, Nat.min_eq_left hle]
      next hnz =>
      obtain ⟨hfound, hnone⟩ := ih (offset - mtd.erasesize) hnext (by omega)
      rw [Nat.min_eq_right (by omega)]
      rw [goodsFrom_add hbad (by omega), drop_drop, show mtd.erasesize + (offset - mtd.erasesize)
        = offset by omega] at hfound
      refine ⟨fun _ hle => ?_, fun hlt => hnone (by omega)⟩
      have hleft : offset - mtd.erasesize ≤ calcSizeLoop mtd fuel (r + mtd.erasesize) 0 := by omega
      exact hfound (hbehind _ (by omega) hleft) hleft

/-- The device is at position `pos`. -/
structure At (mtd : Mtd) (bb : Bb) (pos : Nat) : Prop where
  sound : Sound mtd bb.offset
  ahead : goodsFrom mtd bb.offset = (goods mtd).drop pos

/-- Where a seek leaves the device. -/
def seekPos (mtd : Mtd) (flags pos offset : Nat) : Nat :=
  if accmode flags = 0 ∧ offset ≤ nandBbCalcSize mtd then offset else pos

variable {bb : Bb}

/-- A seek goes to the byte of that number among the good ones. -/
theorem At.lseek (h : At mtd bb pos) (offset : Nat) :
    At mtd (nandBbLseek mtd bb offset).1 (seekPos mtd bb.flags pos offset)
      ∧ (nandBbLseek mtd bb offset).1.flags = bb.flags := by
  have hloop := lseekLoop_spec (mtd.size + 1) offset (Nat.zero_mod mtd.erasesize) (by omega)
  unfold nandBbLseek seekPos
  split
  next hmode =>
    rw [if_neg fun hro => hmode hro.1]
    exact ⟨h, rfl⟩
  next hmode =>
  have hmode : accmode bb.flags = 0 := Decidable.not_not.mp hmode
  by_cases hle : offset ≤ nandBbCalcSize mtd
  · rw [if_pos ⟨hmode, hle⟩]
    by_cases hsize : mtd.size = 0
    · -- the seek fails, and all positions are the same
      have hnone : lseekLoop mtd (mtd.size + 1) 0 offset = none := by
        rw [lseekLoop, if_pos (Nat.le_of_eq hsize)]
      rw [hnone]
      refine ⟨⟨h.sound, ?_⟩, rfl⟩
      unfold goods
      rw [goodsFrom_end (by omega), goodsFrom_end (by omega), drop_nil]
    · obtain ⟨r, hr, hsound, hgoods⟩ := hloop.1 (by omega) hle
      rw [hr]
      exact ⟨⟨hsound, hgoods⟩, rfl⟩
  · rw [if_neg fun hro => hle hro.2, hloop.2 (by unfold nandBbCalcSize at hle; omega)]
    exact ⟨h, rfl⟩

/-! ## Reads and seeks -/

inductive Op where
  | read (count offset : Nat)
  | lseek (offset : Nat)

/-- A read delivers the bytes at the positions from `offset` on, and returns their
number. -/
def ReadRight (mtd : Mtd) (flash : Flash) (bb : Bb) (count offset : Nat) : Prop :=
  (nandBbRead mtd flash bb count offset).2 = .ok (slice offset count (contents mtd flash),
    (slice offset count (contents mtd flash)).length)

/-- All reads do. -/
def ReadsRight (mtd : Mtd) (flash : Flash) : Bb → List Op → Prop
  | _, [] => True
  | bb, .read count offset :: ops => ReadRight mtd flash bb count offset
    ∧ ReadsRight mtd flash (nandBbRead mtd flash bb count offset).1 ops
  | bb, .lseek offset :: ops => ReadsRight mtd flash (nandBbLseek mtd bb offset).1 ops

/-- The device at `pos` delivers the positions from `offset` on. -/
structure ReadsAt (mtd : Mtd) (pos count offset : Nat) : Prop where
  at_ : count = 0 ∨ pos = offset ∨ ((goods mtd).length ≤ pos ∧ (goods mtd).length ≤ offset)
  readable : ∀ i ∈ ((goods mtd).drop offset).take count, mtd.readError i = none
  small : min count ((goods mtd).length - offset) < 2 ^ 31

/-- All reads are at the position that they are asked for. -/
def InStep (mtd : Mtd) (flags : Nat) : Nat → List Op → Prop
  | _, [] => True
  | pos, .read count offset :: ops => ReadsAt mtd pos count offset ∧ InStep mtd flags (pos + count) ops
  | pos, .lseek offset :: ops => InStep mtd flags (seekPos mtd flags pos offset) ops

theorem slice_contents (offset count : Nat) :
    slice offset count (contents mtd flash) = (((goods mtd).drop offset).take count).map flash := by
  unfold slice contents
  rw [map_take, map_drop]

/-- Offsets that have the same bytes whatever is in the chip are the same. -/
theorem eq_of_map_eq {l l' : List Nat} (h : ∀ flash : Flash, l.map flash = l'.map flash) : l = l' := by
  have hlen : l.length = l'.length := by
    have := congrArg List.length (h fun _ => 0)
    rwa [length_map, length_map] at this
  refine ext_getElem hlen fun k hk hk' => ?_
  -- a chip that tells the one byte from all others
  have hmap := h fun i => if i = l[k] then 1 else 0
  have hbyte : (if l[k] = l[k] then (1 : UInt8) else 0) = if l'[k] = l[k] then 1 else 0 := by
    have := getElem_of_eq hmap (by rw [length_map]; exact hk)
    rwa [getElem_map, getElem_map] at this
  rw [if_pos rfl] at hbyte
  split at hbyte
  next heq => exact heq.symm
  next => exact absurd hbyte (by decide)

theorem bmod_eq_iff (n : Nat) : Int.bmod n (2 ^ 32) = n ↔ n < 2 ^ 31 := by
  unfold Int.bmod
  dsimp only
  split
  all_goals omega

/-- The same positions from two places on. -/
theorem drop_take_eq_iff (mtd : Mtd) (pos count offset : Nat) :
    ((goods mtd).drop pos).take count = ((goods mtd).drop offset).take count
      ↔ count = 0 ∨ pos = offset ∨ ((goods mtd).length ≤ pos ∧ (goods mtd).length ≤ offset) := by
  constructor
  · intro h
    by_cases hz : count = 0
    · exact Or.inl hz
    have hhead := congrArg List.head? h
    rw [head?_take, head?_take, if_neg hz, if_neg hz, head?_drop, head?_drop] at hhead
    refine Or.inr ?_
    have hnodup : (goods mtd).Nodup := (goods_sorted mtd).imp Nat.ne_of_lt
    by_cases hpos : pos < (goods mtd).length
    · exact Or.inl ((getElem?_inj hpos hnodup).mp hhead)
    by_cases hoffset : offset < (goods mtd).length
    · exact Or.inl ((getElem?_inj hoffset hnodup).mp hhead.symm).symm
    exact Or.inr ⟨Nat.le_of_not_lt hpos, Nat.le_of_not_lt hoffset⟩
  · rintro (h | h | ⟨hpos, hoffset⟩)
    · rw [h, take_zero, take_zero]
    · rw [h]
    · rw [drop_eq_nil_of_le hpos, drop_eq_nil_of_le hoffset]

/-- A read is right for whatever is in the chip if and only if the device is
there. -/
theorem At.read_iff (h : At mtd bb pos) (count offset : Nat) :
    (∀ flash, ReadRight mtd flash bb count offset) ↔ ReadsAt mtd pos count offset := by
  have hlen : (((goods mtd).drop offset).take count).length = min count ((goods mtd).length - offset) := by
    rw [length_take, length_drop]
  have hsmall : Int.bmod (((goods mtd).drop offset).take count).length (2 ^ 32)
      = (((goods mtd).drop offset).take count).length
      ↔ min count ((goods mtd).length - offset) < 2 ^ 31 := by
    rw [bmod_eq_iff, hlen]
  unfold ReadRight
  constructor
  · intro hright
    have hread := readable_of_nandBbRead h.sound (hright fun _ => 0)
    -- what is delivered, for each chip
    obtain ⟨r, hr, -⟩ := nandBbRead_ok h.sound offset hread
    have hdata : ∀ flash : Flash, (((goods mtd).drop pos).take count).map flash
          = (((goods mtd).drop offset).take count).map flash
        ∧ Int.bmod (((goods mtd).drop pos).take count).length (2 ^ 32)
          = (((goods mtd).drop offset).take count).length := by
      intro flash
      have hres := hright flash
      rw [hr, slice_contents, h.ahead, length_map] at hres
      exact Prod.mk.inj (Except.ok.inj hres)
    have hsame := eq_of_map_eq fun flash => (hdata flash).1
    have hret := (hdata fun _ => 0).2
    rw [h.ahead, hsame] at hread
    rw [hsame] at hret
    exact ⟨(drop_take_eq_iff mtd pos count offset).mp hsame, hread, hsmall.mp hret⟩
  · intro ⟨hat, hread, hlt⟩ flash
    have hsame := (drop_take_eq_iff mtd pos count offset).mpr hat
    obtain ⟨r, hr, -⟩ := nandBbRead_ok h.sound offset (by rw [h.ahead, hsame]; exact hread)
    rw [hr, slice_contents, h.ahead, hsame, hsmall.mpr hlt, length_map]

/-- A read at the position of the device, or at the offset it was moved to. -/
theorem At.read {offset : Nat} (h : At mtd bb pos) (hat : ReadsAt mtd pos count offset) :
    ∃ r, (∀ flash, (nandBbRead mtd flash bb count offset).1 = { bb with offset := r })
      ∧ At mtd { bb with offset := r } (pos + count) := by
  have hsame := (drop_take_eq_iff mtd pos count offset).mpr hat.at_
  obtain ⟨r, hr, hsound, hahead⟩ := nandBbRead_ok h.sound offset
    (by rw [h.ahead, hsame]; exact hat.readable)
  refine ⟨r, fun flash => congrArg Prod.fst (hr flash), hsound, ?_⟩
  rw [hahead, h.ahead, drop_drop]

/-- Reads and seeks are right for whatever is in the chip if and only if each read
asks for the position that the device is at. -/
theorem reads_iff (ops : List Op) : ∀ {bb : Bb} {pos : Nat}, At mtd bb pos →
    ((∀ flash, ReadsRight mtd flash bb ops) ↔ InStep mtd bb.flags pos ops) := by
  induction ops with
  | nil =>
    intro bb pos _
    exact iff_of_true (fun _ => trivial) trivial
  | cons op ops ih =>
    intro bb pos h
    cases op with
    | lseek offset =>
      obtain ⟨hat, hflags⟩ := h.lseek offset
      have hrest := ih hat
      rw [hflags] at hrest
      exact hrest
    | read count offset =>
      obtain ⟨hfirst, hthere⟩ := h.read_iff count offset
      -- the device is at the same place whatever is in the chip
      have hrest : ReadsAt mtd pos count offset →
          ((∀ flash, ReadsRight mtd flash (nandBbRead mtd flash bb count offset).1 ops)
            ↔ InStep mtd bb.flags (pos + count) ops) := by
        intro hat
        obtain ⟨r, hr, hat'⟩ := h.read hat
        simp only [hr]
        exact ih hat'
      constructor
      · intro hright
        have hat := hfirst fun flash => (hright flash).1
        exact ⟨hat, (hrest hat).mp fun flash => (hright flash).2⟩
      · intro ⟨hat, hin⟩ flash
        exact ⟨hthere hat flash, (hrest hat).mpr hin flash⟩

end Barebox.Nandbb
