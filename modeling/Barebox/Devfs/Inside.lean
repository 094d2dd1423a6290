import Barebox.Devfs.Model
import Barebox.Lib.Run

/-!
# Partitions lie inside their master

Only the end of a partition is compared with its master, and it is computed with
wrap-around. A request gives a partition inside its master if its offset plus a positive
size does not overflow, a size that counts from the end does not end before the offset, and
the offset in an MTD device is an `off_t` (`Fits`). In a string of partitions the next one
starts where the last one ended unless the size was zero (which means: all that is left) or
the offsets count from the end and have come to zero; see `Follows` for all cases.

`partitions_inside` puts it together, for every sequence of calls on every set of devices.
-/

namespace Barebox.Devfs

open Lib List

variable {a : Int64} {e : Errno}

/-! ## Inside -/

/-- Where a partition starts in its master -/
def startIn (m c : Cdev) : Int := if c.mtd then c.masterOffset.toInt else c.offset.toInt - m.offset.toInt

def stopIn (m c : Cdev) : Int := startIn m c + c.size.toInt

structure InMaster (m c : Cdev) : Prop where
  size : 0 ≤ c.size.toInt
  start : 0 ≤ startIn m c
  stop : stopIn m c ≤ m.size.toInt

def Inside (w : Cdevs) : Prop := ∀ c ∈ w, ∀ i, c.master = some i → ∃ m, w[i]? = some m ∧ InMaster m c

/-- The start of partition `j`, and its end -/
def startAt (w : Cdevs) (j : Nat) : Option Int := do
  let c ← w[j]?
  let m ← w[← c.master]?
  return startIn m c

def stopAt (w : Cdevs) (j : Nat) : Option Int := do
  let c ← w[j]?
  let m ← w[← c.master]?
  return stopIn m c

/-- Partitions without an offset of their own start where the one before has ended. -/
def Chained (w : Cdevs) : Int → List (Item × Nat) → Prop
  | _, [] => True
  | prev, (item, j) :: rest => (item.explicit = false → startAt w j = some prev)
    ∧ ∃ stop, stopAt w j = some stop ∧ Chained w stop rest

section

variable (l : Long) (addMtdDevice : Cdevs → Cdev → Nat → Registered)

/-- A string of partitions comes to an end, stays in its buffer and is chained. -/
def Parsed (w : Cdevs) : Op → Prop
  | .add .. => True
  | .create .. => True
  | .cmdline devname parts devsize addDevname =>
    ∃ w' ret, cmdlinepartDoParse l addMtdDevice devname addDevname devsize w parts = some (w', ret)
      ∧ ret ≠ .error .EFAULT ∧ ∀ created, ret = .ok created → Chained w' 0 created

/-! ## What it takes -/

/-- Where a partition is to start, without wrap-around -/
def wanted (cdev : Cdev) (partinfo : DevfsPartition) (stop : Int64) : Int :=
  if 0 < partinfo.offset.toInt then partinfo.offset.toInt
  else if partinfo.offset.toInt = 0 then stop.toInt
  else cdev.size.toInt + partinfo.offset.toInt

/-- Where it is to end -/
def wantedEnd (cdev : Cdev) (partinfo : DevfsPartition) (stop : Int64) : Int :=
  if 0 < partinfo.size.toInt then wanted cdev partinfo stop + partinfo.size.toInt
  else cdev.size.toInt + partinfo.size.toInt

structure Fits (cdev : Cdev) (partinfo : DevfsPartition) (stop : Int64) : Prop where
  nonneg : wanted cdev partinfo stop ≤ wantedEnd cdev partinfo stop
  small : wantedEnd cdev partinfo stop < 2 ^ 63
  -- what ends behind its master is refused
  offT : cdev.mtd = true → wantedEnd cdev partinfo stop ≤ cdev.size.toInt →
    wanted cdev partinfo stop < 2 ^ (l.bits - 1)

/-- A request fits, if it is not refused for its name, or for a start before its master. -/
def Placeable (w : Cdevs) (cdev : Cdev) (partinfo : DevfsPartition) (stop : Int64) : Prop :=
  cdevByName w partinfo.name = none → 0 ≤ wanted cdev partinfo stop → Fits l cdev partinfo stop

/-- The sum of offset and size is where the partition ends. -/
def Follows (cdev : Cdev) (partinfo : DevfsPartition) : Prop :=
  let offset := partinfo.offset.toInt
  let size := partinfo.size.toInt
  (0 ≤ offset ∧ 0 < size) ∨ (offset = 0 ∧ size < 0) ∨ (size = 0 ∧ offset = cdev.size.toInt)
    ∨ (offset < 0 ∧ 0 < size ∧ offset + size ≠ 0)

def device (w : Cdevs) (devname : Bytes) : Option Cdev := (cdevByName w devname).bind (w[·]?)

/-- Each request of a table, in the state that it is made in. -/
def TableFits (i : Nat) (cdev : Cdev) : Cdevs → Int64 → List DevfsPartition → Prop
  | _, _, [] => True
  | w, stop, partinfo :: rest => Placeable l w cdev partinfo stop
    ∧ ∀ w' stop', addPartition l addMtdDevice w i cdev partinfo stop = .ok (w', stop') →
      TableFits i cdev w' stop' rest

section

variable (devname : Bytes) (addDevname : Bool) (devsize : Int64)

/-- The name of the first partition of a string has room in its buffer. -/
def NameFits (offset : Int64) (parts : Bytes) : Prop :=
  ∀ buf rest, nameBuf devname addDevname (offsetPart (sizePart parts).2 offset).2.2 = some (buf, rest) →
    buf.length < pathMax

/-- Each request of a string, in the state that it is made in: its name fits and it fits itself.
If the next one has no offset, this one can be followed. -/
def StringFits : Nat → Cdevs → Int64 → Bytes → Prop
  | 0, _, _, _ => True
  | turns + 1, w, offset, parts => NameFits devname addDevname offset parts
    ∧ ∀ item m, parseItem devname addDevname devsize offset parts = .ok item → device w devname = some m →
      Placeable l w m item.partinfo 0
      ∧ ∀ w' rest, devfsAddPartition l addMtdDevice w devname item.partinfo = .ok w' → item.rest = 44 :: rest →
        (∀ next, parseItem devname addDevname devsize (item.partinfo.offset + item.partinfo.size) rest = .ok next →
          next.explicit = false → Follows m item.partinfo)
        ∧ StringFits turns w' (item.partinfo.offset + item.partinfo.size) rest

end

/-- What the requests of a call need. -/
def RequestsFit (w : Cdevs) : Op → Prop
  | .add devname partinfo => ∀ m, device w devname = some m → Placeable l w m partinfo 0
  | .create devname parts =>
    ∀ i m, cdevByName w devname = some i → w[i]? = some m → TableFits l addMtdDevice i m w 0 parts
  | .cmdline devname parts devsize addDevname => parts ≠ [] →
    StringFits l addMtdDevice devname addDevname devsize (parts.length + 1) w 0 parts

end

/-! ## Numbers -/

theorem toInt_add_eq (a b : Int64) : (a + b).toInt = (a.toInt + b.toInt + 2 ^ 63) % 2 ^ 64 - 2 ^ 63 := by
  rw [Int64.toInt_add]
  unfold Int.bmod
  dsimp only
  omega

theorem toInt_sub_eq (a b : Int64) : (a - b).toInt = (a.toInt - b.toInt + 2 ^ 63) % 2 ^ 64 - 2 ^ 63 := by
  rw [Int64.toInt_sub]
  unfold Int.bmod
  dsimp only
  omega

theorem pos_iff : 0 < a ↔ 0 < a.toInt := by
  rw [Int64.lt_iff_toInt_lt, Int64.toInt_zero]

theorem eq_zero_iff : a = 0 ↔ a.toInt = 0 := by
  rw [← Int64.toInt_inj, Int64.toInt_zero]

/-- An `off_t` has the offsets that fit into it. -/
theorem offT_toInt {l : Long} (hnonneg : 0 ≤ a.toInt) (hlt : a.toInt < 2 ^ (l.bits - 1)) :
    (offT l a).toInt = a.toInt := by
  cases l with
  | bits64 => rfl
  | bits32 =>
    have hlt' : a.toInt < 2 ^ 31 := hlt
    rw [offT, Int32.toInt_toInt64, Int64.toInt_toInt32]
    unfold Int.bmod
    dsimp only
    omega

/-- A device without partitions outside of it: what is known of every master. -/
structure Sound (c : Cdev) : Prop where
  size : 0 ≤ c.size.toInt
  offset : 0 ≤ c.offset.toInt
  fits : c.offset.toInt + c.size.toInt < 2 ^ 63

section

variable {l : Long} {m : Cdev} {partinfo : DevfsPartition} {stop : Int64} {i : Nat}

/-- The start of a partition does not wrap around. -/
theorem partStart_toInt (hm : 0 ≤ m.size.toInt) : (partStart m partinfo stop).toInt = wanted m partinfo stop := by
  unfold partStart wanted
  simp only [pos_iff, eq_zero_iff]
  have hlow := partinfo.offset.le_toInt
  have hhigh := m.size.toInt_lt
  split
  next => rfl
  next hneg =>
  split
  next => rfl
  next hzero =>
  rw [toInt_add_eq]
  omega

theorem newCdev_size :
    (newCdev l i m partinfo stop).size = partSize m partinfo (partStart m partinfo stop) := by
  unfold newCdev
  split <;> rfl

section

variable (hm : Sound m) (hstart : 0 ≤ wanted m partinfo stop) (hfits : Fits l m partinfo stop)
include hm hstart hfits

/-- The size of a partition that fits is what was asked for. -/
theorem Fits.size_eq : (newCdev l i m partinfo stop).size.toInt
    = wantedEnd m partinfo stop - wanted m partinfo stop := by
  have hsize := hm.size
  have hend := hfits.nonneg
  have hhigh := m.size.toInt_lt
  rw [newCdev_size, partSize]
  simp only [pos_iff]
  unfold wantedEnd at hend ⊢
  split
  next => omega
  next hneg =>
  have hsum : (m.size + partinfo.size).toInt = m.size.toInt + partinfo.size.toInt := by
    rw [toInt_add_eq]
    omega
  rw [toInt_sub_eq, hsum, partStart_toInt hsize]
  omega

/-- A request that fits and is accepted gives the partition that was asked for, inside of its
master. -/
theorem Fits.inMaster
    (hstop : (partStart m partinfo stop + (newCdev l i m partinfo stop).size).toInt ≤ m.size.toInt) :
    startIn m (newCdev l i m partinfo stop) = wanted m partinfo stop
      ∧ wantedEnd m partinfo stop ≤ m.size.toInt ∧ InMaster m (newCdev l i m partinfo stop) := by
  have hsize := @Fits.size_eq l m partinfo stop i hm hstart hfits
  have hend := hfits.nonneg
  have hsmall := hfits.small
  have hle : wantedEnd m partinfo stop ≤ m.size.toInt := by
    rw [toInt_add_eq, hsize, partStart_toInt hm.size] at hstop
    omega
  have heq : startIn m (newCdev l i m partinfo stop) = wanted m partinfo stop := by
    have hwanted := @partStart_toInt m partinfo stop hm.size
    unfold startIn newCdev
    cases hmtd : m.mtd with
    | true =>
      refine Eq.trans (offT_toInt ?_ ?_) hwanted
      · rw [hwanted]
        exact hstart
      · rw [hwanted]
        exact hfits.offT hmtd hle
    | false =>
      -- the offset of the master does not wrap around either
      have hoffset := hm.offset
      have hroom := hm.fits
      have hsum := toInt_add_eq m.offset (partStart m partinfo stop)
      simp only [Bool.false_eq_true, if_false]
      omega
  refine ⟨heq, hle, by omega, by omega, ?_⟩
  unfold stopIn
  omega

end

/-- The next offset in a string is the end of a partition that can be followed. -/
theorem Follows.wanted_next {next : DevfsPartition} (hfollows : Follows m partinfo) (hm : 0 ≤ m.size.toInt)
    (hstart : 0 ≤ wanted m partinfo 0) (hnonneg : wanted m partinfo 0 ≤ wantedEnd m partinfo 0)
    (hle : wantedEnd m partinfo 0 ≤ m.size.toInt)
    (hnext : next.offset = partinfo.offset + partinfo.size) : wanted m next 0 = wantedEnd m partinfo 0 := by
  have hhigh := m.size.toInt_lt
  have hsum := toInt_add_eq partinfo.offset partinfo.size
  rw [← hnext] at hsum
  unfold wantedEnd wanted at *
  rw [Int64.toInt_zero] at *
  unfold Follows at hfollows
  split_ifs at * <;> omega

/-! ## One request -/

/-- Every partition so far is inside its master. -/
structure Inv (w : Cdevs) : Prop where
  inside : Inside w
  sound : ∀ c ∈ w, Sound c

variable {addMtdDevice : Cdevs → Cdev → Nat → Registered} {w w' : Cdevs} {stop' : Int64} {c : Cdev} {j : Nat} {x : Int}

theorem getElem?_of_le (h : w <+: w') (hi : w[i]? = some c) : w'[i]? = some c := by
  obtain ⟨rest, rfl⟩ := h
  rw [List.getElem?_append_left (List.getElem?_eq_some_iff.mp hi).1]
  exact hi

theorem startAt_eq_some_iff : startAt w j = some x
    ↔ ∃ c i m, w[j]? = some c ∧ c.master = some i ∧ w[i]? = some m ∧ startIn m c = x := by
  simp [startAt, Option.bind_eq_some_iff]

theorem stopAt_eq_some_iff : stopAt w j = some x
    ↔ ∃ c i m, w[j]? = some c ∧ c.master = some i ∧ w[i]? = some m ∧ stopIn m c = x := by
  simp [stopAt, Option.bind_eq_some_iff]

/-- New devices do not move those there are. -/
theorem startAt_of_le (h : w <+: w') (hstart : startAt w j = some x) : startAt w' j = some x := by
  obtain ⟨c, i, m, hc, hi, hm, hx⟩ := startAt_eq_some_iff.mp hstart
  exact startAt_eq_some_iff.mpr ⟨c, i, m, getElem?_of_le h hc, hi, getElem?_of_le h hm, hx⟩

theorem stopAt_of_le (h : w <+: w') (hstop : stopAt w j = some x) : stopAt w' j = some x := by
  obtain ⟨c, i, m, hc, hi, hm, hx⟩ := stopAt_eq_some_iff.mp hstop
  exact stopAt_eq_some_iff.mpr ⟨c, i, m, getElem?_of_le h hc, hi, getElem?_of_le h hm, hx⟩

/-- A request that is accepted adds its partition, whatever names that is found under. -/
theorem addPartition_ok (h : addPartition l addMtdDevice w i m partinfo stop = .ok (w', stop')) :
    ∃ names, w' = w ++ [{ newCdev l i m partinfo stop with names := names }]
      ∧ cdevByName w partinfo.name = none ∧ 0 ≤ (partStart m partinfo stop).toInt
      ∧ (partStart m partinfo stop + (newCdev l i m partinfo stop).size).toInt ≤ m.size.toInt := by
  unfold addPartition at h
  split at h
  next => nomatch h
  next hname =>
  dsimp only at h
  split at h
  next => nomatch h
  next hin =>
  rw [not_or, Int64.not_lt, Int64.not_lt, Int64.le_iff_toInt_le, Int64.le_iff_toInt_le,
    ← @newCdev_size l m partinfo stop i] at hin
  have hnone : cdevByName w partinfo.name = none := by simpa using hname
  unfold addCdev at h
  split at h
  next =>
    split at h
    next => nomatch h
    next =>
      cases h
      exact ⟨_, rfl, hnone, hin⟩
    next =>
    cases h
    exact ⟨[], rfl, hnone, hin⟩
  next =>
  cases h
  exact ⟨_, rfl, hnone, hin⟩

/-- No request writes behind a buffer. -/
theorem addPartition_error (h : addPartition l addMtdDevice w i m partinfo stop = .error e) :
    e ≠ .EFAULT := by
  unfold addPartition addCdev at h
  dsimp only at h
  split at h
  next => cases h; decide
  next =>
  split at h
  next => cases h; decide
  next =>
  split at h
  next =>
    split at h
    next => cases h; decide
    next => nomatch h
    next => nomatch h
  next => nomatch h

/-- What an accepted request has done. -/
structure Placed (w w' : Cdevs) (m : Cdev) (partinfo : DevfsPartition) (stop : Int64) : Prop where
  inv : Inv w'
  le : w <+: w'
  start : 0 ≤ wanted m partinfo stop
  nonneg : wanted m partinfo stop ≤ wantedEnd m partinfo stop
  fits : wantedEnd m partinfo stop ≤ m.size.toInt
  startAt_eq : startAt w' w.length = some (wanted m partinfo stop)
  stopAt_eq : stopAt w' w.length = some (wantedEnd m partinfo stop)

/-- A new partition inside its master: all of them are. -/
theorem Inv.append (hw : Inv w) (hi : w[i]? = some m) (hmaster : c.master = some i) (hin : InMaster m c)
    (hc : Sound c) : Inv (w ++ [c]) := by
  have hsame : ∀ {j : Nat} {m' : Cdev}, w[j]? = some m' → (w ++ [c])[j]? = some m' :=
    fun hj => getElem?_of_le (prefix_append ..) hj
  refine ⟨fun x hx j hj => ?_, fun x hx => ?_⟩
  · rcases mem_append.mp hx with hx | hx
    · obtain ⟨m', hm', hin'⟩ := hw.inside x hx j hj
      exact ⟨m', hsame hm', hin'⟩
    · obtain rfl := mem_singleton.mp hx
      cases hmaster.symm.trans hj
      exact ⟨m, hsame hi, hin⟩
  · rcases mem_append.mp hx with hx | hx
    · exact hw.sound x hx
    · exact mem_singleton.mp hx ▸ hc

/-- An accepted request that fits has its partition, and leaves all partitions inside their
masters. -/
theorem Inv.request (hw : Inv w) (hi : w[i]? = some m) (hplace : Placeable l w m partinfo stop)
    (h : addPartition l addMtdDevice w i m partinfo stop = .ok (w', stop')) : Placed w w' m partinfo stop := by
  have hm := hw.sound m (mem_of_getElem? hi)
  obtain ⟨names, rfl, hname, hstart, hstop⟩ := addPartition_ok h
  rw [partStart_toInt hm.size] at hstart
  have hfits := hplace hname hstart
  have hsize := @Fits.size_eq l m partinfo stop i hm hstart hfits
  obtain ⟨heq, hle, hin⟩ := @Fits.inMaster l m partinfo stop i hm hstart hfits hstop
  have hmaster : (newCdev l i m partinfo stop).master = some i := by
    unfold newCdev
    split <;> rfl
  -- on an MTD the partition counts from its own start
  have hsound : Sound (newCdev l i m partinfo stop) := by
    have hend := hin.stop
    have hoffset := hm.offset
    have hroom := hm.fits
    cases hmtd : m.mtd with
    | true =>
      have hzero : (newCdev l i m partinfo stop).offset.toInt = 0 := by simp [newCdev, hmtd]
      exact ⟨hin.size, by omega, by omega⟩
    | false =>
      have hdiff : startIn m (newCdev l i m partinfo stop)
          = (newCdev l i m partinfo stop).offset.toInt - m.offset.toInt := by simp [startIn, newCdev, hmtd]
      exact ⟨hin.size, by omega, by omega⟩
  have hlast : (w ++ [{ newCdev l i m partinfo stop with names := names }])[w.length]?
      = some { newCdev l i m partinfo stop with names := names } := getElem?_concat_length
  have hi' := getElem?_of_le (prefix_append w [{ newCdev l i m partinfo stop with names := names }]) hi
  refine ⟨hw.append hi hmaster ⟨hin.size, hin.start, hin.stop⟩ ⟨hsound.size, hsound.offset, hsound.fits⟩,
    prefix_append .., hstart, hfits.nonneg, hle, ?_, ?_⟩
  · exact startAt_eq_some_iff.mpr ⟨_, i, m, hlast, hmaster, hi', heq⟩
  · refine stopAt_eq_some_iff.mpr ⟨_, i, m, hlast, hmaster, hi', ?_⟩
    show startIn m (newCdev l i m partinfo stop) + (newCdev l i m partinfo stop).size.toInt = _
    omega

/-! ## Requests one after the other -/

/-- The loop over a table of partitions. -/
theorem createLoop_inv (parts : List DevfsPartition) : ∀ {w : Cdevs} {stop : Int64}, Inv w → w[i]? = some m →
    TableFits l addMtdDevice i m w stop parts → Inv (createLoop l addMtdDevice i m w stop parts).1 := by
  induction parts with
  | nil =>
    intro w stop hw _ _
    exact hw
  | cons partinfo rest ih =>
    intro w stop hw hi ⟨hplace, hrest⟩
    rw [createLoop]
    cases h : addPartition l addMtdDevice w i m partinfo stop with
    | error e => exact hw
    | ok r =>
      have hplaced := hw.request hi hplace h
      exact ih hplaced.inv (getElem?_of_le hplaced.le hi) (hrest _ _ h)

variable {devname : Bytes} {addDevname : Bool} {devsize offset : Int64} {item : Item}

theorem device_eq_some_iff :
    device w devname = some m ↔ ∃ i, cdevByName w devname = some i ∧ w[i]? = some m := by
  unfold device
  rw [Option.bind_eq_some_iff]

/-- A device is found in the same place when there are more. -/
theorem device_of_le (h : w <+: w') (hm : device w devname = some m) : device w' devname = some m := by
  obtain ⟨i, hname, hi⟩ := device_eq_some_iff.mp hm
  refine device_eq_some_iff.mpr ⟨i, ?_, getElem?_of_le h hi⟩
  obtain ⟨rest, rfl⟩ := h
  unfold cdevByName at *
  rw [findIdx?_append, hname, Option.some_or]

/-- A call for one partition is a request to the device of that name. -/
theorem devfsAddPartition_ok (h : devfsAddPartition l addMtdDevice w devname partinfo = .ok w') :
    ∃ i m stop', device w devname = some m ∧ w[i]? = some m
      ∧ addPartition l addMtdDevice w i m partinfo 0 = .ok (w', stop') := by
  unfold devfsAddPartition at h
  split at h
  next => nomatch h
  next i hname =>
  split at h
  next => nomatch h
  next m hi =>
  cases hadd : addPartition l addMtdDevice w i m partinfo 0 with
  | error e =>
    rw [hadd] at h
    nomatch h
  | ok r =>
    rw [hadd] at h
    cases h
    exact ⟨i, m, r.2, device_eq_some_iff.mpr ⟨i, hname, hi⟩, hi, hadd⟩

/-- The errors of a partition that is not added are not faults, … -/
theorem devfsAddPartition_error (h : devfsAddPartition l addMtdDevice w devname partinfo = .error e) :
    e ≠ .EFAULT := by
  unfold devfsAddPartition at h
  split at h
  next => cases h; decide
  next i hname =>
  split at h
  next => cases h; decide
  next m hi =>
  cases hadd : addPartition l addMtdDevice w i m partinfo 0 with
  | error e' =>
    rw [hadd] at h
    cases h
    exact addPartition_error hadd
  | ok r =>
    rw [hadd] at h
    nomatch h

/-- A partition of a string without an offset of its own has the one it is called with. -/
theorem parseItem_offset {parts : Bytes}
    (h : parseItem devname addDevname devsize offset parts = .ok item) (hexplicit : item.explicit = false) :
    item.partinfo.offset = offset := by
  have hoffset : ∀ {partstr : Bytes}, (offsetPart partstr offset).1 = false →
      (offsetPart partstr offset).2.1 = offset := by
    intro partstr hfalse
    unfold offsetPart at *
    split at hfalse
    next => nomatch hfalse
    next => rfl
  unfold parseItem at h
  dsimp only at h
  split at h
  next => nomatch h
  next =>
  generalize (if (sizePart parts).1 = sizeRemaining then _ else _) = size at h
  split at h
  next => nomatch h
  next =>
  have hitem := Except.ok.inj h
  rw [← hitem] at hexplicit ⊢
  exact hoffset hexplicit

/-- … nor those of a description whose name fits the buffer. -/
theorem parseItem_error {parts : Bytes} (hname : NameFits devname addDevname offset parts)
    (h : parseItem devname addDevname devsize offset parts = .error e) : e ≠ .EFAULT := by
  unfold parseItem at h
  dsimp only at h
  split at h
  next e' herr =>
    cases h
    unfold partName at herr
    split at herr
    next => cases herr; decide
    next buf rest hbuf =>
    rw [if_neg (Nat.not_le.mpr (hname buf rest hbuf))] at herr
    nomatch herr
  next =>
  generalize (if (sizePart parts).1 = sizeRemaining then _ else _) = size at h
  split at h
  next => cases h; decide
  next => nomatch h

/-- The loop over a string of partitions, of which the first starts at `prev` if it has no
offset of its own. -/
theorem parseLoop_inside (turns : Nat) : ∀ (prev : Int) {w : Cdevs} {offset : Int64} {parts : Bytes},
    parts.length < turns → Inv w →
    (∀ item m, parseItem devname addDevname devsize offset parts = .ok item → device w devname = some m →
      item.explicit = false → wanted m item.partinfo 0 = prev) →
    StringFits l addMtdDevice devname addDevname devsize turns w offset parts →
    ∃ w' ret, parseLoop l addMtdDevice devname addDevname devsize turns w offset parts = some (w', ret)
      ∧ Inv w' ∧ w <+: w' ∧ ret ≠ .error .EFAULT ∧ ∀ created, ret = .ok created → Chained w' prev created := by
  induction turns with
  | zero => exact fun _ _ _ _ hlt => absurd hlt (Nat.not_lt_zero _)
  | succ turns ih =>
    intro prev w offset parts hlt hw hprev ⟨hname, hfits⟩
    have hstop : ∀ {w' : Cdevs} {e : Errno}, Inv w' → w <+: w' → e ≠ .EFAULT →
        ∃ w'' ret, some (w', Except.error e) = some (w'', ret) ∧ Inv w'' ∧ w <+: w''
          ∧ ret ≠ .error .EFAULT ∧ ∀ created, ret = .ok created → Chained w'' prev created :=
      fun hw' hle he => ⟨_, _, rfl, hw', hle, fun heq => he (Except.error.inj heq), by rintro _ ⟨⟩⟩
    rw [parseLoop]
    cases hitem : parseItem devname addDevname devsize offset parts with
    | error e => exact hstop hw (prefix_refl w) (parseItem_error hname hitem)
    | ok item =>
      dsimp only
      cases hadd : devfsAddPartition l addMtdDevice w devname item.partinfo with
      | error e => exact hstop hw (prefix_refl w) (devfsAddPartition_error hadd)
      | ok w' =>
        obtain ⟨i, m, _, hm, hi, hreq⟩ := devfsAddPartition_ok hadd
        obtain ⟨hplace, hrest⟩ := hfits item m hitem hm
        have hplaced := hw.request hi hplace hreq
        have hfirst : item.explicit = false → startAt w' w.length = some prev := by
          intro hexplicit
          rw [hplaced.startAt_eq, hprev item m hitem hm hexplicit]
        cases hleft : item.rest with
        | nil =>
          refine ⟨w', _, rfl, hplaced.inv, hplaced.le, by rintro ⟨⟩, fun created hok => ?_⟩
          cases hok
          exact ⟨hfirst, _, hplaced.stopAt_eq, trivial⟩
        | cons c rest =>
          dsimp only
          by_cases hc : c = 44
          · subst hc
            obtain ⟨hfollows, hnext⟩ := hrest w' rest hadd hleft
            have hlen := (parseItem_rest hitem).length_le
            rw [hleft, length_cons] at hlen
            -- the next partition starts where this one has ended
            obtain ⟨w'', ret, hloop, hinv, hle, hret, hchain⟩ := ih (wantedEnd m item.partinfo 0) (by omega)
              hplaced.inv (fun next m' hparse hm' hexplicit => by
                cases (device_of_le hplaced.le hm).symm.trans hm'
                exact (hfollows next hparse hexplicit).wanted_next (hw.sound m (mem_of_getElem? hi)).size
                  hplaced.start hplaced.nonneg hplaced.fits (parseItem_offset hparse hexplicit)) hnext
            rw [if_neg (by decide), hloop]
            refine ⟨w'', _, rfl, hinv, hplaced.le.trans hle, ?_, fun created hok => ?_⟩
            · cases ret with
              | ok created => rintro ⟨⟩
              | error e => exact hret
            · cases ret with
              | error e => cases hok
              | ok created' =>
                cases hok
                exact ⟨fun hexplicit => startAt_of_le hle (hfirst hexplicit), _,
                  stopAt_of_le hle hplaced.stopAt_eq, hchain created' rfl⟩
          · rw [if_pos hc]
            exact hstop hplaced.inv hplaced.le (by decide)

/-! ## Calls -/

/-- A call whose requests fit leaves all partitions inside their masters, and those of a string
chained. -/
theorem Inv.step (hw : Inv w) (op : Op) (hfits : RequestsFit l addMtdDevice w op) :
    Inv (step l addMtdDevice w op) ∧ Parsed l addMtdDevice w op := by
  cases op with
  | add devname partinfo =>
    refine ⟨?_, trivial⟩
    rw [Devfs.step]
    cases h : devfsAddPartition l addMtdDevice w devname partinfo with
    | error e => exact hw
    | ok w' =>
      obtain ⟨i, m, _, hm, hi, hreq⟩ := devfsAddPartition_ok h
      exact (hw.request hi (hfits m hm) hreq).inv
  | create devname parts =>
    refine ⟨?_, trivial⟩
    rw [Devfs.step, devfsCreatePartitions]
    cases hname : cdevByName w devname with
    | none => exact hw
    | some i =>
      dsimp only
      cases hi : w[i]? with
      | none => exact hw
      | some m => exact createLoop_inv parts hw hi (hfits i m hname hi)
  | cmdline devname parts devsize addDevname =>
    rw [Devfs.step, Parsed, cmdlinepartDoParse]
    by_cases hparts : parts = []
    · rw [if_pos hparts]
      exact ⟨hw, w, _, rfl, by rintro ⟨⟩, fun created hok => by cases hok; trivial⟩
    obtain ⟨w', ret, hloop, hinv, -, hret, hchain⟩ := parseLoop_inside (parts.length + 1) 0
      (Nat.lt_succ_self _) hw (fun item m hitem _ hexplicit => by
        rw [wanted, parseItem_offset hitem hexplicit]
        rfl) (hfits hparts)
    rw [if_neg hparts, hloop]
    exact ⟨hinv, w', ret, rfl, hret, hchain⟩

/-- Devices that are no partitions -/
theorem devices_inv (devices : List Device) : Inv (devices.map Device.cdev) := by
  refine ⟨fun c hc i hi => ?_, fun c hc => ?_⟩
  · obtain ⟨d, -, rfl⟩ := mem_map.mp hc
    nomatch hi
  · obtain ⟨d, -, rfl⟩ := mem_map.mp hc
    have hsize := Int64.le_iff_toInt_le.mp d.nonneg
    have hlt := d.size.toInt_lt
    refine ⟨hsize, ?_, ?_⟩
    · exact Int.le_of_eq Int64.toInt_zero.symm
    · show (0 : Int64).toInt + d.size.toInt < 2 ^ 63
      rw [Int64.toInt_zero]
      omega

end

/-- Every sequence of calls whose requests fit leaves all partitions inside their masters, and
those of accepted strings chained. -/
theorem partitions_inside (l : Long) (addMtdDevice : Cdevs → Cdev → Nat → Registered) (devices : List Device)
    (ops : List Op)
    (hfit : Along (step l addMtdDevice) (RequestsFit l addMtdDevice) (devices.map Device.cdev) ops) :
    Inside (run (step l addMtdDevice) (devices.map Device.cdev) ops)
      ∧ Along (step l addMtdDevice) (Parsed l addMtdDevice) (devices.map Device.cdev) ops := by
  have hstep : ∀ (w : Cdevs) (op : Op), Inv w → RequestsFit l addMtdDevice w op → Inv (step l addMtdDevice w op) :=
    fun w op hw hop => (hw.step op hop).1
  exact ⟨(run_inv hstep ops hfit (devices_inv devices)).inside,
    Along.of_inv hstep (fun w op hw hop => (hw.step op hop).2) ops hfit (devices_inv devices)⟩

/-- A device of 100 bytes -/
def hundred : Device := ⟨[cstr "d"], 100, false, by decide⟩

/-- Two partitions of a string, and one of 20 bytes at the end of the second. -/
def nested : List Op := [.cmdline (cstr "d") (cstr "10(a),-(b)") 100 false, .add (cstr "b") ⟨-20, 0, 0, cstr "c"⟩]

theorem nested_inside : Inside (run (step .bits32 fun _ _ _ => .added) [hundred.cdev] nested)
    ∧ Along (step .bits32 fun _ _ _ => .added) (Parsed .bits32 fun _ _ _ => .added) [hundred.cdev] nested := by
  refine partitions_inside .bits32 _ [hundred] nested ⟨fun _ => ?_, ?_, trivial⟩
  · refine ⟨?_, ?_⟩
    · intro buf rest hbuf
      cases hbuf
      decide
    intro item m hitem hm
    cases hitem
    cases hm
    refine ⟨fun _ _ => ⟨by decide, by decide, by decide⟩, fun w' rest hadd hrest => ⟨fun _ _ _ => ?_, ?_⟩⟩
    · exact Or.inl (by decide)
    · cases hadd
      cases hrest
      refine ⟨?_, ?_⟩
      · intro buf rest hbuf
        cases hbuf
        decide
      intro item m hitem hm
      cases hitem
      cases hm
      exact ⟨fun _ _ => ⟨by decide, by decide, by decide⟩, nofun⟩
  · intro m hm
    cases hm
    exact fun _ _ => ⟨by decide, by decide, by decide⟩

/-- A partition behind the end of its master has a negative size. And the size zero in a string
is all that is left, but the next partition starts where this one has started. -/
theorem hundred_outside :
    run (step .bits64 fun _ _ _ => .added) [hundred.cdev] [.add (cstr "d") ⟨200, 0, 0, cstr "p"⟩]
        = [hundred.cdev, ⟨[cstr "p"], -100, 200, false, 0, some 0⟩]
      ∧ ¬ Inside (run (step .bits64 fun _ _ _ => .added) [hundred.cdev] [.add (cstr "d") ⟨200, 0, 0, cstr "p"⟩])
      ∧ ¬ Parsed .bits64 (fun _ _ _ => .added) [hundred.cdev] (.cmdline (cstr "d") (cstr "0(a),10(b)") 100 false) := by
  have hrun : run (step .bits64 fun _ _ _ => .added) [hundred.cdev] [.add (cstr "d") ⟨200, 0, 0, cstr "p"⟩]
      = [hundred.cdev, ⟨[cstr "p"], -100, 200, false, 0, some 0⟩] := by decide +kernel
  refine ⟨hrun, fun hin => ?_, fun hparsed => ?_⟩
  · rw [hrun] at hin
    obtain ⟨m, -, hmaster⟩ := hin _ (mem_cons_of_mem _ (mem_singleton.mpr rfl)) 0 rfl
    exact absurd hmaster.size (by decide)
  · obtain ⟨w', ret, hparse, -, hchain⟩ := hparsed
    cases hparse
    obtain ⟨-, stop, hstop, hnext, -⟩ := hchain _ rfl
    cases hstop
    exact absurd (hnext rfl) (by decide)

end Barebox.Devfs
