import Barebox.Strtox

/-!
# Partitions of devices — `fs/devfs-core.c`, `lib/cmdlinepart.c`

`__devfs_add_partition` takes an offset and a size, each of which can be positive, zero
or negative, and adds a device of that size behind the others. A string of partitions
becomes one call of it per part, from where the last one ended on.

Mirroring notes:
- `loff_t` is `Int64`; the sources are built with `-fno-strict-overflow`. `off_t` is a `long`,
  of size `l`.
- a device has all the names under which it can be found: its own and those of the links
  to it. The devices are a list that only grows; `master` is a position in it.
- what becomes of a partition of an MTD device is up to `add_mtd_device`: its device is
  refused, or added, or found to conflict with another one. In the last case it is
  removed from devfs, but no error is returned.
- `EFAULT` is for a name that is longer than the buffer for it.
- the partition's name below its master (`partname`), automounts and the bad block aware
  devices are left out; so is what a plain partition does with its flags (nothing).
-/

namespace Barebox.Devfs

open Lib

/-- `struct cdev`, with the `master_offset` of its `struct mtd_info` -/
structure Cdev where
  names : List Bytes
  size : Int64
  offset : Int64
  mtd : Bool
  masterOffset : Int64
  master : Option Nat
  deriving DecidableEq

/-- `cdev_list` -/
abbrev Cdevs := List Cdev

/-- `struct devfs_partition` -/
structure DevfsPartition where
  offset : Int64
  size : Int64
  flags : Nat
  name : Bytes
  deriving DecidableEq

/-- What `add_mtd_device` does with the device of a partition. -/
inductive Registered where
  | refused
  | added
  | removed
  deriving DecidableEq

def cdevByName (w : Cdevs) (name : Bytes) : Option Nat := w.findIdx? fun c => c.names.contains name

/-- Where the partition starts -/
def partStart (cdev : Cdev) (partinfo : DevfsPartition) (stop : Int64) : Int64 :=
  if 0 < partinfo.offset then partinfo.offset
  else if partinfo.offset = 0 then stop
  else cdev.size + partinfo.offset

/-- Its size -/
def partSize (cdev : Cdev) (partinfo : DevfsPartition) (offset : Int64) : Int64 :=
  if 0 < partinfo.size then partinfo.size else cdev.size + partinfo.size - offset

/-- An offset as an `off_t` -/
def offT : Long → Int64 → Int64
  | .bits32, offset => offset.toInt32.toInt64
  | .bits64, offset => offset

variable (l : Long)

/-- The device of a partition of device `i` -/
def newCdev (i : Nat) (cdev : Cdev) (partinfo : DevfsPartition) (stop : Int64) : Cdev :=
  let offset := partStart cdev partinfo stop
  let size := partSize cdev partinfo offset
  if cdev.mtd then ⟨[partinfo.name], size, 0, true, offT l offset, some i⟩
  else ⟨[partinfo.name], size, cdev.offset + offset, false, 0, some i⟩

variable (addMtdDevice : Cdevs → Cdev → Nat → Registered)

/-- `mtd_add_partition`, and the other half of `__devfs_add_partition` for plain devices -/
def addCdev (w : Cdevs) (new : Cdev) (flags : Nat) : Except Errno Cdevs :=
  if new.mtd then
    match addMtdDevice w new flags with
    | .refused => .error .EINVAL
    | .added => .ok (w ++ [new])
    | .removed => .ok (w ++ [{ new with names := [] }])
  else .ok (w ++ [new])

/-- `__devfs_add_partition`: the devices, of which the last is the new one, and `*end` -/
def addPartition (w : Cdevs) (i : Nat) (cdev : Cdev) (partinfo : DevfsPartition) (stop : Int64) :
    Except Errno (Cdevs × Int64) :=
  if (cdevByName w partinfo.name).isSome then .error .EEXIST
  else
    let offset := partStart cdev partinfo stop
    let stop' := offset + partSize cdev partinfo offset
    if offset < 0 ∨ cdev.size < stop' then .error .EINVAL
    else (addCdev addMtdDevice w (newCdev l i cdev partinfo stop) partinfo.flags).map (·, stop')

/-- `devfs_add_partition` -/
def devfsAddPartition (w : Cdevs) (devname : Bytes) (partinfo : DevfsPartition) : Except Errno Cdevs :=
  match cdevByName w devname with
  | none => .error .ENOENT
  | some i =>
    match w[i]? with
    | none => .error .ENOENT
    | some cdev => (addPartition l addMtdDevice w i cdev partinfo 0).map (·.1)

/-- The loop of `devfs_create_partitions`; the partitions before an error stay. -/
def createLoop (i : Nat) (cdev : Cdev) : Cdevs → Int64 → List DevfsPartition → Cdevs × Except Errno Unit
  | w, _, [] => (w, .ok ())
  | w, stop, partinfo :: rest =>
    match addPartition l addMtdDevice w i cdev partinfo stop with
    | .error e => (w, .error e)
    | .ok (w', stop') => createLoop i cdev w' stop' rest

/-- `devfs_create_partitions` -/
def devfsCreatePartitions (w : Cdevs) (devname : Bytes) (parts : List DevfsPartition) : Cdevs × Except Errno Unit :=
  match cdevByName w devname with
  | none => (w, .error .ENOENT)
  | some i =>
    match w[i]? with
    | none => (w, .error .ENOENT)
    | some cdev => createLoop l addMtdDevice i cdev w 0 parts

/-! ## Strings of partitions -/

/-- `strtoull_suffix`: a number with a suffix G, M, K or k, and `iB` behind it -/
def strtoullSuffix (str : Bytes) (base : Nat) : Nat × Bytes :=
  let (val, rest) := simpleStrtoull str base
  let (val, rest) :=
    match rest with
    | 71 :: rest => (val * 1024 ^ 3 % 2 ^ 64, rest)
    | 77 :: rest => (val * 1024 ^ 2 % 2 ^ 64, rest)
    | 75 :: rest => (val * 1024 % 2 ^ 64, rest)
    | 107 :: rest => (val * 1024 % 2 ^ 64, rest)
    | rest => (val, rest)
  (val, if rest.take 2 = cstr "iB" then rest.drop 2 else rest)

/-- `PATH_MAX` -/
def pathMax : Nat := 1024

/-- `SIZE_REMAINING` -/
def sizeRemaining : Int64 := -1

/-- One partition of the string, as `cmdlinepart_do_parse_one` reads it: the arguments
for `devfs_add_partition`, whether there was an `@`, and the rest of the string -/
structure Item where
  partinfo : DevfsPartition
  explicit : Bool
  rest : Bytes

/-- The name in parentheses as it is put together, if there is one, with the rest behind it -/
def nameBuf (devname : Bytes) (addDevname : Bool) (partstr : Bytes) : Option (Bytes × Bytes) :=
  match partstr with
  | 40 :: partstr =>
    match partstr.dropWhile (· ≠ 41) with
    | [] => none
    | _ :: rest =>
      let front := if addDevname ∧ ¬ devname.isPrefixOf partstr then devname ++ [46] else []
      some (front ++ partstr.takeWhile (· ≠ 41), rest)
  | _ => some ([], partstr)

/-- The name in its buffer -/
def partName (devname : Bytes) (addDevname : Bool) (partstr : Bytes) : Except Errno (Bytes × Bytes) :=
  match nameBuf devname addDevname partstr with
  | none => .error .EINVAL
  | some (buf, rest) => if pathMax ≤ buf.length then .error .EFAULT else .ok (buf, rest)

/-- The size at the beginning of a partition -/
def sizePart (partstr : Bytes) : Int64 × Bytes :=
  match partstr with
  | 45 :: rest => (sizeRemaining, rest)
  | _ =>
    let (n, rest) := strtoullSuffix partstr 0
    (Int64.ofNat n, rest)

/-- The offset behind an `@`; without one it is `*offset`. -/
def offsetPart (partstr : Bytes) (offset : Int64) : Bool × Int64 × Bytes :=
  match partstr with
  | 64 :: rest =>
    let (n, rest) := strtoullSuffix rest 0
    (true, Int64.ofNat n, rest)
  | _ => (false, offset, partstr)

/-- `DEVFS_PARTITION_READONLY` for `ro` -/
def roPart (partstr : Bytes) : Nat × Bytes :=
  match partstr with
  | 114 :: 111 :: rest => (2, rest)
  | _ => (0, partstr)

/-- `cmdlinepart_do_parse_one` up to its call of `devfs_add_partition` -/
def parseItem (devname : Bytes) (addDevname : Bool) (devsize offset : Int64) (partstr : Bytes) : Except Errno Item :=
  let (size, partstr) := sizePart partstr
  let (explicit, offset, partstr) := offsetPart partstr offset
  let size := if size = sizeRemaining then devsize - offset else size
  match partName devname addDevname partstr with
  | .error e => .error e
  | .ok (buf, partstr) =>
    if devsize < size + offset then .error .EINVAL
    else
      let (flags, partstr) := roPart partstr
      .ok ⟨⟨offset, size, flags, buf⟩, explicit, partstr⟩

variable (devname : Bytes) (addDevname : Bool) (devsize : Int64)

/-- The loop of `cmdlinepart_do_parse`. On success: the partitions of the string, each with
the position of its device. There is no result if the turns are not enough. -/
def parseLoop : Nat → Cdevs → Int64 → Bytes → Option (Cdevs × Except Errno (List (Item × Nat)))
  | 0, _, _, _ => none
  | turns + 1, w, offset, parts =>
    match parseItem devname addDevname devsize offset parts with
    | .error e => some (w, .error e)
    | .ok item =>
      match devfsAddPartition l addMtdDevice w devname item.partinfo with
      | .error e => some (w, .error e)
      | .ok w' =>
        match item.rest with
        | [] => some (w', .ok [(item, w.length)])
        | c :: rest =>
          if c ≠ 44 then some (w', .error .EINVAL)
          else (parseLoop turns w' (item.partinfo.offset + item.partinfo.size) rest).map fun (w'', created) =>
            (w'', created.map ((item, w.length) :: ·))

/-- `cmdlinepart_do_parse`; a turn takes a comma at least. -/
def cmdlinepartDoParse (w : Cdevs) (parts : Bytes) : Option (Cdevs × Except Errno (List (Item × Nat))) :=
  if parts = [] then some (w, .ok [])
  else parseLoop l addMtdDevice devname addDevname devsize (parts.length + 1) w 0 parts

/-! ### What is left is an end of the string -/

theorem parseInteger_rest (base : Nat) (s : Bytes) (res : Nat) : (parseInteger base s res).2 <:+ s := by
  fun_induction parseInteger base s res with
  | case4 res c s val hval hbase ih => exact ih.trans (List.suffix_cons ..)
  | _ => exact List.suffix_rfl

theorem ite_drop_rest (p : Prop) [Decidable p] (s : Bytes) : (if p then s.drop 2 else s) <:+ s := by
  split
  next => exact List.drop_suffix ..
  next => exact List.suffix_rfl

/-- What is left behind a number. -/
theorem strtoullSuffix_rest (str : Bytes) (base : Nat) : (strtoullSuffix str base).2 <:+ str := by
  have hradix : (parseIntegerFixupRadix str base).1 <:+ str := by
    unfold parseIntegerFixupRadix
    rw [apply_ite Prod.fst]
    exact ite_drop_rest ..
  have hint : (simpleStrtoull str base).2 <:+ str := (parseInteger_rest ..).trans hradix
  have hunit : ∀ {c : UInt8} {rest : Bytes}, (simpleStrtoull str base).2 = c :: rest → rest <:+ str :=
    fun heq => (List.suffix_cons ..).trans (heq ▸ hint)
  refine (ite_drop_rest ..).trans ?_
  split
  next heq => exact hunit heq
  next heq => exact hunit heq
  next heq => exact hunit heq
  next heq => exact hunit heq
  next => exact hint

/-- What is left behind a partition of a string. -/
theorem parseItem_rest {devname : Bytes} {addDevname : Bool} {devsize offset : Int64} {parts : Bytes} {item : Item}
    (h : parseItem devname addDevname devsize offset parts = .ok item) : item.rest <:+ parts := by
  -- each part leaves a suffix of what it was given
  have hsize : (sizePart parts).2 <:+ parts := by
    unfold sizePart
    split
    next => exact List.suffix_cons ..
    next => exact strtoullSuffix_rest ..
  have hoffset : ∀ s : Bytes, (offsetPart s offset).2.2 <:+ s := by
    intro s
    unfold offsetPart
    split
    next => exact (strtoullSuffix_rest ..).trans (List.suffix_cons ..)
    next => exact List.suffix_rfl
  have hro : ∀ s : Bytes, (roPart s).2 <:+ s := by
    intro s
    unfold roPart
    split
    next rest => exact ⟨[114, 111], rfl⟩
    next => exact List.suffix_rfl
  have hname : ∀ {s buf rest : Bytes}, partName devname addDevname s = .ok (buf, rest) → rest <:+ s := by
    intro s buf rest hok
    have hbuf : nameBuf devname addDevname s = some (buf, rest) := by
      unfold partName at hok
      split at hok
      next => nomatch hok
      next heq =>
      split at hok
      next => nomatch hok
      next => rw [heq, Except.ok.inj hok]
    unfold nameBuf at hbuf
    split at hbuf
    next s =>
      have hdrop : s.dropWhile (· ≠ 41) <:+ s := List.dropWhile_suffix _
      split at hbuf
      next => nomatch hbuf
      next heq =>
      cases hbuf
      exact (List.suffix_cons ..).trans ((heq ▸ hdrop).trans (List.suffix_cons ..))
    next =>
    cases hbuf
    exact List.suffix_rfl
  unfold parseItem at h
  dsimp only at h
  split at h
  next => nomatch h
  next buf rest hok =>
  generalize (if (sizePart parts).1 = sizeRemaining then _ else _) = size at h
  split at h
  next => nomatch h
  next =>
  cases h
  exact (hro rest).trans ((hname hok).trans ((hoffset _).trans hsize))

/-- The loop over a string ends, whatever is in it and whatever becomes of its partitions. A turn
for each character is enough, and more change nothing. -/
theorem parseLoop_ends (turns : Nat) : ∀ (w : Cdevs) (offset : Int64) (parts : Bytes), parts.length < turns →
    ∃ r, ∀ more, parseLoop l addMtdDevice devname addDevname devsize (turns + more) w offset parts = some r := by
  induction turns with
  | zero => exact nofun
  | succ turns ih =>
    intro w offset parts h
    simp only [Nat.add_right_comm turns 1, parseLoop]
    cases hitem : parseItem devname addDevname devsize offset parts with
    | error e => exact ⟨_, fun _ => rfl⟩
    | ok item =>
      -- what is left is shorter by a comma
      have hle := (parseItem_rest hitem).length_le
      dsimp only
      cases devfsAddPartition l addMtdDevice w devname item.partinfo with
      | error e => exact ⟨_, fun _ => rfl⟩
      | ok w' =>
        cases hrest : item.rest with
        | nil => exact ⟨_, fun _ => rfl⟩
        | cons c rest =>
          rw [hrest, List.length_cons] at hle
          obtain ⟨r, hr⟩ := ih w' (item.partinfo.offset + item.partinfo.size) rest (by omega)
          dsimp only
          split
          next => exact ⟨_, fun _ => rfl⟩
          next => exact ⟨_, fun more => by rw [hr more]; rfl⟩

/-- Two partitions of a device of 100 bytes are made in two turns, however many there are. -/
theorem parseLoop_ends_two : ∃ r, r.1.map Cdev.size = [100, 10, 90] ∧ ∀ more,
    parseLoop .bits32 (fun _ _ _ => .added) (cstr "d") false 100 (11 + more)
      [⟨[cstr "d"], 100, 0, false, 0, none⟩] 0 (cstr "10(a),-(b)") = some r := by
  obtain ⟨r, hr⟩ := parseLoop_ends .bits32 (fun _ _ _ => .added) (cstr "d") false 100 11
    [⟨[cstr "d"], 100, 0, false, 0, none⟩] 0 (cstr "10(a),-(b)") (by decide)
  refine ⟨r, ?_, hr⟩
  have hfirst := hr 0
  cases hfirst
  rfl

/-! ## Calls -/

inductive Op where
  | add (devname : Bytes) (partinfo : DevfsPartition)
  | create (devname : Bytes) (parts : List DevfsPartition)
  | cmdline (devname parts : Bytes) (devsize : Int64) (addDevname : Bool)

/-- The devices after a call; one that fails may leave some of its partitions. -/
def step (w : Cdevs) : Op → Cdevs
  | .add devname partinfo =>
    match devfsAddPartition l addMtdDevice w devname partinfo with
    | .error _ => w
    | .ok w' => w'
  | .create devname parts => (devfsCreatePartitions l addMtdDevice w devname parts).1
  | .cmdline devname parts devsize addDevname =>
    match cmdlinepartDoParse l addMtdDevice devname addDevname devsize w parts with
    | none => w
    | some (w', _) => w'

/-- A device that is no partition -/
structure Device where
  names : List Bytes
  size : Int64
  mtd : Bool
  nonneg : 0 ≤ size

def Device.cdev (d : Device) : Cdev := ⟨d.names, d.size, 0, d.mtd, 0, none⟩

end Barebox.Devfs
