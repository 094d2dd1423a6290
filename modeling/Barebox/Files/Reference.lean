import Barebox.Files.Model

/-!
# One byte array — what open files are meant to be

The reference has the bytes of the file once, and a position for each descriptor.
`Stores` is what is asked of the driver: that it has the bytes, gives and takes those
that there are, and can truncate. Of a read or a write of bytes that there are not it
says nothing.

`SizeServes` says, for each call, what the size in the descriptor has to be for the call
to do what the reference does: mostly that of the file, but not always (a read that
ends before both does not see the difference).
-/

namespace Barebox.Files

open Lib List

/-! ## The reference -/

/-- The bytes of the file, and where each descriptor is. -/
structure Ref where
  data : Bytes
  files : Nat → Option (Nat × Mode)

/-- A write, in a file that can grow to `room`: without room for all of it, only the
bytes of the file are written. -/
def refWrite (room : Nat) (data : Bytes) (pos : Nat) (buf : Bytes) : Bytes × Except Errno Nat :=
  if buf.length = 0 then (data, .ok 0)
  else if pos + buf.length ≤ data.length then (overwrite pos buf data, .ok buf.length)
  else if pos + buf.length ≤ room then
    (overwrite pos buf (resized data (pos + buf.length)), .ok buf.length)
  else if pos < data.length then
    (overwrite pos (buf.take (data.length - pos)) data, .ok (data.length - pos))
  else (data, .error .ENOSPC)

/-- A call on a descriptor of the reference, if it is in use. -/
def withRef (ref : Ref) (fd : Nat) (call : Nat → Mode → Ref × Out) : Ref × Out :=
  match ref.files fd with
  | none => (ref, .error .EBADF)
  | some (pos, mode) => call pos mode

/-- What each call is meant to do. -/
def refStep (room : Nat) (ref : Ref) : Op → Ref × Out
  | .open_ flags =>
    match getFile ref.files with
    | none => (ref, .error .EMFILE)
    | some fd =>
      let data := if flags.trunc then [] else ref.data
      (⟨data, setFile ref.files fd (some (if flags.append then data.length else 0, flags.mode))⟩,
        .ok ([], fd))
  | .read fd count => withRef ref fd fun pos mode =>
    if mode = .wronly then (ref, .error .EBADF)
    else
      let buf := slice pos count ref.data
      ({ ref with files := setFile ref.files fd (some (pos + buf.length, mode)) }, .ok (buf, buf.length))
  | .pread fd count offset => withRef ref fd fun _ mode =>
    if mode = .wronly then (ref, .error .EBADF)
    else
      let buf := slice offset count ref.data
      (ref, .ok (buf, buf.length))
  | .write fd buf => withRef ref fd fun pos mode =>
    if mode = .rdonly then (ref, .error .EBADF)
    else
      match refWrite room ref.data pos buf with
      | (data, .error e) => ({ ref with data := data }, .error e)
      | (data, .ok n) => (⟨data, setFile ref.files fd (some (pos + n, mode))⟩, .ok ([], n))
  | .pwrite fd buf offset => withRef ref fd fun _ mode =>
    if mode = .rdonly then (ref, .error .EBADF)
    else
      match refWrite room ref.data offset buf with
      | (data, ret) => ({ ref with data := data }, ret.map fun n => ([], n))
  | .lseek fd offset whence => withRef ref fd fun pos mode =>
    match seek ref.data.length pos offset whence with
    | none => (ref, .error .EINVAL)
    | some pos => ({ ref with files := setFile ref.files fd (some (pos, mode)) }, .ok ([], pos))
  | .ftruncate fd length => withRef ref fd fun _ _ =>
    if length ≤ room then ({ ref with data := resized ref.data length }, .ok ([], 0))
    else (ref, .error .ENOSPC)
  | .close fd => withRef ref fd fun _ _ => ({ ref with files := setFile ref.files fd none }, .ok ([], 0))

/-! ## The driver -/

variable {σ : Type} {drv : Driver σ} {bytes : σ → Bytes} {room : Nat}

/-- The driver stores bytes, up to `room` of them, and honours truncate. Nothing is said
about bytes that are not there, nor about more of them than an `int` can count. -/
structure Stores (drv : Driver σ) (bytes : σ → Bytes) (room : Nat) : Prop where
  truncate : ∀ s f length, length ≤ room →
    (drv.truncate s f length).2 = .ok () ∧ bytes (drv.truncate s f length).1 = resized (bytes s) length
  full : ∀ s f length, room < length → length < 2 ^ 63 →
    (drv.truncate s f length).2 = .error .ENOSPC ∧ bytes (drv.truncate s f length).1 = bytes s
  read : ∀ s (f : File) count, count < 2 ^ 31 → f.pos + count ≤ (bytes s).length →
    drv.read s f count = .ok (slice f.pos count (bytes s))
  write : ∀ s (f : File) buf count, count < 2 ^ 31 → count ≤ buf.length →
    (count = 0 ∨ f.pos + count ≤ (bytes s).length) →
    (drv.write s f buf count).2 = .ok count
      ∧ bytes (drv.write s f buf count).1 = overwrite f.pos (buf.take count) (bytes s)

/-! ## Agreement -/

/-- The file is that of the reference, and the descriptors are where those of the
reference are. Nothing is said about the sizes in them, but that they are sizes. -/
structure Sync (bytes : σ → Bytes) (room : Nat) (fs : Fs σ) (ref : Ref) : Prop where
  data : bytes fs.store = ref.data
  iSize : fs.iSize = ref.data.length
  le : ref.data.length ≤ room
  files : ∀ fd, ref.files fd = (fs.files fd).map fun f => (f.pos, f.mode)
  bounds : ∀ fd f, fs.files fd = some f → f.pos < 2 ^ 63 ∧ f.size ≤ room

/-- The count that the caller has passed. -/
def Op.count : Op → Nat
  | .read _ count => count
  | .pread _ count _ => count
  | .write _ buf => buf.length
  | .pwrite _ buf _ => buf.length
  | _ => 0

/-- A call does what the reference does, and calls the driver with no more than it
was asked for. -/
structure Same (l : Long) (drv : Driver σ) (bytes : σ → Bytes) (room : Nat) (fs : Fs σ) (ref : Ref)
    (op : Op) : Prop where
  out : (step l drv fs op).2.2 = (refStep room ref op).2
  sync : Sync bytes room (step l drv fs op).1 (refStep room ref op).1
  counts : ∀ n ∈ (step l drv fs op).2.1, n ≤ op.count

/-! ## What the size in the descriptor has to be -/

/-- For a read of `count` at `pos`, in a file of `len` bytes. -/
structure ServesRead (size len pos count : Nat) : Prop where
  le : pos ≤ size
  fits : pos + count < 2 ^ 64
  same : min count (size - pos) = min count (len - pos)
  small : min count (len - pos) < 2 ^ 31

/-- For a write of `count`. The cases are those of `__write`: the write ends behind the size
in the descriptor, and there is room for it or not; or it ends inside. -/
def ServesWrite (room size len pos count : Nat) : Prop :=
  if size < pos + count then
    if pos + count ≤ room then len ≤ pos + count ∧ (count = 0 → pos = len) ∧ count < 2 ^ 31
    else pos ≤ size ∧ size - pos = len - pos ∧ len - pos < 2 ^ 31 ∧ pos + count < 2 ^ 63
  else (count = 0 ∨ pos + count ≤ len) ∧ count < 2 ^ 31

/-- For an `lseek`: from the end, the sizes are the same or both refuse; elsewhere, the
new position is inside of both or of none. -/
def ServesSeek (size len pos : Nat) (offset : Int) : Whence → Prop
  | .set => offset ≤ size ↔ offset ≤ len
  | .cur => pos + offset ≤ size ↔ pos + offset ≤ len
  | .end_ => size = len ∨ 0 < offset ∨ size + offset < 0 ∧ len + offset < 0

/-- The size in the descriptor of the call serves for it, where the file has `len` bytes. -/
def SizeServes (room len : Nat) (files : Nat → Option File) : Op → Prop
  | .read fd count => ∀ f, files fd = some f → f.mode ≠ .wronly → ServesRead f.size len f.pos count
  | .pread fd count offset => ∀ f, files fd = some f → f.mode ≠ .wronly →
    ServesRead f.size len offset count
  | .write fd buf => ∀ f, files fd = some f → f.mode ≠ .rdonly →
    ServesWrite room f.size len f.pos buf.length
  | .pwrite fd buf offset => ∀ f, files fd = some f → f.mode ≠ .rdonly →
    ServesWrite room f.size len offset buf.length
  | .lseek fd offset whence => ∀ f, files fd = some f → ServesSeek f.size len f.pos offset whence
  | _ => True

/-! ## Reads -/

variable {l : Long} {s : σ} {f : File} {buf data : Bytes} {pos count : Nat}

/-- Where the position is not behind the size, a count that is cut to what is left of the
size is the lesser of the two. -/
theorem left_eq (hle : f.pos ≤ f.size) (hcut : f.size - f.pos < 2 ^ l.bits) :
    left l f = f.size - f.pos := by
  unfold left
  have hdvd : (2 : Nat) ^ l.bits ∣ 2 ^ 64 := by
    cases l
    all_goals decide
  obtain ⟨k, hk⟩ := hdvd
  have hsum : f.size + 2 ^ 64 - f.pos = (f.size - f.pos) + 2 ^ l.bits * k := by omega
  rw [hsum, Nat.add_mul_mod_self_left, Nat.mod_eq_of_lt hcut]

/-- `__read` reads the bytes of the file, and no more than it was asked for. -/
theorem read_serves (hdrv : Stores drv bytes room) (hmode : f.mode ≠ .wronly)
    (hsize : f.size < 2 ^ 63) (hcount : count < 2 ^ l.bits)
    (hserve : ServesRead f.size (bytes s).length f.pos count) :
    ∃ counts, read_ l drv s f count = (counts, .ok (slice f.pos count (bytes s)))
      ∧ ∀ n ∈ counts, n ≤ count := by
  obtain ⟨hle, hfits, hsame, hsmall⟩ := hserve
  have hcut : (if f.size < (f.pos + count) % 2 ^ 64 then left l f else count)
      = min count (f.size - f.pos) := by
    split
    next hlt =>
      rw [left_eq hle (by omega)]
      omega
    next => omega
  -- the bytes that the driver is asked for are those that there are
  have hslice : slice f.pos (min count (f.size - f.pos)) (bytes s) = slice f.pos count (bytes s) := by
    unfold slice
    rw [hsame, ← length_drop, ← take_eq_take_min]
  unfold read_
  rw [if_neg hmode, hcut]
  dsimp only
  split
  next hz =>
    refine ⟨[], ?_, nofun⟩
    rw [← hslice, hz]
    rfl
  next hz =>
    refine ⟨[min count (f.size - f.pos)], ?_, fun n hn => ?_⟩
    · rw [hdrv.read s f _ (by omega) (by omega), hslice]
    · rw [mem_singleton.mp hn]
      omega

/-! ## Writes -/

theorem overwrite_nil : overwrite pos [] data = data := by
  unfold overwrite
  rw [append_nil, length_nil, Nat.add_zero, take_append_drop]

/-- What `__write` leaves behind where it does what the reference does: the bytes of the
reference, a size that is theirs if it has been set, and no more than `room`. -/
structure Written (bytes : σ → Bytes) (room : Nat) (s : σ) (f : File) (buf : Bytes) (s' : σ)
    (size : Option Nat) (counts : List Nat) (out : Except Errno Nat) : Prop where
  ret : out = (refWrite room (bytes s) f.pos buf).2
  data : bytes s' = (refWrite room (bytes s) f.pos buf).1
  size : size = none ∧ (bytes s').length = (bytes s).length ∨ size = some (bytes s').length
  counts : ∀ n ∈ counts, n ≤ buf.length
  le : (bytes s').length ≤ room
  fits : ∀ n, out = .ok n → n = 0 ∨ f.pos + n ≤ room

section

variable (hdrv : Stores drv bytes room) (hmode : f.mode ≠ .rdonly)
include hdrv hmode

/-- The write ends behind the size in the descriptor: the file gets the size of its end. -/
theorem write_grow (hgrow : f.size < f.pos + buf.length) (hfits : f.pos + buf.length ≤ room)
    (hle : (bytes s).length ≤ f.pos + buf.length) (hempty : buf.length = 0 → f.pos = (bytes s).length)
    (hsmall : buf.length < 2 ^ 31) : ∃ s' size counts ret,
      write_ l drv s f buf = (s', size, counts, ret) ∧ Written bytes room s f buf s' size counts ret := by
  obtain ⟨hok, hresized⟩ := hdrv.truncate s f _ hfits
  have hlen := resized_length (bytes s) (f.pos + buf.length)
  unfold write_
  rw [if_neg hmode]
  rw [if_pos hgrow]
  generalize drv.truncate s f (f.pos + buf.length) = t at hok hresized
  obtain ⟨s₁, ret₁⟩ := t
  cases hok
  obtain ⟨hret, hdata⟩ := hdrv.write s₁ { f with size := f.pos + buf.length } buf buf.length hsmall
    (Nat.le_refl _) (Or.inr (by rw [hresized, hlen]))
  rw [take_length, hresized] at hdata
  refine ⟨_, _, _, _, rfl, ?_⟩
  have hnew : (overwrite f.pos buf (resized (bytes s) (f.pos + buf.length))).length = f.pos + buf.length := by
    rw [overwrite_length (Nat.le_of_eq hlen.symm), hlen]
  -- the reference: nothing is written, or the write ends at the end of the file, or behind it
  have href : refWrite room (bytes s) f.pos buf
      = (overwrite f.pos buf (resized (bytes s) (f.pos + buf.length)), .ok buf.length) := by
    unfold refWrite
    by_cases hz : buf.length = 0
    · rw [if_pos hz, hz, hempty hz, Nat.add_zero, resized_self, eq_nil_of_length_eq_zero hz, overwrite_nil]
    · rw [if_neg hz, if_pos hfits]
      by_cases hin : f.pos + buf.length ≤ (bytes s).length
      · rw [if_pos hin, Nat.le_antisymm hin hle, resized_self]
      · rw [if_neg hin]
  refine ⟨?_, ?_, Or.inr ?_, fun n hn => Nat.le_of_eq (mem_singleton.mp hn), ?_, fun n hn => ?_⟩
  · rw [href]
    exact hret
  · rw [href]
    exact hdata
  · rw [hdata, hnew]
  · rw [hdata, hnew]
    exact hfits
  · rw [hret] at hn
    cases hn
    exact Or.inr hfits

/-- There is no room for it, and the write is cut to the size in the descriptor. -/
theorem write_full (hgrow : f.size < f.pos + buf.length) (hfull : room < f.pos + buf.length)
    (hpos : f.pos ≤ f.size) (hsame : f.size - f.pos = (bytes s).length - f.pos)
    (hsmall : (bytes s).length - f.pos < 2 ^ 31) (hwide : f.pos + buf.length < 2 ^ 63)
    (hlen : (bytes s).length ≤ room) : ∃ s' size counts ret,
      write_ l drv s f buf = (s', size, counts, ret) ∧ Written bytes room s f buf s' size counts ret := by
  obtain ⟨herr, hkept⟩ := hdrv.full s f _ hfull hwide
  have hbits : 2 ^ 31 < 2 ^ l.bits := by
    cases l
    all_goals decide
  have hleft : left l f = (bytes s).length - f.pos := by
    rw [left_eq hpos (by omega), hsame]
  -- the file does not grow, and is written as far as it goes
  unfold write_
  rw [if_neg hmode]
  rw [if_pos hgrow]
  generalize drv.truncate s f (f.pos + buf.length) = t at herr hkept
  obtain ⟨s₁, ret₁⟩ := t
  cases herr
  have href : refWrite room (bytes s) f.pos buf = if f.pos < (bytes s).length then
      (overwrite f.pos (buf.take ((bytes s).length - f.pos)) (bytes s), .ok ((bytes s).length - f.pos))
      else (bytes s, .error .ENOSPC) := by
    unfold refWrite
    rw [if_neg (by omega), if_neg (by omega), if_neg (by omega)]
  dsimp only at hkept ⊢
  rw [hleft]
  split
  next hz =>
    rw [if_neg (by omega)] at href
    refine ⟨_, _, _, _, rfl, ?_, ?_, Or.inl ⟨rfl, by rw [hkept]⟩, nofun, ?_, nofun⟩
    · rw [href]
    · rw [href]
      exact hkept
    · rw [hkept]
      exact hlen
  next hz =>
    rw [if_pos (by omega)] at href
    obtain ⟨hret, hdata⟩ := hdrv.write s₁ f buf ((bytes s).length - f.pos) hsmall (by omega)
      (Or.inr (by rw [hkept]; omega))
    rw [hkept] at hdata
    have hnew : (overwrite f.pos (buf.take ((bytes s).length - f.pos)) (bytes s)).length = (bytes s).length :=
      overwrite_length (by rw [length_take]; omega)
    refine ⟨_, _, _, _, rfl, ?_, ?_, Or.inl ⟨rfl, ?_⟩, fun n hn => ?_, ?_, fun n hn => ?_⟩
    · rw [href]
      exact hret
    · rw [href]
      exact hdata
    · rw [hdata, hnew]
    · rw [mem_singleton.mp hn]
      omega
    · rw [hdata, hnew]
      exact hlen
    · rw [hret] at hn
      cases hn
      omega

/-- The write ends inside of the size in the descriptor, and of the file. -/
theorem write_inside (hin : ¬ f.size < f.pos + buf.length)
    (hbytes : buf.length = 0 ∨ f.pos + buf.length ≤ (bytes s).length) (hsmall : buf.length < 2 ^ 31)
    (hlen : (bytes s).length ≤ room) : ∃ s' size counts ret,
      write_ l drv s f buf = (s', size, counts, ret) ∧ Written bytes room s f buf s' size counts ret := by
  obtain ⟨hret, hdata⟩ := hdrv.write s f buf buf.length hsmall (Nat.le_refl _) hbytes
  rw [take_length] at hdata
  have href : refWrite room (bytes s) f.pos buf = (overwrite f.pos buf (bytes s), .ok buf.length) := by
    unfold refWrite
    by_cases hz : buf.length = 0
    · rw [if_pos hz, hz, eq_nil_of_length_eq_zero hz, overwrite_nil]
    · rw [if_neg hz, if_pos (hbytes.resolve_left hz)]
  have hnew : (overwrite f.pos buf (bytes s)).length = (bytes s).length := by
    rcases hbytes with hz | hbytes
    · rw [eq_nil_of_length_eq_zero hz, overwrite_nil]
    · exact overwrite_length hbytes
  unfold write_
  rw [if_neg hmode]
  rw [if_neg hin]
  refine ⟨_, _, _, _, rfl, ?_, ?_, Or.inl ⟨rfl, ?_⟩, fun n hn => Nat.le_of_eq (mem_singleton.mp hn), ?_,
    fun n hn => ?_⟩
  · rw [href]
    exact hret
  · rw [href]
    exact hdata
  · rw [hdata, hnew]
  · rw [hdata, hnew]
    exact hlen
  · rw [hret] at hn
    cases hn
    omega

/-- `__write` does what the reference does if the size in the descriptor serves. -/
theorem write_serves (hlen : (bytes s).length ≤ room)
    (hserve : ServesWrite room f.size (bytes s).length f.pos buf.length) : ∃ s' size counts ret,
      write_ l drv s f buf = (s', size, counts, ret) ∧ Written bytes room s f buf s' size counts ret := by
  unfold ServesWrite at hserve
  split at hserve
  next hgrow =>
    split at hserve
    next hfits => exact write_grow hdrv hmode hgrow hfits hserve.1 hserve.2.1 hserve.2.2
    next hfull =>
      exact write_full hdrv hmode hgrow (Nat.lt_of_not_le hfull) hserve.1 hserve.2.1 hserve.2.2.1 hserve.2.2.2 hlen
  next hin => exact write_inside hdrv hmode hin hserve.1 hserve.2 hlen

end

/-! ## Positions -/

/-- The position that `lseek` comes to is the one it would come to with the size of the file. -/
theorem seek_serves {size len : Nat} {offset : Int} {whence : Whence}
    (h : ServesSeek size len pos offset whence) :
    seek size pos offset whence = seek len pos offset whence := by
  unfold ServesSeek at h
  unfold seek
  cases whence
  all_goals
    dsimp only at h ⊢
    split <;> split
  all_goals first | rfl | exact absurd h (by omega) | skip
  all_goals
    refine congrArg some ?_
    omega

/-- It is inside of the file. -/
theorem seek_le {size p : Nat} {offset : Int} {whence : Whence}
    (hseek : seek size pos offset whence = some p) : p ≤ size := by
  unfold seek at hseek
  cases whence
  all_goals
    dsimp only at hseek
    split at hseek
    next => nomatch hseek
    next hin =>
    cases hseek
    omega

end Barebox.Files
