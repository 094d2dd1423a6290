import Barebox.Files.Reference
import Barebox.Lib.Run

/-!
# Open files and the byte array

With any driver that stores bytes, a call does what the byte array does if the size in its
descriptor serves for it (`same_of_serves`), and so do all sequences of such calls, through
any number of descriptors (`files_refine`). The sizes go wrong when the file is truncated or
grows through another descriptor.
-/

namespace Barebox.Files

open Lib

variable {σ : Type} {drv : Driver σ} {bytes : σ → Bytes} {room : Nat} {l : Long}
variable {fs : Fs σ} {ref : Ref} {fd pos : Nat}

/-- A descriptor that is set to what it has been. -/
theorem setFile_self {α : Type} {files : Nat → Option α} {f : α} (h : files fd = some f) :
    setFile files fd (some f) = files := by
  funext i
  unfold setFile
  split
  next hi => rw [hi, h]
  next => rfl

/-- Both find the same free place in the table of files. -/
theorem getFile_eq (h : Sync bytes room fs ref) : getFile ref.files = getFile fs.files := by
  unfold getFile
  congr 1
  funext i
  rw [h.files i, Option.isNone_map]

variable {data buf : Bytes} {f : File} {counts : List Nat} {store : σ}

/-- A descriptor that is not in use. -/
theorem withFile_none (hf : fs.files fd = none) (call : File → Fs σ × List Nat × Out) :
    withFile fs fd call = (fs, [], .error .EBADF) := by
  unfold withFile
  rw [hf]

theorem withFile_some (hf : fs.files fd = some f) (call : File → Fs σ × List Nat × Out) :
    withFile fs fd call = call f := by
  unfold withFile
  rw [hf]

theorem withRef_none (hf : ref.files fd = none) (call : Nat → Mode → Ref × Out) :
    withRef ref fd call = (ref, .error .EBADF) := by
  unfold withRef
  rw [hf]

theorem withRef_some {mode : Mode} (hf : ref.files fd = some (pos, mode))
    (call : Nat → Mode → Ref × Out) : withRef ref fd call = call pos mode := by
  unfold withRef
  rw [hf]

/-- A call, by what it and the reference give. -/
theorem same_of_eq {op : Op} {fs' : Fs σ} {out : Out} {ref' : Ref}
    (hstep : step l drv fs op = (fs', counts, out)) (href : refStep room ref op = (ref', out))
    (hsync : Sync bytes room fs' ref') (hcounts : ∀ n ∈ counts, n ≤ op.count) :
    Same l drv bytes room fs ref op := by
  refine ⟨?_, ?_, ?_⟩
  · rw [hstep, href]
  · rw [hstep, href]
    exact hsync
  · rw [hstep]
    exact hcounts

section

variable (h : Sync bytes room fs ref)
include h

/-- A file with new bytes, and a descriptor that has changed. -/
theorem Sync.set {iSize : Nat} (hle : (bytes store).length ≤ room)
    (hiSize : iSize = (bytes store).length) (hpos : f.pos < 2 ^ 63) (hsize : f.size ≤ room) :
    Sync bytes room ⟨store, iSize, setFile fs.files fd (some f)⟩
      ⟨bytes store, setFile ref.files fd (some (f.pos, f.mode))⟩ where
  data := rfl
  iSize := hiSize
  le := hle
  files := by
    intro i
    unfold setFile
    dsimp only
    split
    next => rfl
    next => exact h.files i
  bounds := by
    intro i g hg
    unfold setFile at hg
    dsimp only at hg
    split at hg
    next =>
      rw [← Option.some.inj hg]
      exact ⟨hpos, hsize⟩
    next => exact h.bounds i g hg

theorem Sync.len : (bytes fs.store).length ≤ room := by
  rw [h.data]
  exact h.le

theorem Sync.ref_file (hf : fs.files fd = some f) : ref.files fd = some (f.pos, f.mode) := by
  rw [h.files fd, hf]
  rfl

theorem Sync.ref_none (hf : fs.files fd = none) : ref.files fd = none := by
  rw [h.files fd, hf]
  rfl

/-- A call that both refuse. -/
theorem Sync.refused {op : Op} {e : Errno} (hstep : step l drv fs op = (fs, [], .error e))
    (href : refStep room ref op = (ref, .error e)) : Same l drv bytes room fs ref op :=
  same_of_eq hstep href h nofun

/-- A descriptor that has changed. -/
theorem Sync.move (hpos : f.pos < 2 ^ 63) (hsize : f.size ≤ room) :
    Sync bytes room ⟨fs.store, fs.iSize, setFile fs.files fd (some f)⟩
      ⟨ref.data, setFile ref.files fd (some (f.pos, f.mode))⟩ := by
  have hset : Sync bytes room ⟨fs.store, fs.iSize, setFile fs.files fd (some f)⟩
      ⟨bytes fs.store, setFile ref.files fd (some (f.pos, f.mode))⟩ :=
    h.set h.len (h.iSize.trans (congrArg List.length h.data.symm)) hpos hsize
  rw [h.data] at hset
  exact hset

/-- What `__write` has left is what the reference has, with the descriptor at `pos`. -/
theorem Sync.written (fd : Nat) {store' : σ} {size : Option Nat} {out : Except Errno Nat} {f₁ : File}
    (hsize : f.size ≤ room) (hpos : pos < 2 ^ 63) (hw : Written bytes room fs.store f₁ buf store' size counts out) :
    Sync bytes room ⟨store', size.getD fs.iSize, setFile fs.files fd (some ⟨pos, size.getD f.size, f.mode⟩)⟩
      ⟨(refWrite room ref.data f₁.pos buf).1, setFile ref.files fd (some (pos, f.mode))⟩ := by
  have hdata := hw.data
  rw [h.data] at hdata
  rw [← hdata]
  rcases hw.size with ⟨rfl, hlen⟩ | rfl
  · refine h.set (f := ⟨pos, f.size, f.mode⟩) hw.le ?_ hpos hsize
    rw [hlen, h.data]
    exact h.iSize
  · exact h.set (f := ⟨pos, (bytes store').length, f.mode⟩) hw.le rfl hpos hw.le

/-! ## The calls -/

/-- A call on a descriptor that is not in use, or not open for it, is refused by both; one
that is asks that the size in the descriptor serves. -/
theorem Sync.same_of_mode {op : Op} {bad : Mode} {call : File → Fs σ × List Nat × Out}
    {call' : Nat → Mode → Ref × Out} (hstep : step l drv fs op = withFile fs fd call)
    (href : refStep room ref op = withRef ref fd call')
    (hbad' : ∀ pos, call' pos bad = (ref, .error .EBADF))
    (hbad : ∀ f, fs.files fd = some f → f.mode = bad → call f = (fs, [], .error .EBADF))
    (hopen : ∀ f, fs.files fd = some f → f.mode ≠ bad → Same l drv bytes room fs ref op) :
    Same l drv bytes room fs ref op := by
  cases hf : fs.files fd with
  | none =>
    rw [withFile_none hf] at hstep
    rw [withRef_none (h.ref_none hf)] at href
    exact h.refused hstep href
  | some f =>
    by_cases hmode : f.mode = bad
    · rw [withFile_some hf, hbad f hf hmode] at hstep
      rw [withRef_some (h.ref_file hf), hmode, hbad'] at href
      exact h.refused hstep href
    · exact hopen f hf hmode

/-- A descriptor that is closed, or was not open. -/
theorem Sync.same_close (fd : Nat) : Same l drv bytes room fs ref (.close fd) := by
  cases hf : fs.files fd with
  | none => exact h.refused (withFile_none hf _) (withRef_none (h.ref_none hf) _)
  | some f =>
    have hstep : step l drv fs (.close fd) = _ := withFile_some hf _
    have href : refStep room ref (.close fd) = _ := withRef_some (h.ref_file hf) _
    refine same_of_eq hstep href ⟨h.data, h.iSize, h.le, ?_, ?_⟩ nofun
    · intro i
      unfold setFile
      dsimp only
      split
      next => rfl
      next => exact h.files i
    · intro i g hg
      unfold setFile at hg
      dsimp only at hg
      split at hg
      next => nomatch hg
      next => exact h.bounds i g hg

/-- `lseek` comes to the same position, or is refused by both. -/
theorem Sync.same_lseek {offset : Int} {whence : Whence} (hroom : room < 2 ^ 62) (hf : fs.files fd = some f)
    (hserve : ServesSeek f.size (bytes fs.store).length f.pos offset whence) :
    Same l drv bytes room fs ref (.lseek fd offset whence) := by
  obtain ⟨-, hsize⟩ := h.bounds fd f hf
  have hstep : step l drv fs (.lseek fd offset whence) = _ := withFile_some hf _
  have href : refStep room ref (.lseek fd offset whence) = _ := withRef_some (h.ref_file hf) _
  rw [← h.data, ← seek_serves hserve] at href
  cases hseek : seek f.size f.pos offset whence with
  | none =>
    rw [hseek] at hstep href
    exact h.refused hstep href
  | some p =>
    rw [hseek] at hstep href
    rw [h.data] at href
    have hp := seek_le hseek
    exact same_of_eq hstep href (h.move (by dsimp only; omega) hsize) nofun

variable (hdrv : Stores drv bytes room)
include hdrv

/-- `ftruncate` asks nothing of the size in the descriptor: it sets it. -/
theorem Sync.same_ftruncate (fd : Nat) (length : Fin (2 ^ 63)) :
    Same l drv bytes room fs ref (.ftruncate fd length) := by
  cases hf : fs.files fd with
  | none => exact h.refused (withFile_none hf _) (withRef_none (h.ref_none hf) _)
  | some f =>
    obtain ⟨hpos, -⟩ := h.bounds fd f hf
    have hstep : step l drv fs (.ftruncate fd length) = _ := withFile_some hf _
    have href : refStep room ref (.ftruncate fd length) = _ := withRef_some (h.ref_file hf) _
    by_cases hle : length ≤ room
    · obtain ⟨hok, hdata⟩ := hdrv.truncate fs.store f length hle
      have hlen := resized_length (bytes fs.store) length
      generalize drv.truncate fs.store f length = t at hstep hok hdata
      obtain ⟨store', ret⟩ := t
      cases hok
      dsimp only at hstep hdata
      rw [if_pos hle, ← h.data, ← hdata, ← setFile_self (h.ref_file hf)] at href
      rw [← hdata] at hlen
      exact same_of_eq hstep href (h.set (by omega) hlen.symm hpos hle) nofun
    · obtain ⟨herr, hdata⟩ := hdrv.full fs.store f length (Nat.lt_of_not_le hle) length.isLt
      generalize drv.truncate fs.store f length = t at hstep herr hdata
      obtain ⟨store', ret⟩ := t
      cases herr
      rw [if_neg hle] at href
      exact same_of_eq hstep href ⟨hdata.trans h.data, h.iSize, h.le, h.files, h.bounds⟩ nofun

/-- `pwrite` leaves the position where it was. -/
theorem Sync.same_pwrite {offset : Fin (2 ^ 63)} (hf : fs.files fd = some f) (hmode : f.mode ≠ .rdonly)
    (hserve : ServesWrite room f.size (bytes fs.store).length offset buf.length) :
    Same l drv bytes room fs ref (.pwrite fd buf offset) := by
  obtain ⟨hpos, hsize⟩ := h.bounds fd f hf
  obtain ⟨store', size, counts, out, hwrite, hw⟩ :=
    write_serves (l := l) (f := { f with pos := offset }) hdrv hmode h.len hserve
  have hstep : step l drv fs (.pwrite fd buf offset) = _ := withFile_some hf _
  have href : refStep room ref (.pwrite fd buf offset) = _ := withRef_some (h.ref_file hf) _
  rw [hwrite] at hstep
  rw [if_neg hmode] at href
  have hret : out = (refWrite room ref.data offset buf).2 := by
    rw [← h.data]
    exact hw.ret
  have hsync := h.written fd hsize hpos hw
  rw [setFile_self (h.ref_file hf)] at hsync
  rw [hret] at hstep
  exact same_of_eq hstep href hsync hw.counts

section

variable (hroom : room < 2 ^ 62)
include hroom

/-- `read` moves the position behind what has been read. -/
theorem Sync.same_read {count : Nat} (hf : fs.files fd = some f) (hmode : f.mode ≠ .wronly)
    (hcount : count < 2 ^ l.bits) (hserve : ServesRead f.size (bytes fs.store).length f.pos count) :
    Same l drv bytes room fs ref (.read fd count) := by
  obtain ⟨-, hsize⟩ := h.bounds fd f hf
  obtain ⟨counts, hread, hcounts⟩ := read_serves hdrv hmode (by omega) hcount hserve
  have hstep : step l drv fs (.read fd count) = _ := withFile_some hf _
  have href : refStep room ref (.read fd count) = _ := withRef_some (h.ref_file hf) _
  rw [hread, h.data] at hstep
  rw [if_neg hmode] at href
  have hslice := length_slice f.pos count ref.data
  have hle := h.le
  have hpos := hserve.le
  exact same_of_eq hstep href (h.move (by dsimp only; omega) hsize) hcounts

/-- `pread` leaves everything as it was. -/
theorem Sync.same_pread {count : Nat} {offset : Fin (2 ^ 63)} (hf : fs.files fd = some f)
    (hmode : f.mode ≠ .wronly) (hcount : count < 2 ^ l.bits)
    (hserve : ServesRead f.size (bytes fs.store).length offset count) :
    Same l drv bytes room fs ref (.pread fd count offset) := by
  obtain ⟨-, hsize⟩ := h.bounds fd f hf
  obtain ⟨counts, hread, hcounts⟩ := read_serves (f := { f with pos := offset }) hdrv hmode
    (Nat.lt_of_le_of_lt hsize (by omega)) hcount hserve
  have hstep : step l drv fs (.pread fd count offset) = _ := withFile_some hf _
  have href : refStep room ref (.pread fd count offset) = _ := withRef_some (h.ref_file hf) _
  rw [hread, h.data] at hstep
  rw [if_neg hmode] at href
  exact same_of_eq hstep href h hcounts

/-- `write` moves the position behind what has been written, if that is something. -/
theorem Sync.same_write (hf : fs.files fd = some f) (hmode : f.mode ≠ .rdonly)
    (hserve : ServesWrite room f.size (bytes fs.store).length f.pos buf.length) :
    Same l drv bytes room fs ref (.write fd buf) := by
  obtain ⟨hpos, hsize⟩ := h.bounds fd f hf
  obtain ⟨store', size, counts, out, hwrite, hw⟩ := write_serves (l := l) hdrv hmode h.len hserve
  have hstep : step l drv fs (.write fd buf) = _ := withFile_some hf _
  have href : refStep room ref (.write fd buf) = _ := withRef_some (h.ref_file hf) _
  rw [hwrite] at hstep
  rw [if_neg hmode] at href
  have hret := hw.ret
  have hfits := hw.fits
  rw [h.data] at hret
  have hsync := fun pos (hpos : pos < 2 ^ 63) => h.written fd hsize hpos hw
  generalize refWrite room ref.data f.pos buf = w at hret href hsync
  obtain ⟨data', out'⟩ := w
  obtain rfl : out = out' := hret
  -- the descriptor has moved if something has been written
  cases out with
  | error e =>
    have hsync := hsync f.pos hpos
    rw [setFile_self (h.ref_file hf)] at hsync
    exact same_of_eq hstep href hsync hw.counts
  | ok n =>
    have hn := hfits n rfl
    exact same_of_eq hstep href (hsync (f.pos + n) (by omega)) hw.counts

/-- `open`, with or without a truncate: the new descriptor has the size of the file. -/
theorem Sync.same_open (flags : Flags) : Same l drv bytes room fs ref (.open_ flags) := by
  have hget := getFile_eq h
  cases hfd : getFile fs.files with
  | none =>
    refine h.refused (e := .EMFILE) ?_ ?_
    · unfold step
      rw [hfd]
    · unfold refStep
      rw [hget, hfd]
  | some fd =>
    -- what the driver has after a truncate, if there is one
    obtain ⟨store', hstep, hle, hdata⟩ : ∃ store', step l drv fs (.open_ flags)
          = opened fs flags fd store' (bytes store').length ∧ (bytes store').length ≤ room
          ∧ bytes store' = if flags.trunc then [] else ref.data := by
      unfold step
      rw [hfd]
      dsimp only
      by_cases htrunc : flags.trunc
      · obtain ⟨hok, hnil⟩ := hdrv.truncate fs.store ⟨0, fs.iSize, flags.mode⟩ 0 (Nat.zero_le _)
        have hlen := resized_length (bytes fs.store) 0
        rw [if_pos htrunc, if_pos htrunc]
        generalize drv.truncate fs.store ⟨0, fs.iSize, flags.mode⟩ 0 = t at hok hnil
        obtain ⟨store', ret⟩ := t
        cases hok
        dsimp only at hnil
        rw [← hnil] at hlen
        exact ⟨store', by rw [hlen], by omega, List.eq_nil_of_length_eq_zero hlen⟩
      · rw [if_neg htrunc, if_neg htrunc]
        exact ⟨fs.store, by rw [h.iSize, h.data], h.len, h.data⟩
    have href : refStep room ref (.open_ flags) = (⟨bytes store', setFile ref.files fd
        (some (if flags.append then (bytes store').length else 0, flags.mode))⟩, .ok ([], fd)) := by
      unfold refStep
      rw [hget, hfd, hdata]
    have hpos : (if flags.append then (bytes store').length else 0) < 2 ^ 63 := by
      split
      all_goals omega
    exact same_of_eq hstep href (h.set hle rfl hpos hle) nofun

/-- A call does what the byte array does if the size in its descriptor serves. -/
theorem same_of_serves (op : Op) (hfits : op.count < 2 ^ l.bits)
    (hserve : SizeServes room (bytes fs.store).length fs.files op) : Same l drv bytes room fs ref op := by
  cases op with
  | open_ flags => exact h.same_open hdrv hroom flags
  | read fd count =>
    refine h.same_of_mode rfl rfl (fun _ => if_pos rfl) ?_ fun f hf hmode =>
      h.same_read hdrv hroom hf hmode hfits (hserve f hf hmode)
    intro f _ hmode
    simp only [read_, if_pos hmode]
  | pread fd count offset =>
    refine h.same_of_mode rfl rfl (fun _ => if_pos rfl) ?_ fun f hf hmode =>
      h.same_pread hdrv hroom hf hmode hfits (hserve f hf hmode)
    intro f _ hmode
    simp only [read_, if_pos hmode]
  | write fd buf =>
    refine h.same_of_mode rfl rfl (fun _ => if_pos rfl) ?_ fun f hf hmode =>
      h.same_write hdrv hroom hf hmode (hserve f hf hmode)
    intro f hf hmode
    simp only [write_, if_pos hmode, Option.getD, setFile_self hf]
    rfl
  | pwrite fd buf offset =>
    refine h.same_of_mode rfl rfl (fun _ => if_pos rfl) ?_ fun f hf hmode =>
      h.same_pwrite hdrv hf hmode (hserve f hf hmode)
    intro f hf hmode
    simp only [write_, if_pos hmode, Option.getD, setFile_self hf]
    rfl
  | lseek fd offset whence =>
    cases hf : fs.files fd with
    | none => exact h.refused (withFile_none hf _) (withRef_none (h.ref_none hf) _)
    | some f => exact h.same_lseek hroom hf (hserve f hf)
  | ftruncate fd length => exact h.same_ftruncate hdrv fd length
  | close fd => exact h.same_close fd

end

end

/-! ## Sequences of calls -/

/-- Every call does what the byte array does, with the file and the descriptors where
the calls before have left them. -/
def Keeps (l : Long) (drv : Driver σ) (bytes : σ → Bytes) (room : Nat) (fs : Fs σ) (ref : Ref)
    (ops : List Op) : Prop :=
  Along (fun s op => ((step l drv s.1 op).1, (refStep room s.2 op).1))
    (fun s op => Same l drv bytes room s.1 s.2 op) (fs, ref) ops

/-- The sizes in the descriptors serve for every call, each in the state it is made in. -/
def SizesServe (l : Long) (drv : Driver σ) (bytes : σ → Bytes) (room : Nat) (fs : Fs σ)
    (ops : List Op) : Prop :=
  Along (fun fs op => (step l drv fs op).1)
    (fun fs op => SizeServes room (bytes fs.store).length fs.files op) fs ops

/-- Open files are one byte array with a position for each descriptor, along any sequence
of calls for which the sizes in the descriptors serve, whatever driver it is that stores
the bytes. -/
theorem files_refine (hdrv : Stores drv bytes room) (hroom : room < 2 ^ 62) (ops : List Op)
    (hfits : ∀ op ∈ ops, op.count < 2 ^ l.bits) : ∀ (fs : Fs σ) (ref : Ref), Sync bytes room fs ref →
      SizesServe l drv bytes room fs ops → Keeps l drv bytes room fs ref ops := by
  induction ops with
  | nil =>
    intro fs ref _ _
    trivial
  | cons op ops ih =>
    intro fs ref h ⟨hserve, hrest⟩
    obtain ⟨hop, hops⟩ := List.forall_mem_cons.mp hfits
    have hsame := same_of_serves h hdrv hroom op hop hserve
    exact ⟨hsame, ih hops _ _ hsame.sync hrest⟩

/-! ## A driver -/

/-- A driver that has the bytes of its file in one piece. -/
def pieceDriver (room : Nat) : Driver Bytes where
  truncate data _ length := if length ≤ room then (resized data length, .ok ()) else (data, .error .ENOSPC)
  read data f count := .ok (slice f.pos count data)
  write data f buf count := (overwrite f.pos (buf.take count) data, .ok count)

/-- It is one of those that are asked for. -/
theorem pieceDriver_stores (room : Nat) : Stores (pieceDriver room) id room where
  truncate s f length hle := by
    simp [pieceDriver, hle]
  full s f length hlt _ := by
    simp [pieceDriver, Nat.not_le.mpr hlt]
  read _ _ _ _ _ := rfl
  write _ _ _ _ _ _ _ := ⟨rfl, rfl⟩

/-- An empty file that nobody has open. -/
def empty : Fs Bytes := ⟨[], 0, fun _ => none⟩

/-- What it is meant to be. -/
def emptyRef : Ref := ⟨[], fun _ => none⟩

theorem empty_sync : Sync id 16 empty emptyRef where
  data := rfl
  iSize := rfl
  le := Nat.zero_le 16
  files := fun _ => rfl
  bounds := by
    exact nofun

def rdwr : Flags := ⟨.rdwr, false, false⟩

/-- Three bytes through one descriptor, read back through another that was opened then, from
the second byte on; and the end of the file. -/
theorem empty_write_read : Keeps .bits64 (pieceDriver 16) id 16 empty emptyRef
    [.open_ rdwr, .write 3 [5, 6, 7], .open_ rdwr, .pread 4 4 1, .read 3 1] := by
  refine files_refine (pieceDriver_stores 16) (by decide) _ (by decide) _ _ empty_sync
    ⟨trivial, ?_, trivial, ?_, ?_, trivial⟩
  · intro f hf _
    cases hf
    unfold ServesWrite
    decide
  · intro f hf _
    cases hf
    exact ⟨by decide, by decide, by decide, by decide⟩
  · intro f hf _
    cases hf
    exact ⟨by decide, by decide, by decide, by decide⟩

/-- Four bytes through one descriptor, and one through another that was open before: the
file is one byte long. -/
theorem empty_two_writes : ¬ Keeps .bits64 (pieceDriver 16) id 16 empty emptyRef
    [.open_ rdwr, .open_ rdwr, .write 3 [1, 2, 3, 4], .write 4 [9]] := by
  intro ⟨_, _, _, hsame, _⟩
  exact absurd hsame.sync.data (by decide)

end Barebox.Files
