import Barebox.Base
import Barebox.Lib.Bytes

/-!
# Open files — `fs/fs.c`

A descriptor has a position and a size of its own. The size is that of the inode
when the file was opened, and that of the file after each truncate through this
very descriptor; reads and writes are cut to it before the driver sees them.

Mirroring notes:
- the driver is a parameter: three functions that see the `FILE`, and a state `σ` that
  they have. Its `open`, `lseek` and `close` are left out; they do not fail here.
- the driver returns an `int`: a number of bytes is below 2^31.
- `loff_t` has 64 bits and `size_t` has those of a `long`. `f->pos + count` wraps at
  2^64 where the `size_t` has as many bits; where it has 32, a count is below 2^32.
- what is not a file (`FILE_SIZE_STREAM`) is left out, and so is the path lookup in
  `open`: the file is there.
- each call also gives the counts that the driver was called with.
- `FILE` is a place in the table of files; `files` has what is in use.
-/

namespace Barebox.Files

open Lib

/-- `O_ACCMODE` -/
inductive Mode where
  | rdonly
  | wronly
  | rdwr
  deriving DecidableEq

/-- The flags of `open` that matter for a file that is there. -/
structure Flags where
  mode : Mode
  trunc : Bool
  append : Bool

/-- `FILE` -/
structure File where
  pos : Nat
  size : Nat
  mode : Mode

/-- `struct fs_driver_d`, for one file. A read gives what it has put into the buffer; a
write has the buffer of the caller and the count. -/
structure Driver (σ : Type) where
  truncate : σ → File → Nat → σ × Except Errno Unit
  read : σ → File → Nat → Except Errno Bytes
  write : σ → File → Bytes → Nat → σ × Except Errno Nat

/-- What the driver has of the file, the inode, and the table of files. -/
structure Fs (σ : Type) where
  store : σ
  iSize : Nat
  files : Nat → Option File

/-- One place in a table of files is set. -/
def setFile {α : Type} (files : Nat → Option α) (fd : Nat) (f : Option α) : Nat → Option α :=
  fun i => if i = fd then f else files i

variable {σ : Type}

/-! ## Reads and writes -/

/-- `f->size - f->pos`, put into a `size_t` -/
def left (l : Long) (f : File) : Nat := (f.size + 2 ^ 64 - f.pos) % 2 ^ l.bits

/-- `__read` -/
def read_ (l : Long) (drv : Driver σ) (store : σ) (f : File) (count : Nat) :
    List Nat × Except Errno Bytes :=
  if f.mode = .wronly then ([], .error .EBADF)
  else
    let count := if f.size < (f.pos + count) % 2 ^ 64 then left l f else count
    if count = 0 then ([], .ok []) else ([count], drv.read store f count)

/-- `__write`: what the driver has then, the size of the file if that has been set, the
counts, and what is returned. -/
def write_ (l : Long) (drv : Driver σ) (store : σ) (f : File) (buf : Bytes) :
    σ × Option Nat × List Nat × Except Errno Nat :=
  if f.mode = .rdonly then (store, none, [], .error .EBADF)
  else
    let write := fun store (f : File) size count =>
      let (store, ret) := drv.write store f buf count
      (store, size, [count], ret)
    if f.size < f.pos + buf.length then
      match drv.truncate store f (f.pos + buf.length) with
      | (store, .error .ENOSPC) =>
        -- what there is room for, by the size in the descriptor
        let count := left l f
        if count = 0 then (store, none, [], .error .ENOSPC) else write store f none count
      | (store, .error e) => (store, none, [], .error e)
      | (store, .ok ()) =>
        let size := f.pos + buf.length
        write store { f with size := size } (some size) buf.length
    else write store f none buf.length

/-- What a call returns, and what it has put into the buffer. -/
abbrev Out := Except Errno (Bytes × Nat)

/-- The third argument of `lseek`. -/
inductive Whence where
  | set
  | cur
  | end_
  deriving DecidableEq

/-- The position that `lseek` comes to in a file of that size. -/
def seek (size pos : Nat) (offset : Int) (whence : Whence) : Option Nat :=
  let base : Nat :=
    match whence with
    | .set => 0
    | .cur => pos
    | .end_ => size
  let pos : Int := base + offset
  if pos < 0 ∨ size < pos then none else some pos.toNat

/-- The calls of a program that has the file open. -/
inductive Op where
  | open_ (flags : Flags)
  | read (fd count : Nat)
  | pread (fd count : Nat) (offset : Fin (2 ^ 63))
  | write (fd : Nat) (buf : Bytes)
  | pwrite (fd : Nat) (buf : Bytes) (offset : Fin (2 ^ 63))
  | lseek (fd : Nat) (offset : Int) (whence : Whence)
  | ftruncate (fd : Nat) (length : Fin (2 ^ 63))
  | close (fd : Nat)

/-- `MAX_FILES` -/
def maxFiles : Nat := 128

/-- `get_file` -/
def getFile {α : Type} (files : Nat → Option α) : Option Nat :=
  (List.range' 3 (maxFiles - 3)).find? fun i => (files i).isNone

/-- A call on a descriptor, if it is in use. -/
def withFile (fs : Fs σ) (fd : Nat) (call : File → Fs σ × List Nat × Out) : Fs σ × List Nat × Out :=
  match fs.files fd with
  | none => (fs, [], .error .EBADF)
  | some f => call f

/-- The end of `open`, where the file has that size. -/
def opened (fs : Fs σ) (flags : Flags) (fd : Nat) (store : σ) (size : Nat) : Fs σ × List Nat × Out :=
  let f : File := ⟨if flags.append then size else 0, size, flags.mode⟩
  (⟨store, size, setFile fs.files fd (some f)⟩, [], .ok ([], fd))

/-- The calls of `fs.c`. -/
def step (l : Long) (drv : Driver σ) (fs : Fs σ) : Op → Fs σ × List Nat × Out
  | .open_ flags =>
    match getFile fs.files with
    | none => (fs, [], .error .EMFILE)
    | some fd =>
      if flags.trunc then
        match drv.truncate fs.store ⟨0, fs.iSize, flags.mode⟩ 0 with
        -- the inode has no bytes then, whether the driver could do it or not
        | (store, .error e) => (⟨store, 0, fs.files⟩, [], .error e)
        | (store, .ok ()) => opened fs flags fd store 0
      else opened fs flags fd fs.store fs.iSize
  | .read fd count => withFile fs fd fun f =>
    match read_ l drv fs.store f count with
    | (counts, .error e) => (fs, counts, .error e)
    | (counts, .ok buf) =>
      let f := { f with pos := f.pos + buf.length }
      ({ fs with files := setFile fs.files fd (some f) }, counts, .ok (buf, buf.length))
  | .pread fd count offset => withFile fs fd fun f =>
    match read_ l drv fs.store { f with pos := offset } count with
    | (counts, .error e) => (fs, counts, .error e)
    | (counts, .ok buf) => (fs, counts, .ok (buf, buf.length))
  | .write fd buf => withFile fs fd fun f =>
    match write_ l drv fs.store f buf with
    | (store, size, counts, ret) =>
      let pos :=
        match ret with
        | .error _ => f.pos
        | .ok n => f.pos + n
      (⟨store, size.getD fs.iSize, setFile fs.files fd (some ⟨pos, size.getD f.size, f.mode⟩)⟩, counts,
        ret.map fun n => ([], n))
  | .pwrite fd buf offset => withFile fs fd fun f =>
    match write_ l drv fs.store { f with pos := offset } buf with
    | (store, size, counts, ret) =>
      (⟨store, size.getD fs.iSize, setFile fs.files fd (some ⟨f.pos, size.getD f.size, f.mode⟩)⟩, counts,
        ret.map fun n => ([], n))
  | .lseek fd offset whence => withFile fs fd fun f =>
    match seek f.size f.pos offset whence with
    | none => (fs, [], .error .EINVAL)
    | some pos =>
      ({ fs with files := setFile fs.files fd (some { f with pos := pos }) }, [], .ok ([], pos))
  | .ftruncate fd length => withFile fs fd fun f =>
    match drv.truncate fs.store f length with
    | (store, .error e) => ({ fs with store := store }, [], .error e)
    | (store, .ok ()) =>
      (⟨store, length, setFile fs.files fd (some { f with size := length })⟩, [], .ok ([], 0))
  | .close fd => withFile fs fd fun _ => ({ fs with files := setFile fs.files fd none }, [], .ok ([], 0))

end Barebox.Files
