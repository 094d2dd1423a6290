import Barebox.Base
import Barebox.Lib.Bytes

/-!
# U-Boot environment as files — `fs/ubootvarfs.c`

The environment is one blob of `name=value` strings, each closed by a NUL and all of
them by an empty string. Every variable is a file; the list of variables has pointers
into the blob, and a file that changes its size moves all that is behind it.

Mirroring notes:
- pointers are offsets from the start of the blob, and the blob ends at the limit. An
  access to bytes outside of it has no result (`none`).
- `int` has 32 bits, `size_t` has 64.
- `inode->i_size` is kept with the variable. The file layer sets it when a truncate
  has succeeded, and a descriptor has the same size: what becomes of descriptors that do
  not is the matter of `Barebox.Files`.
- the file layer looks a name up before it creates a file, so that a name is not
  created twice. Allocation and the dentries are left out, but for one thing: when a file
  is removed, the last reference to its inode goes, and `ubootvarfs_destroy_inode` frees the
  variable that `ubootvarfs_unlink` has freed. There is no result then.
-/

namespace Barebox.Ubootvar

open Lib

/-- `struct ubootvarfs_var` -/
structure Var where
  name : Nat
  nameLen : Nat
  start : Nat
  end_ : Nat
  iSize : Nat
  deriving DecidableEq

/-- `struct ubootvarfs_data`, with the bytes it is about -/
structure Data where
  blob : Bytes
  vars : List Var
  end_ : Nat
  deriving DecidableEq

/-! ## Memory -/

/-- `memcpy` to the blob -/
def memcpy (dst : Nat) (buf blob : Bytes) : Option Bytes :=
  if dst + buf.length ≤ blob.length then some (overwrite dst buf blob) else none

/-- `memset` of bytes of the blob to zero -/
def memset (dst n : Nat) (blob : Bytes) : Option Bytes := memcpy dst (List.replicate n 0) blob

/-- `memmove(src + delta, src, n)` -/
def memmove (src : Nat) (delta : Int) (n : Nat) (blob : Bytes) : Option Bytes :=
  if src + n ≤ blob.length ∧ 0 ≤ src + delta then memcpy (src + delta).toNat (slice src n blob) blob
  else none

/-- A pointer, moved -/
def moved (p : Nat) (delta : Int) : Nat := (p + delta).toNat

/-- An `int` -/
@[irreducible] def toInt (n : Int) : Int := Int.bmod n (2 ^ 32)

/-! ## The parser -/

/-- The end of the string at `off`. -/
def strEnd (blob : Bytes) (off : Nat) : Nat := off + ((blob.drop off).takeWhile (· ≠ 0)).length

/-- One string of the blob, as a variable if it has a separator. -/
def parseOne (blob : Bytes) (off : Nat) : List Var :=
  let str := (blob.drop off).takeWhile (· ≠ 0)
  let nameLen := (str.takeWhile (· ≠ 61)).length
  if nameLen < str.length then
    let start := off + nameLen + 1
    [⟨off, nameLen, start, off + str.length, off + str.length - start⟩]
  else []

/-- The loop of `ubootvarfs_parse`: the variables and the end. -/
def parseLoop (blob : Bytes) : Nat → Nat → Option (List Var × Nat)
  | 0, _ => none
  | fuel + 1, off =>
    match blob[off]? with
    | none => none
    | some x =>
      if x = 0 then some ([], off)
      else
        match parseLoop blob fuel (strEnd blob off + 1) with
        | none => none
        | some (vars, end_) => some (parseOne blob off ++ vars, end_)

/-- `ubootvarfs_parse`: a string takes a byte at least, so that there are fewer
turns than bytes. -/
def parse (blob : Bytes) : Option Data :=
  match parseLoop blob (blob.length + 1) 0 with
  | none => none
  | some (vars, end_) => some ⟨blob, vars, end_⟩

/-! ## Files -/

/-- `ubootvarfs_var_by_name`: where in the list the variable is. -/
def varByName (data : Data) (name : Bytes) : Option Nat :=
  data.vars.findIdx? fun var =>
    decide (name.length = var.nameLen ∧ name = slice var.name var.nameLen data.blob)

/-- The variable of a file, with its place in the list -/
def findVar (data : Data) (name : Bytes) : Option (Nat × Var) :=
  (varByName data name).bind fun i => data.vars[i]?.map fun var => (i, var)

/-- The leftovers behind an end that has moved down -/
def clearTail (end_ : Nat) (delta : Int) (blob : Bytes) : Option Bytes :=
  if delta < 0 then memset end_ (toInt (-delta) % 2 ^ 64).toNat blob else some blob

/-- `ubootvarfs_relocate_tail` -/
def relocateTail (data : Data) (var : Var) (delta : Int) : Option Data := do
  let blob ← memmove (var.end_ + 1) delta (data.end_ - var.start) data.blob
  let blob ← clearTail (moved data.end_ delta) delta blob
  return ⟨blob, data.vars, moved data.end_ delta⟩

/-- `ubootvarfs_adjust`, of the variable at `i` -/
def adjust (data : Data) (i : Nat) (var : Var) (delta : Int) : Option Data := do
  let data ← relocateTail data var delta
  return { data with vars := data.vars.take (i + 1) ++ (data.vars.drop (i + 1)).map fun var =>
    { var with name := moved var.name delta, start := moved var.start delta, end_ := moved var.end_ delta } }

/-- `ubootvarfs_unlink` -/
def unlink (data : Data) (i : Nat) (var : Var) : Option Data := do
  let data ← adjust data i var (toInt (var.name - var.end_ - 1))
  return { data with vars := data.vars.eraseIdx i }

/-- `ubootvarfs_create` -/
def create (data : Data) (name : Bytes) : Option (Data × Except Errno Unit) :=
  if data.blob.length < data.end_ + name.length + 3 then some (data, .error .ENOSPC)
  else do
    let start := data.end_ + name.length + 1
    let blob ← memcpy data.end_ name data.blob
    let blob ← memcpy (data.end_ + name.length) [61] blob
    let blob ← memcpy start [0] blob
    let blob ← memcpy (start + 1) [0] blob
    return (⟨blob, data.vars ++ [⟨data.end_, name.length, start, start, 0⟩], start + 1⟩, .ok ())

/-- What a value has grown by -/
def fillValue (end_ : Nat) (delta : Int) (blob : Bytes) : Option Bytes :=
  if 0 < delta then memset end_ delta.toNat blob else some blob

/-- `ubootvarfs_truncate`, and the size that the file layer sets then -/
def truncate (data : Data) (i : Nat) (var : Var) (size : Nat) : Option (Data × Except Errno Unit) :=
  let delta := toInt ((size : Int) - var.iSize)
  if size = var.iSize then some (data, .ok ())
  else if data.blob.length ≤ data.end_ + delta then some (data, .error .ENOSPC)
  else do
    let data ← adjust data i var delta
    let blob ← fillValue var.end_ delta data.blob
    let blob ← memcpy (moved var.end_ delta) [0] blob
    return (⟨blob, data.vars.set i { var with end_ := moved var.end_ delta, iSize := size }, data.end_⟩, .ok ())

/-- `ubootvarfs_io` for a write; there are no bytes behind those of the buffer -/
def io (data : Data) (var : Var) (pos : Nat) (buf : Bytes) (count : Nat) :
    Option (Data × Except Errno Nat) :=
  if buf.length < count then none
  else do
    let blob ← memcpy (var.start + pos) (buf.take count) data.blob
    return ({ data with blob := blob }, .ok count)

/-- `__write` of the file layer -/
def write (data : Data) (i : Nat) (var : Var) (pos : Nat) (buf : Bytes) :
    Option (Data × Except Errno Nat) :=
  if var.iSize < pos + buf.length then
    match truncate data i var (pos + buf.length) with
    | none => none
    | some (data, .ok ()) => io data var pos buf buf.length
    | some (data, .error e) =>
      -- there is no room: what fits into the file, as it is
      let count := (var.iSize + 2 ^ 64 - pos) % 2 ^ 64
      if count = 0 then some (data, .error e) else io data var pos buf count
  else io data var pos buf buf.length

/-- A call on a file, by its name. -/
inductive Op where
  | create (name : CString)
  | unlink (name : CString)
  | truncate (name : CString) (size : Nat)
  | write (name : CString) (pos : Fin (2 ^ 63)) (buf : Bytes)

/-- The calls, through the file layer. -/
def step (data : Data) : Op → Option (Data × Except Errno Unit)
  | .create name =>
    match varByName data name with
    | some _ => some (data, .ok ())
    | none => create data name
  | .unlink name =>
    match findVar data name with
    | none => some (data, .error .ENOENT)
    -- the second `free` of the variable
    | some (i, var) => (unlink data i var).bind fun _ => none
  | .truncate name size =>
    match findVar data name with
    | none => some (data, .error .ENOENT)
    | some (i, var) => truncate data i var size
  | .write name pos buf =>
    match findVar data name with
    | none => some (data, .error .ENOENT)
    | some (i, var) => (write data i var pos buf).map fun (data, ret) => (data, ret.map fun _ => ())

end Barebox.Ubootvar
