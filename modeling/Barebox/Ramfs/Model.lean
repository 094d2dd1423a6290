import Barebox.Base
import Barebox.Lib.Bytes

/-!
# Files in memory — `fs/ramfs.c`

A file is a list of chunks, one behind the other. Growing it takes what is left
of the last chunk and allocates the rest; shrinking it frees the chunks behind
the new end. The chunk that was used last is kept as a place to search from.

Mirroring notes:
- `int` has 32 bits, and `long` has 32 or 64. The size of a chunk is an `int`: that of a
  chunk of 2 GiB is negative, and that of one of 4 GiB is zero. Sums of `unsigned long` wrap.
- an allocation may fail at any time; `gives` has the answers by the number of the attempt.
  The chunks of a file are apart in memory: none is given that an `unsigned long` could not
  count together with the others.
- `none` stands for a `memcpy` of a negative size or outside of the chunk, and for a loop
  that does not end (the `while` loops have fuel, and show it when it runs out).
- `current_chunk` is the number of the chunk in the list.
- a position is an `unsigned long`, and the new size of a file is not negative.
-/

namespace Barebox.Ramfs

open Lib

/-- `struct ramfs_chunk` -/
structure Chunk where
  ofs : Nat
  size : Int
  data : Bytes
  deriving DecidableEq

/-- `struct ramfs_inode` -/
structure Inode where
  size : Nat
  allocSize : Nat
  chunks : List Chunk
  currentChunk : Option Nat

/-- A number, put into an `int` -/
@[irreducible] def toInt (n : Int) : Int := Int.bmod n (2 ^ 32)

/-- A number, put into an `unsigned long` -/
def toUlong (l : Long) (n : Int) : Nat := (n % 2 ^ l.bits).toNat

/-- `MIN_SIZE` -/
def minSize : Nat := 8192

/-- The bytes that are allocated for the chunks. -/
def held (chunks : List Chunk) : Nat := (chunks.map fun c => c.data.length).sum

/-- The allocator gives a piece of that size, where `used` bytes have been given before. -/
def Granted (l : Long) (gives : Bool) (used size : Nat) : Prop := gives = true ∧ used + size < 2 ^ l.bits

instance (l : Long) (gives : Bool) (used size : Nat) : Decidable (Granted l gives used size) :=
  inferInstanceAs (Decidable (_ ∧ _))

/-- `ramfs_get_chunk`; the caller sets `ofs`. -/
def getChunk (l : Long) (gives : Bool) (used ofs size : Nat) : Option Chunk :=
  let size := max size minSize
  if Granted l gives used size then some ⟨ofs, toInt size, List.replicate size 0⟩ else none

/-! ## Reading and writing -/

/-- Where the search begins. -/
def searchFrom (node : Inode) (pos : Nat) : Nat :=
  match node.currentChunk with
  | some i =>
    match node.chunks[i]? with
    | some cur => if cur.ofs ≤ pos then i else 0
    | none => 0
  | none => 0

/-- The search of `ramfs_find_chunk`, for chunks that are numbered from `i` on. -/
def search (l : Long) (pos : Nat) : Nat → List Chunk → Option (Nat × Chunk)
  | _, [] => none
  | i, c :: cs => if pos < toUlong l (c.ofs + c.size) then some (i, c) else search l pos (i + 1) cs

/-- `ramfs_find_chunk` -/
def findChunk (l : Long) (node : Inode) (pos : Nat) : Option (Nat × Chunk) :=
  search l pos (searchFrom node pos) (node.chunks.drop (searchFrom node pos))

/-- The `ofs` and `now` of a turn, if the `memcpy` is inside of the chunk. -/
def piece (c : Chunk) (pos size : Nat) : Option (Nat × Nat) :=
  let ofs := toInt (pos - c.ofs)
  let len := toInt (c.ofs + c.size - pos)
  let now := min (size : Int) len
  if 0 ≤ ofs ∧ 0 ≤ now ∧ ofs + now ≤ c.data.length then some (ofs.toNat, now.toNat) else none

/-- The loop of `ramfs_read`. -/
def readLoop (l : Long) : Nat → Inode → Nat → Nat → Bytes → Inode × Option (Except Errno Bytes)
  | 0, node, _, size, buf => (node, if size = 0 then some (.ok buf) else none)
  | fuel + 1, node, pos, size, buf =>
    if size = 0 then (node, some (.ok buf))
    else
      match findChunk l node pos with
      | none => (node, some (.error .EINVAL))
      | some (i, c) =>
        let node := { node with currentChunk := some i }
        match piece c pos size with
        | none => (node, none)
        | some (ofs, now) =>
          readLoop l fuel node (toUlong l (pos + now)) (size - now) (buf ++ slice ofs now c.data)

/-- `ramfs_read` -/
def ramfsRead (l : Long) (node : Inode) (pos insize : Nat) : Inode × Option (Except Errno Bytes) :=
  let size := toInt insize
  if 0 ≤ size then readLoop l size.toNat node pos size.toNat []
  else
    -- the first `memcpy` has a negative size
    match findChunk l node pos with
    | none => (node, some (.error .EINVAL))
    | some (i, _) => ({ node with currentChunk := some i }, none)

/-- `memcpy` into a chunk -/
def Inode.put (node : Inode) (i : Nat) (c : Chunk) (ofs : Nat) (buf : Bytes) : Inode :=
  { node with
    chunks := node.chunks.set i { c with data := overwrite ofs buf c.data }, currentChunk := some i }

/-- The loop of `ramfs_write`. -/
def writeLoop (l : Long) : Nat → Inode → Nat → Bytes → Inode × Option (Except Errno Unit)
  | 0, node, _, buf => (node, if buf.length = 0 then some (.ok ()) else none)
  | fuel + 1, node, pos, buf =>
    if buf.length = 0 then (node, some (.ok ()))
    else
      match findChunk l node pos with
      | none => (node, some (.error .EINVAL))
      | some (i, c) =>
        match piece c pos buf.length with
        | none => ({ node with currentChunk := some i }, none)
        | some (ofs, now) =>
          writeLoop l fuel (node.put i c ofs (buf.take now)) (toUlong l (pos + now)) (buf.drop now)

/-- `ramfs_write` -/
def ramfsWrite (l : Long) (node : Inode) (pos : Nat) (buf : Bytes) : Inode × Option (Except Errno Unit) :=
  let size := toInt buf.length
  if 0 ≤ size then writeLoop l size.toNat node pos (buf.take size.toNat)
  else
    match findChunk l node pos with
    | none => (node, some (.error .EINVAL))
    | some (i, _) => ({ node with currentChunk := some i }, none)

/-! ## Truncating -/

/-- `ramfs_truncate_down` -/
def truncateDown (l : Long) (node : Inode) (size : Nat) : Inode :=
  { node with
    chunks := node.chunks.filter fun c => !decide (size ≤ c.ofs)
    allocSize := toUlong l
      (node.allocSize - ((node.chunks.filter fun c => decide (size ≤ c.ofs)).map Chunk.size).sum)
    currentChunk := none }

/-- The loop of `ramfs_truncate_up`: the chunks that are new, and their size. The file has
`used` bytes of memory, and its `alloc_size` is `base`. -/
def growLoop (l : Long) (gives : Nat → Bool) (used base : Nat) : Nat → Nat → Nat → Nat → Nat → List Chunk →
    Option (Except Errno (Nat × List Chunk))
  | 0, _, _, _, _, _ => none
  | fuel + 1, turn, chunksize, add, allocSize, list =>
    match getChunk l (gives turn) (used + held list) (toUlong l (base + allocSize))
      (min chunksize add) with
    | none =>
      let chunksize := chunksize / 2
      if chunksize < 131072 then some (.error .ENOSPC)
      else growLoop l gives used base fuel (turn + 1) chunksize add allocSize list
    | some data =>
      let list := list ++ [data]
      let allocSize := toUlong l (allocSize + data.size)
      if add ≤ toUlong l data.size then some (.ok (allocSize, list))
      else growLoop l gives used base fuel (turn + 1) chunksize (toUlong l (add - data.size)) allocSize list

/-- `ramfs_truncate_up` -/
def truncateUp (l : Long) (gives : Nat → Bool) (node : Inode) (size : Nat) :
    Inode × Option (Except Errno Unit) :=
  let add := size - node.allocSize
  if size ≤ node.allocSize then (node, some (.ok ()))
  else
    -- a turn takes one from `add` or `chunksize`, or uses memory
    match growLoop l gives (held node.chunks) node.allocSize (2 * add + 2 ^ l.bits) 0 add add 0 [] with
    | none => (node, none)
    | some (.error e) => (node, some (.error e))
    | some (.ok (allocSize, list)) =>
      ({ node with chunks := node.chunks ++ list, allocSize := toUlong l (node.allocSize + allocSize) },
        some (.ok ()))

/-- `ramfs_truncate` -/
def ramfsTruncate (l : Long) (gives : Nat → Bool) (node : Inode) (size : Nat) :
    Inode × Option (Except Errno Unit) :=
  if 2 ^ l.bits - 1 < size then (node, some (.error .ENOSPC))
  else if size = node.size then (node, some (.ok ()))
  else if size < node.size then ({ truncateDown l node size with size := size }, some (.ok ()))
  else
    match truncateUp l gives node size with
    | (node, some (.ok ())) => ({ node with size := size }, some (.ok ()))
    | (node, ret) => (node, ret)

end Barebox.Ramfs
