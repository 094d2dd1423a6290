import Barebox.Base
import Barebox.Lib.Bytes
import Barebox.Lib.Memory

/-!
# The block layer — `common/block.c`

Reads and writes of a block device go through eight chunks of 64 KiB. A
chunk is in one of two lists: `buffered_blocks`, the one used last in front,
or `idle_blocks`.

Mirroring notes:
- the eight `struct chunk` are `State.chunks`, pointers to them are numbers,
  and the lists are lists of pointers. `chunk->data` is a memory of its own;
  `dma_alloc` does not clear it. A pointer into a chunk is the chunk and an
  offset.
- the size of the device fits the `loff_t cdev.size`, so that block numbers
  and byte offsets do not overflow. What `discard_range` is given need not be
  a part of the device: `discard_start + discard_size` is taken modulo
  `2 ^ 64`.
- `faults` are the results of the device operations to come; when the list is
  at its end, all succeed. An operation that fails does nothing, and an error
  is a negative number.
- `CONFIG_BLOCK_WRITE` is on. `chunk->num` is for messages and left out.
-/

namespace Barebox.Block

open Lib

def pageSize : Nat := 4096

/-- `BUFSIZE` -/
def bufsize : Nat := pageSize * 16

/-- What does not change in a `struct block_device`. -/
structure Geometry where
  blockbits : Nat
  numBlocks : Nat
  /-- There is an `ops->flush`. -/
  hasFlush : Bool
  blockbits_le : blockbits ≤ 16
  size_lt : numBlocks * 2 ^ blockbits < 2 ^ 63

namespace Geometry

/-- `BLOCKSIZE` -/
def blocksize (g : Geometry) : Nat := 1 <<< g.blockbits

def rdbufsize (g : Geometry) : Nat := bufsize >>> g.blockbits

def blkmask (g : Geometry) : Nat := g.rdbufsize - 1

/-- `cdev.size` -/
def size (g : Geometry) : Nat := g.numBlocks * g.blocksize

/-- `writebuffer_io_len`, for a chunk that starts at a block. -/
def writebufferIoLen (g : Geometry) (blockStart : Nat) : Nat :=
  min g.rdbufsize (g.numBlocks - blockStart)

end Geometry

/-- `struct chunk` -/
structure Chunk where
  data : Memory UInt8
  blockStart : Nat
  dirty : Bool

/-- The rest of a `struct block_device`, its chunks, and the device. -/
structure State where
  chunks : Fin 8 → Chunk
  bufferedBlocks : List (Fin 8)
  idleBlocks : List (Fin 8)
  discardStart : Nat
  discardSize : Nat
  disk : Memory UInt8
  faults : List Ret

abbrev M := EStateM Errno State

namespace State

def setChunk (s : State) (c : Fin 8) (f : Chunk → Chunk) : State :=
  { s with chunks := Function.update s.chunks c (f (s.chunks c)) }

def setData (s : State) (c : Fin 8) (f : Memory UInt8 → Memory UInt8) : State :=
  s.setChunk c fun chunk => { chunk with data := f chunk.data }

def setDirty (s : State) (c : Fin 8) (dirty : Bool) : State :=
  s.setChunk c fun chunk => { chunk with dirty := dirty }

def setBlockStart (s : State) (c : Fin 8) (blockStart : Nat) : State :=
  s.setChunk c fun chunk => { chunk with blockStart := blockStart }

end State

/-! ## The device -/

/-- The result of the next operation. -/
def nextResult : M Ret := do
  let s ← get
  match s.faults with
  | [] => return .ok
  | ret :: faults =>
    set { s with faults := faults }
    return ret

/-- `ops->read` into a chunk. -/
def opsRead (g : Geometry) (c : Fin 8) (block numBlocks : Nat) : M Ret := do
  match ← nextResult with
  | .err e => return .err e
  | .ok =>
    modify fun s => s.setData c fun data =>
      copy data 0 s.disk (block * g.blocksize) (numBlocks * g.blocksize)
    return .ok

/-- `ops->write` out of a chunk. -/
def opsWrite (g : Geometry) (c : Fin 8) (block numBlocks : Nat) : M Ret := do
  match ← nextResult with
  | .err e => return .err e
  | .ok =>
    modify fun s => { s with
      disk := copy s.disk (block * g.blocksize) (s.chunks c).data 0 (numBlocks * g.blocksize) }
    return .ok

/-! ## Chunks -/

/-- What `writebuffer_flush` and `get_chunk` do with a chunk. -/
def writeChunk (g : Geometry) (c : Fin 8) : M Unit := do
  let s ← get
  if (s.chunks c).dirty then
    let blockStart := (s.chunks c).blockStart
    match ← opsWrite g c blockStart (g.writebufferIoLen blockStart) with
    | .err e => throw e
    | .ok => modify fun s => s.setDirty c false
  else return ()

/-- `writebuffer_flush` -/
def writebufferFlush (g : Geometry) : M Unit := do
  let s ← get
  s.bufferedBlocks.forM (writeChunk g)
  if g.hasFlush then
    match ← nextResult with
    | .err e => throw e
    | .ok => return ()
  else return ()

/-- The test in `chunk_get_cached`. -/
def holds (g : Geometry) (block : Nat) (chunk : Chunk) : Bool :=
  block ≥ chunk.blockStart ∧ block < chunk.blockStart + g.rdbufsize

/-- `chunk_get_cached` -/
def chunkGetCached (g : Geometry) (block : Nat) : M (Option (Fin 8)) := do
  let s ← get
  match s.bufferedBlocks.find? fun c => holds g block (s.chunks c) with
  | none => return none
  | some c =>
    -- the entry used last goes to the head of the list
    set { s with bufferedBlocks := c :: s.bufferedBlocks.erase c }
    return some c

/-- `block_get_cached` -/
def blockGetCached (g : Geometry) (block : Nat) : M (Option (Fin 8 × Nat)) := do
  match ← chunkGetCached g block with
  | none => return none
  | some c =>
    let s ← get
    return some (c, (block - (s.chunks c).blockStart) * g.blocksize)

/-- `get_chunk` -/
def getChunk (g : Geometry) : M (Fin 8) := do
  let s ← get
  match s.idleBlocks with
  | c :: _ =>
    modify fun s => { s with idleBlocks := s.idleBlocks.erase c }
    return c
  | [] =>
    match s.bufferedBlocks.getLast? with
    | none => throw .EFAULT
    | some c =>
      writeChunk g c
      modify fun s => { s with bufferedBlocks := s.bufferedBlocks.erase c }
      return c

/-- `block & ~blk->blkmask` -/
def chunkStart (g : Geometry) (block : Nat) : Nat := block &&& (2 ^ 64 - 1 - g.blkmask)

/-- A chunk that starts at a block is not read. -/
def State.discards (g : Geometry) (s : State) (blockStart : Nat) : Bool :=
  blockStart * g.blocksize ≥ s.discardStart ∧
    blockStart * g.blocksize + g.writebufferIoLen blockStart
      ≤ (s.discardStart + s.discardSize) % 2 ^ 64

/-- `block_cache` -/
def blockCache (g : Geometry) (block : Nat) : M Unit := do
  let c ← getChunk g
  let blockStart := chunkStart g block
  modify fun s => s.setBlockStart c blockStart
  let s ← get
  if s.discards g blockStart then
    modify fun s => s.setData c fun data =>
      copy data 0 (fun _ => 0) 0 (g.writebufferIoLen blockStart)
    modify fun s => { s with bufferedBlocks := c :: s.bufferedBlocks }
  else
    match ← opsRead g c blockStart (g.writebufferIoLen blockStart) with
    | .err e =>
      modify fun s => { s with idleBlocks := s.idleBlocks ++ [c] }
      throw e
    | .ok => modify fun s => { s with bufferedBlocks := c :: s.bufferedBlocks }

/-- `block_get`; `BUG()` is `EFAULT`. -/
def blockGet (g : Geometry) (block : Nat) : M (Fin 8 × Nat) := do
  if block ≥ g.numBlocks then throw .ENXIo
  else
    match ← blockGetCached g block with
    | some outdata => return outdata
    | none =>
      blockCache g block
      match ← blockGetCached g block with
      | some outdata => return outdata
      | none => throw .EFAULT

/-! ## Reading -/

/-- `memcpy` out of a chunk. -/
def readData (c : Fin 8) (off n : Nat) : M Bytes := do
  let s ← get
  return peek (s.chunks c).data off n

/-- The loop over whole blocks. -/
def readBlocks (g : Geometry) : Nat → Nat → M Bytes
  | 0, _ => return []
  | blocks + 1, block => do
    let (c, iobuf) ← blockGet g block
    let now ← readData c iobuf g.blocksize
    let rest ← readBlocks g blocks (block + 1)
    return now ++ rest

/-- The part in front of the first whole block: its bytes. -/
def readHead (g : Geometry) (count offset : Nat) : M Bytes := do
  let mask := g.blocksize - 1
  let (c, iobuf) ← blockGet g (offset >>> g.blockbits)
  readData c (iobuf + (offset &&& mask)) (min count (g.blocksize - (offset &&& mask)))

/-- From a block on. -/
def readFrom (g : Geometry) (count block : Nat) : M Bytes := do
  let blocks := count >>> g.blockbits
  let middle ← readBlocks g blocks block
  let count := count - blocks * g.blocksize
  if count ≠ 0 then
    let (c, iobuf) ← blockGet g (block + blocks)
    let tail ← readData c iobuf count
    return middle ++ tail
  else return middle

/-- `block_op_read` -/
def blockOpRead (g : Geometry) (count offset : Nat) : M Bytes := do
  let mask := g.blocksize - 1
  let block := offset >>> g.blockbits
  if offset &&& mask ≠ 0 then
    let head ← readHead g count offset
    let rest ← readFrom g (count - head.length) (block + 1)
    return head ++ rest
  else readFrom g count block

/-! ## Writing -/

/-- `block_put`. What is copied may lie in a chunk itself, and is what is
there when it is copied. -/
def blockPut (g : Geometry) (buf : State → Memory UInt8) (block : Nat) : M Unit := do
  if block ≥ g.numBlocks then throw .EINVAL
  else
    let (c, data) ← blockGet g block
    modify fun s => s.setData c fun chunk => copy chunk data (buf s) 0 g.blocksize
    match ← chunkGetCached g block with
    | none => throw .EFAULT
    | some c => modify fun s => s.setDirty c true

/-- A part of a block: it is changed in the chunk, and put back where it
is. -/
def writePart (g : Geometry) (buf : Memory UInt8) (block pos now : Nat) : M Unit := do
  let (c, iobuf) ← blockGet g block
  modify fun s => s.setData c fun chunk => copy chunk (iobuf + pos) buf 0 now
  blockPut g (fun s i => (s.chunks c).data (iobuf + i)) block

/-- The loop over whole blocks. -/
def writeBlocks (g : Geometry) : Memory UInt8 → Nat → Nat → M Unit
  | _, 0, _ => return ()
  | buf, blocks + 1, block => do
    blockPut g (fun _ => buf) block
    writeBlocks g (fun i => buf (g.blocksize + i)) blocks (block + 1)

/-- From a block on. -/
def writeFrom (g : Geometry) (buf : Memory UInt8) (count block : Nat) : M Unit := do
  let blocks := count >>> g.blockbits
  writeBlocks g buf blocks block
  let done := blocks * g.blocksize
  if count - done ≠ 0 then
    writePart g (fun i => buf (done + i)) (block + blocks) 0 (count - done)
  else return ()

/-- `block_op_write` -/
def blockOpWrite (g : Geometry) (buf : Memory UInt8) (count offset : Nat) : M Unit := do
  let mask := g.blocksize - 1
  let block := offset >>> g.blockbits
  if offset &&& mask ≠ 0 then
    let now := min count (g.blocksize - (offset &&& mask))
    writePart g buf block (offset &&& mask) now
    writeFrom g (fun i => buf (now + i)) (count - now) (block + 1)
  else writeFrom g buf count block

/-! ## The other operations -/

/-- `block_op_flush` -/
def blockOpFlush (g : Geometry) : M Unit := do
  modify fun s => { s with discardStart := 0, discardSize := 0 }
  writebufferFlush g

/-- `block_op_discard_range` -/
def blockOpDiscardRange (count offset : Nat) : M Unit :=
  modify fun s => { s with discardStart := offset, discardSize := count }

/-- After `blockdevice_register`, for a structure that was cleared. -/
def blockdeviceRegister (disk : Memory UInt8) (dma : Fin 8 → Memory UInt8) (faults : List Ret) :
    State :=
  { chunks := fun c => ⟨dma c, 0, false⟩
    bufferedBlocks := []
    idleBlocks := List.finRange 8
    discardStart := 0
    discardSize := 0
    disk := disk
    faults := faults }

end Barebox.Block
