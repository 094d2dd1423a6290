import Barebox.Base
import Barebox.Lib.Bytes
import Barebox.Lib.Loop

/-!
# Expanding a sparse image — `lib/image-sparse.c`

A sparse image is a header and a row of chunks, each with a header of its own
and a payload. `sparse_seek` goes to the next chunk that has data and
`sparse_image_read` hands out a piece of it; the caller writes the piece to its
position and reads on until a call gives it no bytes (`readTurn`).

Mirroring notes:
- the code reads the little-endian words of the headers as they are. `Machine`
  has the byte order with which it does, and the width of a `size_t`, which is
  what `remaining` is.
- the file is a list of bytes and `off` is the position of the descriptor. A
  `read` hands its count back in an `int`: when that does not fit, the result
  is negative, which is `EFAULT` here.
- `i` is an `int` in the loop that fills the buffer. With more than `2 ^ 31`
  words it wraps and the rest of the buffer stays as it is, also `EFAULT`.
- `processed_chunks` never goes past `total_chunks`, and `pos` does not
  overflow as long as the image has a size.
-/

namespace Barebox.Sparse

open Lib

structure Machine where
  long : Long
  order : Endian

/-- How many values a `size_t` has. -/
def Machine.sizes (m : Machine) : Nat := 2 ^ m.long.bits

inductive Kind where
  | raw
  | fill
  | dontCare
  | crc32
  deriving DecidableEq

/-- `CHUNK_TYPE_RAW` and so on -/
def Kind.code : Kind → Nat
  | .raw => 0xCAC1
  | .fill => 0xCAC2
  | .dontCare => 0xCAC3
  | .crc32 => 0xCAC4

def Kind.ofCode (code : Nat) : Option Kind :=
  [Kind.raw, .fill, .dontCare, .crc32].find? (·.code = code)

def sizeofHeader : Nat := 28
def sizeofChunkHeader : Nat := 12

/-- `struct sparse_header`, as far as it is looked at here. -/
structure Header where
  fileHdrSz : Nat
  chunkHdrSz : Nat
  blkSz : Nat
  totalChunks : Nat

def Header.read (e : Endian) (b : Bytes) : Header where
  fileHdrSz := e.load (slice 8 2 b)
  chunkHdrSz := e.load (slice 10 2 b)
  blkSz := e.load (slice 12 4 b)
  totalChunks := e.load (slice 20 4 b)

/-- `struct chunk_header` -/
structure ChunkHeader where
  chunkType : Nat
  chunkSz : Nat
  totalSz : Nat

def ChunkHeader.read (e : Endian) (b : Bytes) : ChunkHeader where
  chunkType := e.load (slice 0 2 b)
  chunkSz := e.load (slice 4 4 b)
  totalSz := e.load (slice 8 4 b)

/-- `struct sparse_image_ctx`; `off` is the position of `fd`. -/
structure Ctx where
  off : Nat
  processedChunks : Nat
  chunk : ChunkHeader
  pos : Nat
  remaining : Nat
  fillVal : Bytes

/-- `read_full`, with the position behind what was read. -/
def readFull (file : Bytes) (off size : Nat) : Except Errno (Bytes × Nat) :=
  let b := slice off size file
  if 2 ^ 31 ≤ b.length then .error .EFAULT else .ok (b, off + b.length)

def lseek (file : Bytes) (pos : Nat) : Except Errno Nat :=
  if file.length < pos then .error .EINVAL else .ok pos

/-- The header of the next chunk, and the bytes of it that are not known. -/
def readChunkHeader (m : Machine) (file : Bytes) (sparse : Header) (off : Nat) :
    Except Errno (ChunkHeader × Nat) := do
  let (b, off) ← readFull file off sizeofChunkHeader
  if b.length < sizeofChunkHeader then .error .EINVAL
  else if sizeofChunkHeader < sparse.chunkHdrSz then
    let off ← lseek file (off + (sparse.chunkHdrSz - sizeofChunkHeader))
    return (ChunkHeader.read m.order b, off)
  else return (ChunkHeader.read m.order b, off)

/-- The value of a fill chunk. -/
def readWord (file : Bytes) (off : Nat) : Except Errno (Bytes × Nat) := do
  let (b, off) ← readFull file off 4
  if b.length < 4 then .error .EINVAL else return (b, off)

/-- The switch over the type of the chunk: `true` if `sparse_seek` stops there. -/
def seekKind (m : Machine) (file : Bytes) (chunkDataSz payload : Nat) (si : Ctx) :
    Option Kind → Except Errno (Ctx × Bool)
  | some .raw =>
    if payload ≠ chunkDataSz then .error .EINVAL
    else .ok ({ si with remaining := payload }, true)
  | some .fill =>
    if payload ≠ 4 then .error .EINVAL
    else do
      let (fillVal, off) ← readWord file si.off
      return ({ si with off := off, fillVal := fillVal, remaining := chunkDataSz % m.sizes }, true)
  | some .dontCare => .ok ({ si with pos := si.pos + chunkDataSz }, false)
  | some .crc32 =>
    if payload ≠ 4 then .error .EINVAL
    else do
      -- the length of the data, not that of the payload
      let off ← lseek file (si.off + chunkDataSz)
      return ({ si with off := off }, false)
  | none => .error .EINVAL

/-- What `sparse_seek` does with a chunk. -/
def seekChunk (m : Machine) (file : Bytes) (sparse : Header) (si : Ctx) : Except Errno (Ctx × Bool) := do
  let (chunk, off) ← readChunkHeader m file sparse si.off
  let chunkDataSz := sparse.blkSz * chunk.chunkSz
  let payload := (chunk.totalSz + 2 ^ 32 - sparse.chunkHdrSz) % 2 ^ 32
  seekKind m file chunkDataSz payload
    { si with off := off, chunk := chunk, processedChunks := si.processedChunks + 1 }
    (Kind.ofCode chunk.chunkType)

/-- Once through `again`. -/
def seekTurn (m : Machine) (file : Bytes) (sparse : Header) (si : Ctx) : Turn Ctx Errno (Ctx × Bool) :=
  if si.processedChunks = sparse.totalChunks then .done (si, false)
  else
    match seekChunk m file sparse si with
    | .error e => .fail e
    | .ok (si, true) => .done (si, true)
    | .ok (si, false) => .next si

/-- `sparse_seek`: whether there is a chunk. -/
def sparseSeek (m : Machine) (file : Bytes) (sparse : Header) (si : Ctx) : Except Errno (Ctx × Bool) :=
  loop (seekTurn m file sparse) .EFAULT (sparse.totalChunks - si.processedChunks + 1) si

/-- The position behind the header of the file. -/
def skipHeader (file : Bytes) (sparse : Header) : Except Errno Nat :=
  if sizeofHeader < sparse.fileHdrSz then lseek file sparse.fileHdrSz
  else .ok (min sizeofHeader file.length)

/-- `sparse_image_open` -/
def sparseImageOpen (m : Machine) (file : Bytes) : Except Errno (Header × Ctx) := do
  let sparse := Header.read m.order (file.take sizeofHeader)
  let off ← skipHeader file sparse
  let (si, _) ← sparseSeek m file sparse ⟨off, 0, ⟨0, 0, 0⟩, 0, 0, [0, 0, 0, 0]⟩
  return (sparse, si)

/-- The bytes of the chunk that are handed out, and the position behind them. -/
def readPiece (file : Bytes) (si : Ctx) (now : Nat) : Except Errno (Bytes × Nat) :=
  match Kind.ofCode si.chunk.chunkType with
  | some .raw => do
    let (b, off) ← readFull file si.off now
    if b.length < now then .error .EINVAL else return (b, off)
  | some .fill =>
    if now % 4 ≠ 0 then .error .EINVAL
    else if 2 ^ 31 < now / 4 then .error .EFAULT
    else .ok ((List.replicate (now / 4) si.fillVal).flatten, si.off)
  | _ => .error .EINVAL

/-- `sparse_image_read`: the piece and its position. There is none when `*pos`
is left alone. -/
def sparseImageRead (m : Machine) (file : Bytes) (sparse : Header) (len : Nat) (si : Ctx) :
    Except Errno (Ctx × Option (Nat × Bytes)) := do
  let (si, found) ← if si.remaining = 0 then sparseSeek m file sparse si else .ok (si, true)
  if !found then return (si, none)
  else
    let now := min si.remaining len
    let (b, off) ← readPiece file si now
    return ({ si with off := off, pos := si.pos + now, remaining := si.remaining - now },
      some (si.pos, b))

/-- The pieces so far; a call that returns no bytes is the last. -/
def readTurn (m : Machine) (file : Bytes) (sparse : Header) (len : Nat) :
    Ctx × List (Nat × Bytes) → Turn (Ctx × List (Nat × Bytes)) Errno (List (Nat × Bytes))
  | (si, pieces) =>
    match sparseImageRead m file sparse len si with
    | .error e => .fail e
    | .ok (_, none) => .done pieces
    | .ok (_, some (_, [])) => .done pieces
    | .ok (si, some piece) => .next (si, pieces ++ [piece])

/-- The image is opened and read to its end, in at most `n` calls. -/
def readAll (m : Machine) (file : Bytes) (len n : Nat) : Except Errno (List (Nat × Bytes)) := do
  let (sparse, si) ← sparseImageOpen m file
  loop (readTurn m file sparse len) .EFAULT n (si, [])

end Barebox.Sparse
