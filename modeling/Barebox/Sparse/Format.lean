import Barebox.Sparse.Model

/-!
# Sparse images — `include/image-sparse.h`

A `Layout` is the shape of a well-formed image: the sizes of its headers and
blocks, and of which kind its chunks are and how many blocks they have. An
`Image` fills it with bytes. `expansion` is what the image stands for, block
by block.

The second half says what `sparse_seek` does where a chunk begins.
-/

namespace Barebox.Sparse

open Lib List

/-- The bytes a chunk has behind its header. -/
def Kind.payload (blkSz blocks : Nat) : Kind → Nat
  | .raw => blkSz * blocks
  | .fill => 4
  | .dontCare => 0
  | .crc32 => 4

/-- The shape of an image. -/
structure Layout where
  fileHdrSz : Nat
  chunkHdrSz : Nat
  blkSz : Nat
  chunks : List (Kind × Nat)
  le_fileHdrSz : sizeofHeader ≤ fileHdrSz
  fileHdrSz_lt : fileHdrSz < 2 ^ 16
  le_chunkHdrSz : sizeofChunkHeader ≤ chunkHdrSz
  chunkHdrSz_lt : chunkHdrSz < 2 ^ 16
  blkSz_pos : 0 < blkSz
  blkSz_lt : blkSz < 2 ^ 32
  four_dvd_blkSz : 4 ∣ blkSz
  chunks_lt : chunks.length < 2 ^ 32
  /-- the blocks of the output, whose size is a `loff_t` -/
  blocks_lt : (chunks.map Prod.snd).sum < 2 ^ 32
  size_lt : blkSz * (chunks.map Prod.snd).sum < 2 ^ 63
  totalSz_lt : ∀ c ∈ chunks, chunkHdrSz + c.1.payload blkSz c.2 < 2 ^ 32
  /-- a checksum is no part of the output -/
  crc32_blocks : ∀ c ∈ chunks, c.1 = .crc32 → c.2 = 0

/-- A chunk; `extra` is what its header has behind the words that are known. -/
structure Chunk where
  kind : Kind
  reserved : Nat
  blocks : Nat
  extra : Bytes
  payload : Bytes

def Chunk.header (chunkHdrSz : Nat) (c : Chunk) : Bytes :=
  leBytes 2 c.kind.code ++ leBytes 2 c.reserved ++ leBytes 4 c.blocks
    ++ leBytes 4 (chunkHdrSz + c.payload.length)

def Chunk.bytes (chunkHdrSz : Nat) (c : Chunk) : Bytes :=
  c.header chunkHdrSz ++ c.extra ++ c.payload

/-- The chunk is one of an image of this layout. -/
structure Chunk.Of (L : Layout) (c : Chunk) : Prop where
  mem : (c.kind, c.blocks) ∈ L.chunks
  extra : c.extra.length = L.chunkHdrSz - sizeofChunkHeader
  payload : c.payload.length = c.kind.payload L.blkSz c.blocks

structure Image (L : Layout) where
  minor : Nat
  checksum : Nat
  extra : Bytes
  chunks : List Chunk
  /-- what the file has behind the last chunk -/
  behind : Bytes
  extra_length : extra.length = L.fileHdrSz - sizeofHeader
  shape : chunks.map (fun c => (c.kind, c.blocks)) = L.chunks
  chunk_extra : ∀ c ∈ chunks, c.extra.length = L.chunkHdrSz - sizeofChunkHeader
  chunk_payload : ∀ c ∈ chunks, c.payload.length = c.kind.payload L.blkSz c.blocks

variable {L : Layout}

def Image.header (image : Image L) : Bytes :=
  leBytes 4 0xed26ff3a ++ leBytes 2 1 ++ leBytes 2 image.minor ++ leBytes 2 L.fileHdrSz
    ++ leBytes 2 L.chunkHdrSz ++ leBytes 4 L.blkSz ++ leBytes 4 (L.chunks.map Prod.snd).sum
    ++ leBytes 4 L.chunks.length ++ leBytes 4 image.checksum

def Image.bytes (image : Image L) : Bytes :=
  image.header ++ image.extra ++ (image.chunks.flatMap (Chunk.bytes L.chunkHdrSz) ++ image.behind)

variable {c : Chunk}

theorem Image.chunk_of (image : Image L) (hc : c ∈ image.chunks) : c.Of L where
  mem := by
    rw [← image.shape]
    exact mem_map_of_mem hc
  extra := image.chunk_extra c hc
  payload := image.chunk_payload c hc

/-! ## What an image stands for -/

/-- The bytes the blocks of a chunk have. -/
def Chunk.data (blkSz : Nat) (c : Chunk) : Bytes :=
  match c.kind with
  | .raw => c.payload
  | .fill => (replicate (blkSz * c.blocks / 4) c.payload).flatten
  | .dontCare => []
  | .crc32 => []

/-- The chunk is one of those that have data. -/
def Kind.hasData : Kind → Bool
  | .raw => true
  | .fill => true
  | .dontCare => false
  | .crc32 => false

theorem Kind.data_cases {k : Kind} (h : k.hasData = true) : k = .raw ∨ k = .fill := by
  cases k with
  | raw => exact Or.inl rfl
  | fill => exact Or.inr rfl
  | dontCare => nomatch h
  | crc32 => nomatch h

theorem Kind.other_cases {k : Kind} (h : ¬ k.hasData = true) : k = .dontCare ∨ k = .crc32 := by
  cases k with
  | raw => exact absurd rfl h
  | fill => exact absurd rfl h
  | dontCare => exact Or.inl rfl
  | crc32 => exact Or.inr rfl

/-- The blocks of a chunk, of which the first is block `first` of the output. -/
def Chunk.pieces (blkSz first : Nat) (c : Chunk) : List (Nat × Bytes) :=
  if c.kind.hasData then
    (range c.blocks).map fun i => ((first + i) * blkSz, slice (i * blkSz) blkSz (c.data blkSz))
  else []

/-- The blocks of the output, each at its offset. -/
def expansion (blkSz : Nat) : Nat → List Chunk → List (Nat × Bytes)
  | _, [] => []
  | first, c :: cs => c.pieces blkSz first ++ expansion blkSz (first + c.blocks) cs

/-- The bytes of pieces, each with its position. -/
def spread (pieces : List (Nat × Bytes)) : List (UInt8 × Nat) :=
  pieces.flatMap fun p => p.2.zipIdx p.1

theorem spread_append (a b : List (Nat × Bytes)) : spread (a ++ b) = spread a ++ spread b :=
  flatMap_append

theorem flatten_replicate_length (n : Nat) (b : Bytes) :
    (replicate n b).flatten.length = n * b.length := by
  rw [length_flatten, map_replicate, sum_replicate_nat]

/-- The data of a chunk are its blocks. -/
theorem Chunk.Of.data_length (h : c.Of L) (hdata : c.kind.hasData = true) :
    (c.data L.blkSz).length = L.blkSz * c.blocks := by
  have hpayload := h.payload
  obtain ⟨k, hk⟩ := L.four_dvd_blkSz
  unfold Chunk.data
  rcases Kind.data_cases hdata with hkind | hkind
  · rwa [hkind] at hpayload ⊢
  · rw [hkind] at hpayload ⊢
    rw [flatten_replicate_length, hpayload, hk, Nat.mul_assoc, Nat.mul_div_cancel_left _ (by decide),
      Kind.payload, Nat.mul_comm]

theorem zipIdx_split {b : Bytes} {n : Nat} (h : n ≤ b.length) (pos : Nat) :
    b.zipIdx pos = (b.take n).zipIdx pos ++ (b.drop n).zipIdx (pos + n) := by
  have hsplit : (b.take n ++ b.drop n).zipIdx pos = _ := zipIdx_append
  rwa [take_append_drop, length_take, Nat.min_eq_left h] at hsplit

/-- Cut into blocks, the bytes are where they were. -/
theorem spread_blocks (blkSz first : Nat) {n : Nat} {data : Bytes} (hlen : data.length = n * blkSz) :
    spread ((range n).map fun i => ((first + i) * blkSz, slice (i * blkSz) blkSz data))
      = data.zipIdx (first * blkSz) := by
  induction n generalizing data with
  | zero =>
    rw [Nat.zero_mul] at hlen
    rw [length_eq_zero_iff.mp hlen]
    rfl
  | succ n ih =>
    rw [Nat.add_mul] at hlen
    -- all blocks but the last one
    have hinit : (data.take (n * blkSz)).length = n * blkSz := length_take_of_le (by omega)
    have hmap : (range n).map (fun i => ((first + i) * blkSz, slice (i * blkSz) blkSz data))
        = (range n).map fun i =>
          ((first + i) * blkSz, slice (i * blkSz) blkSz (data.take (n * blkSz))) := by
      refine map_congr_left fun i hi => ?_
      have hle : (i + 1) * blkSz ≤ n * blkSz :=
        Nat.mul_le_mul_right blkSz (mem_range.mp hi)
      rw [Nat.add_mul, Nat.one_mul] at hle
      rw [slice_take data hle]
    have hlast : slice (n * blkSz) blkSz data = data.drop (n * blkSz) :=
      take_of_length_le (by rw [length_drop]; omega)
    rw [range_succ, map_append, spread_append, hmap, ih hinit, map_singleton, hlast]
    show _ ++ ((data.drop (n * blkSz)).zipIdx ((first + n) * blkSz) ++ []) = _
    rw [append_nil, Nat.add_mul]
    exact (zipIdx_split (by omega) _).symm

theorem Chunk.Of.spread_pieces (h : c.Of L) (hdata : c.kind.hasData = true) (first : Nat) :
    spread (c.pieces L.blkSz first) = (c.data L.blkSz).zipIdx (first * L.blkSz) := by
  unfold Chunk.pieces
  rw [if_pos hdata]
  exact spread_blocks L.blkSz first (by rw [h.data_length hdata, Nat.mul_comm])

/-! ## Where a chunk begins -/

theorem Kind.ofCode_code (k : Kind) : Kind.ofCode k.code = some k := by
  cases k <;> rfl

/-- `b` is what the file has from here on. -/
structure At (file : Bytes) (off : Nat) (b : Bytes) : Prop where
  le : off ≤ file.length
  drop : file.drop off = b

variable {m : Machine} {file a b tail : Bytes} {off : Nat}

theorem At.length (h : At file off b) : off + b.length = file.length := by
  have hle := h.le
  rw [← h.drop, length_drop]
  omega

theorem At.behind (h : At file off (a ++ b)) : At file (off + a.length) b where
  le := by
    have hlen := h.length
    rw [length_append] at hlen
    omega
  drop := by rw [← drop_drop, h.drop, drop_left]

theorem At.readFull {size : Nat} (h : At file off (a ++ b)) (ha : a.length = size) (hlt : size < 2 ^ 31) :
    readFull file off size = .ok (a, off + size) := by
  have hslice : slice off size file = a := by
    unfold slice
    rw [h.drop, take_left' ha]
  unfold Sparse.readFull
  rw [hslice, if_neg (by omega), ha]

theorem At.lseek (h : At file off (a ++ b)) : lseek file (off + a.length) = .ok (off + a.length) := by
  unfold Sparse.lseek
  rw [if_neg (Nat.not_lt.mpr h.behind.le)]

theorem Chunk.header_length (hdr : Nat) (c : Chunk) : (c.header hdr).length = sizeofChunkHeader := by
  simp [Chunk.header, sizeofChunkHeader]

/-- Reading a chunk header back, on a little-endian machine. -/
theorem ChunkHeader.read_header {hdr : Nat} (hblocks : c.blocks < 2 ^ 32)
    (htotal : hdr + c.payload.length < 2 ^ 32) :
    ChunkHeader.read .little (c.header hdr) = ⟨c.kind.code, c.blocks, hdr + c.payload.length⟩ := by
  have hcode : c.kind.code < 256 ^ 2 := by cases c.kind <;> decide
  unfold ChunkHeader.read Endian.load Chunk.header
  simp only [append_assoc]
  rw [slice_append_exact _ (leBytes_length 2 _), leNat_leBytes_of_lt hcode,
    ← append_assoc, slice_mid _ (by simp) (leBytes_length 4 _), leNat_leBytes_of_lt hblocks]
  rw [← append_nil (leBytes 4 (hdr + _)), ← append_assoc, slice_mid _ (by simp)
    (leBytes_length 4 _), leNat_leBytes_of_lt htotal]

/-- The header of any chunk-like bytes, and what is skipped behind it. -/
theorem readChunkHeader_eq (sparse : Header) {extra : Bytes} (h : At file off (b ++ (extra ++ tail)))
    (hb : b.length = sizeofChunkHeader) (hextra : extra.length = sparse.chunkHdrSz - sizeofChunkHeader)
    (hle : sizeofChunkHeader ≤ sparse.chunkHdrSz) :
    readChunkHeader m file sparse off = .ok (ChunkHeader.read m.order b, off + sparse.chunkHdrSz)
      ∧ At file (off + sparse.chunkHdrSz) tail := by
  have hbehind := h.behind
  rw [hb] at hbehind
  have hseek := hbehind.lseek
  have htail := hbehind.behind
  have hsum : off + sizeofChunkHeader + extra.length = off + sparse.chunkHdrSz := by omega
  rw [hsum] at htail hseek
  refine ⟨?_, htail⟩
  unfold readChunkHeader
  rw [h.readFull hb (by decide), ok_bind]
  dsimp only
  rw [if_neg (by omega)]
  split
  next hlt =>
    rw [← hextra, hsum, hseek]
    rfl
  next hlt =>
  have : sparse.chunkHdrSz = sizeofChunkHeader := by omega
  rw [this]
  rfl

/-! ## Going to a chunk -/

/-- The header as it is read. -/
def Layout.sparse (L : Layout) : Header where
  fileHdrSz := L.fileHdrSz
  chunkHdrSz := L.chunkHdrSz
  blkSz := L.blkSz
  totalChunks := L.chunks.length

/-- What the file has behind the chunks that were seen. -/
def rest (L : Layout) (behind : Bytes) (cs : List Chunk) : Bytes :=
  cs.flatMap (Chunk.bytes L.chunkHdrSz) ++ behind

/-- The next chunk is the first of `cs`, and the machine reads its header right. -/
structure Ready (m : Machine) (L : Layout) (file behind : Bytes) (si : Ctx) (cs : List Chunk) : Prop where
  little : m.order = .little
  here : At file si.off (rest L behind cs)
  count : si.processedChunks + cs.length = L.chunks.length
  chunks : ∀ c ∈ cs, c.Of L

theorem Chunk.Of.blocks_lt (h : c.Of L) : c.blocks < 2 ^ 32 := by
  have hle : c.blocks ≤ (L.chunks.map Prod.snd).sum := by
    have hmem : c.blocks ∈ L.chunks.map Prod.snd := mem_map_of_mem h.mem
    generalize L.chunks.map Prod.snd = sizes at hmem
    induction hmem with
    | head => simp
    | tail b _ ih => simp only [sum_cons]; omega
  exact Nat.lt_of_le_of_lt hle L.blocks_lt

theorem Chunk.Of.total_lt (h : c.Of L) : L.chunkHdrSz + c.payload.length < 2 ^ 32 := by
  rw [h.payload]
  exact L.totalSz_lt _ h.mem

/-- The context behind the header of a chunk. -/
def entered (L : Layout) (c : Chunk) (si : Ctx) : Ctx :=
  { si with
    off := si.off + L.chunkHdrSz
    chunk := ⟨c.kind.code, c.blocks, L.chunkHdrSz + c.payload.length⟩
    processedChunks := si.processedChunks + 1 }

section

variable {behind : Bytes} {si : Ctx} {cs : List Chunk} (h : Ready m L file behind si (c :: cs))
include h

theorem Ready.of : c.Of L := h.chunks c (.head _)

/-- In front of a chunk its header is read, and its payload is next. -/
theorem Ready.header : readChunkHeader m file L.sparse si.off
      = .ok (⟨c.kind.code, c.blocks, L.chunkHdrSz + c.payload.length⟩, si.off + L.chunkHdrSz)
    ∧ At file (si.off + L.chunkHdrSz) (c.payload ++ rest L behind cs) := by
  have hhere := h.here
  unfold rest at hhere
  rw [flatMap_cons, Chunk.bytes, append_assoc, append_assoc, append_assoc] at hhere
  have hread := readChunkHeader_eq (m := m) L.sparse hhere (c.header_length _) h.of.extra
    L.le_chunkHdrSz
  rw [h.little, ChunkHeader.read_header h.of.blocks_lt h.of.total_lt] at hread
  exact hread

/-- The payload is as long as the header says. -/
theorem Ready.payload : (L.chunkHdrSz + c.payload.length + 2 ^ 32 - L.chunkHdrSz) % 2 ^ 32
    = c.kind.payload L.blkSz c.blocks := by
  have htotal := h.of.total_lt
  rw [← h.of.payload]
  omega

theorem Ready.seek : seekChunk m file L.sparse si
    = seekKind m file (L.blkSz * c.blocks) (c.kind.payload L.blkSz c.blocks) (entered L c si)
      (some c.kind) := by
  unfold seekChunk
  rw [h.header.1, ok_bind]
  dsimp only
  rw [Kind.ofCode_code, Layout.sparse, h.payload]
  rfl

theorem Ready.seek_dontCare (hkind : c.kind = .dontCare) : seekChunk m file L.sparse si
      = .ok ({ entered L c si with pos := si.pos + L.blkSz * c.blocks }, false) := by
  rw [h.seek, hkind]
  rfl

/-- The checksum is not skipped. -/
theorem Ready.seek_crc32 (hkind : c.kind = .crc32) :
    seekChunk m file L.sparse si = .ok (entered L c si, false) := by
  have hblocks : c.blocks = 0 := L.crc32_blocks _ h.of.mem hkind
  have hseek : lseek file (entered L c si).off = .ok (entered L c si).off :=
    h.header.2.lseek (a := [])
  rw [h.seek, hkind, hblocks, seekKind, Nat.mul_zero, Nat.add_zero, hseek]
  rfl

theorem Ready.seek_raw (hkind : c.kind = .raw) : seekChunk m file L.sparse si
      = .ok ({ entered L c si with remaining := L.blkSz * c.blocks }, true) := by
  rw [h.seek, hkind, seekKind, if_neg (fun hne => hne rfl)]
  rfl

theorem Ready.seek_fill (hkind : c.kind = .fill) : seekChunk m file L.sparse si
      = .ok ({ entered L c si with
          off := si.off + L.chunkHdrSz + 4
          fillVal := c.payload
          remaining := L.blkSz * c.blocks % m.sizes }, true) := by
  have hlen : c.payload.length = 4 := by rw [h.of.payload, hkind]; rfl
  have hread : readFull file (entered L c si).off 4 = .ok (c.payload, si.off + L.chunkHdrSz + 4) :=
    h.header.2.readFull hlen (by decide)
  rw [h.seek, hkind, seekKind, if_neg (fun hne => hne rfl), readWord, hread, ok_bind]
  dsimp only
  rw [if_neg (by omega)]
  rfl

end

end Barebox.Sparse
