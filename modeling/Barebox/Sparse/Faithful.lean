import Barebox.Sparse.Expand

/-!
# When a sparse image is expanded faithfully — `lib/image-sparse.c`

What is handed out is the expansion for every `Readable` row of chunks
(`delivered_of_readable`), and is too short for any other
(`readable_of_delivered`): counting the bytes is enough to tell them apart.
-/

namespace Barebox.Sparse

open Lib List

variable {L : Layout} {m : Machine} {len : Nat}

/-! ## What is handed out and what should be -/

theorem handed_eq_data {c : Chunk} (hlt : L.blkSz * c.blocks < m.sizes) :
    handed m L.blkSz c = c.data L.blkSz := by
  have hmod := Nat.mod_eq_of_lt hlt
  unfold handed Chunk.data
  cases c.kind <;> simp only [hmod]

/-- The bytes of the blocks. -/
def dataLen (blkSz : Nat) : List Chunk → Nat
  | [] => 0
  | c :: cs => (if c.kind.hasData then blkSz * c.blocks else 0) + dataLen blkSz cs

variable {cs : List Chunk}

/-- The number of bytes that an image stands for. -/
theorem spread_expansion_length (first : Nat) (hof : ∀ c ∈ cs, c.Of L) :
    (spread (expansion L.blkSz first cs)).length = dataLen L.blkSz cs := by
  induction cs generalizing first with
  | nil => rfl
  | cons c cs ih =>
    rw [expansion, spread_append, length_append, ih _ fun c' hc' => hof c' (.tail _ hc'), dataLen]
    by_cases hdata : c.kind.hasData = true
    · have hc := hof c (.head _)
      rw [hc.spread_pieces hdata, length_zipIdx, hc.data_length hdata, if_pos hdata]
    · unfold Chunk.pieces
      rw [if_neg hdata, if_neg hdata]
      rfl

/-- No data at all, by the layout and by the bytes. -/
theorem dataLen_eq_zero : (∀ x ∈ shape cs, x.1.hasData → x.2 = 0) ↔ dataLen L.blkSz cs = 0 := by
  induction cs with
  | nil => simp [shape, dataLen]
  | cons c cs ih =>
    rw [dataLen, Nat.add_eq_zero_iff, ← ih]
    show (∀ x ∈ (c.kind, c.blocks) :: shape cs, _) ↔ _
    rw [forall_mem_cons]
    refine and_congr_left fun _ => ?_
    have hpos := L.blkSz_pos
    by_cases hdata : c.kind.hasData = true
    · simp [hdata]
      omega
    · simp [hdata]

/-- On a readable layout the calls deliver what the image stands for, … -/
theorem delivered_of_readable {opening : Bool} (first : Nat) (hof : ∀ c ∈ cs, c.Of L)
    (hreadable : Readable m len L.blkSz opening (shape cs)) :
    delivered m len L.blkSz opening (first * L.blkSz) cs
      = some (spread (expansion L.blkSz first cs)) := by
  induction cs generalizing opening first with
  | nil => rfl
  | cons c cs ih =>
    have hc := hof c (.head _)
    have hof' : ∀ c' ∈ cs, c'.Of L := fun c' hc' => hof c' (.tail _ hc')
    rw [expansion, spread_append]
    by_cases hdata : c.kind.hasData = true
    · rw [readable_data hdata] at hreadable
      rw [delivered_data hdata, hc.spread_pieces hdata]
      by_cases hblocks : c.blocks = 0
      · have hdataNil : c.data L.blkSz = [] := by
          rw [← length_eq_zero_iff, hc.data_length hdata, hblocks, Nat.mul_zero]
        rw [if_pos hblocks] at hreadable
        rw [hc.handed_eq_nil hdata hblocks, hdataNil, hblocks, Nat.add_zero]
        cases opening with
        | true => exact ih first hof' hreadable
        | false =>
          -- nothing is missed
          have hlen := spread_expansion_length first hof'
          rw [(dataLen_eq_zero).mp hreadable, length_eq_zero_iff] at hlen
          rw [hlen]
          rfl
      · rw [if_neg hblocks] at hreadable
        obtain ⟨hlt, hreads, hrest⟩ := hreadable
        have hlen := hc.data_length hdata
        have hpos : 0 < L.blkSz * c.blocks :=
          Nat.mul_pos L.blkSz_pos (Nat.pos_of_ne_zero hblocks)
        have hne : ¬ (c.data L.blkSz).isEmpty = true := by
          rw [List.isEmpty_iff, ← length_eq_zero_iff]
          omega
        rw [handed_eq_data hlt, if_neg hne, hlen, if_pos hreads, Nat.mul_comm L.blkSz, ← Nat.add_mul,
          ih _ hof' hrest]
        rfl
    · have hpieces : c.pieces L.blkSz first = [] := by
        unfold Chunk.pieces
        rw [if_neg hdata]
      rw [hpieces]
      rcases Kind.other_cases hdata with hkind | hkind
      · rw [readable_dontCare hkind] at hreadable
        rw [delivered_dontCare hkind, Nat.mul_comm L.blkSz, ← Nat.add_mul]
        exact ih _ hof' hreadable
      · rw [readable_crc32 hkind] at hreadable
        subst hreadable
        rw [delivered_crc32 hkind]
        rfl

/-- … and if they deliver as many bytes the layout was readable. -/
theorem readable_of_delivered {opening : Bool} {pos : Nat} {out : List (UInt8 × Nat)}
    (hof : ∀ c ∈ cs, c.Of L) (h : delivered m len L.blkSz opening pos cs = some out) :
    out.length ≤ dataLen L.blkSz cs
      ∧ (out.length = dataLen L.blkSz cs → Readable m len L.blkSz opening (shape cs)) := by
  induction cs generalizing opening pos out with
  | nil =>
    cases h
    exact ⟨Nat.le_refl 0, fun _ => trivial⟩
  | cons c cs ih =>
    have hc := hof c (.head _)
    have hof' : ∀ c' ∈ cs, c'.Of L := fun c' hc' => hof c' (.tail _ hc')
    rw [dataLen]
    by_cases hdata : c.kind.hasData = true
    · rw [readable_data hdata, if_pos hdata]
      rw [delivered_data hdata] at h
      have hlen := hc.handed_length (m := m) hdata
      have hmod := Nat.mod_le (L.blkSz * c.blocks) m.sizes
      have hzero : L.blkSz * c.blocks = 0 → c.blocks = 0 := fun h0 =>
        (Nat.mul_eq_zero.mp h0).resolve_left (Nat.ne_of_gt L.blkSz_pos)
      -- a `size_t` of zero: no blocks, or so many that it has wrapped
      by_cases hnil : handed m L.blkSz c = []
      · rw [if_pos (by rwa [List.isEmpty_iff])] at h
        cases opening with
        | true =>
          obtain ⟨hle, hreadable⟩ := ih hof' h
          refine ⟨by omega, fun heq => ?_⟩
          rw [if_pos (hzero (by omega))]
          exact hreadable (by omega)
        | false =>
          cases h
          refine ⟨Nat.zero_le _, fun heq => ?_⟩
          rw [length_nil] at heq
          rw [if_pos (hzero (by omega))]
          exact (dataLen_eq_zero (L := L)).mpr (by omega)
      · rw [if_neg (by rwa [List.isEmpty_iff])] at h
        by_cases hreads : c.kind.Reads (min (handed m L.blkSz c).length len)
        · rw [if_pos hreads, Option.map_eq_some_iff] at h
          obtain ⟨out', hrest, rfl⟩ := h
          obtain ⟨hle, hreadable⟩ := ih hof' hrest
          rw [length_append, length_zipIdx]
          refine ⟨by omega, fun heq => ?_⟩
          have hall : L.blkSz * c.blocks % m.sizes = L.blkSz * c.blocks := by omega
          have hlt := Nat.mod_lt (L.blkSz * c.blocks)
            (Nat.lt_of_lt_of_le (by decide) m.le_sizes : m.sizes > 0)
          rw [hall] at hlt hlen
          rw [hlen] at hreads
          rw [if_neg fun h0 => hnil (hc.handed_eq_nil hdata h0)]
          exact ⟨hlt, hreads, hreadable (by omega)⟩
        · rw [if_neg hreads] at h
          nomatch h
    · rw [if_neg hdata, Nat.zero_add]
      rcases Kind.other_cases hdata with hkind | hkind
      · rw [delivered_dontCare hkind] at h
        rw [readable_dontCare hkind]
        exact ih hof' h
      · rw [delivered_crc32 hkind] at h
        rw [readable_crc32 hkind]
        by_cases hcs : cs = []
        · rw [if_pos (by rwa [List.isEmpty_iff])] at h
          cases h
          exact ⟨Nat.zero_le _, fun _ => hcs⟩
        · rw [if_neg (by rwa [List.isEmpty_iff])] at h
          nomatch h

/-! ## Images -/

theorem Image.header_length (image : Image L) : image.header.length = sizeofHeader := by
  simp [Image.header, sizeofHeader]

/-- Reading the header of the file back. -/
theorem Image.read_header (image : Image L) : Header.read .little image.header = L.sparse := by
  have hdrop : ∀ k n x, k ≤ n → (leBytes k x).drop n = [] := fun k n x hle =>
    drop_eq_nil_of_le (by rwa [leBytes_length])
  have hfile := leNat_leBytes_of_lt (k := 2) L.fileHdrSz_lt
  have hchunk := leNat_leBytes_of_lt (k := 2) L.chunkHdrSz_lt
  have hblk := leNat_leBytes_of_lt (k := 4) L.blkSz_lt
  have htotal := leNat_leBytes_of_lt (k := 4) L.chunks_lt
  unfold Header.read Endian.load Layout.sparse Image.header
  simp [slice, drop_append, hdrop, hfile, hchunk, hblk, htotal]

/-- The context that `sparse_image_open` begins with. -/
def opened (L : Layout) : Ctx := ⟨L.fileHdrSz, 0, ⟨0, 0, 0⟩, 0, 0, [0, 0, 0, 0]⟩

section

variable (hlittle : m.order = .little) (image : Image L)
include hlittle

/-- Behind the header of the file the first chunk stands in front of us. -/
theorem Image.ready : Ready m L image.bytes image.behind (opened L) image.chunks where
  little := hlittle
  here := by
    have hle := L.le_fileHdrSz
    have hlen : (image.header ++ image.extra).length = L.fileHdrSz := by
      rw [length_append, image.header_length, image.extra_length]
      omega
    have hat : At image.bytes 0 (image.header ++ image.extra ++ rest L image.behind image.chunks) :=
      ⟨Nat.zero_le _, rfl⟩
    have hbehind := hat.behind
    rwa [Nat.zero_add, hlen] at hbehind
  count := by
    rw [← image.shape, length_map]
    exact Nat.zero_add _
  chunks := fun c hc => image.chunk_of hc

/-- Opening is the header and the first seek. -/
theorem Image.open_eq : sparseImageOpen m image.bytes
    = (sparseSeek m image.bytes L.sparse (opened L)).map fun x => (L.sparse, x.1) := by
  have hle := L.le_fileHdrSz
  have hready := (image.ready hlittle).here.le
  have htake : image.bytes.take sizeofHeader = image.header := by
    unfold Image.bytes
    rw [append_assoc, take_left' image.header_length]
  have hoff : skipHeader image.bytes L.sparse = .ok L.fileHdrSz := by
    unfold opened at hready
    unfold skipHeader Layout.sparse
    dsimp only at hready ⊢
    split
    next hlt => rw [lseek, if_neg (Nat.not_lt.mpr hready)]
    next hlt => rw [Nat.min_eq_left (by omega), Nat.le_antisymm hle (Nat.not_lt.mp hlt)]
  unfold sparseImageOpen
  dsimp only
  rw [htake, hlittle, image.read_header, hoff]
  show (sparseSeek m image.bytes L.sparse (opened L) >>= fun x => _) = _
  cases sparseSeek m image.bytes L.sparse (opened L) with
  | error e => rfl
  | ok x => rfl

/-- Read to its end, the image gives its expansion. -/
def Expands (m : Machine) (len : Nat) (image : Image L) : Prop :=
  ∃ n pieces, readAll m image.bytes len n = .ok pieces
    ∧ spread pieces = spread (expansion L.blkSz 0 image.chunks)

/-- The image gives what `delivered` says. -/
theorem Image.expands_iff (hlen : 0 < len) (hfour : 4 ∣ len)
    (hplain : Plain m len L true image.chunks) : Expands m len image ↔
      delivered m len L.blkSz true 0 image.chunks
        = some (spread (expansion L.blkSz 0 image.chunks)) := by
  have hopen := image.open_eq hlittle
  have hgives := openGives_delivered hlen hfour (image.ready hlittle) rfl hplain
  have hpos : (opened L).pos = 0 := rfl
  rw [hpos] at hgives
  unfold Expands readAll
  rcases hgives with ⟨si, found, hseek, hgives⟩ | ⟨⟨e, hseek⟩, hnone⟩
  · rw [hopen, hseek]
    cases hout : delivered m len L.blkSz true 0 image.chunks with
    | none =>
      rw [hout] at hgives
      constructor
      · intro ⟨n, pieces, hrun, _⟩
        exact absurd hrun (hgives n [] pieces)
      · exact nofun
    | some out =>
      rw [hout] at hgives
      obtain ⟨n, pieces, hspread, hrun⟩ := hgives
      have hrun := hrun []
      constructor
      · intro ⟨n', pieces', hrun', hspread'⟩
        rw [← hspread', loop_ok_unique hrun' hrun]
        exact congrArg some hspread.symm
      · intro heq
        exact ⟨n, pieces, hrun, hspread.trans (Option.some.inj heq)⟩
  · rw [hopen, hseek, hnone]
    constructor
    · intro ⟨n, pieces, hrun, _⟩
      nomatch hrun
    · exact nofun

end

/-- All bytes that are not part of the layout are zero. -/
def Image.zero (L : Layout) : Image L where
  minor := 0
  checksum := 0
  extra := replicate (L.fileHdrSz - sizeofHeader) 0
  chunks := L.chunks.map fun x =>
    { kind := x.1
      reserved := 0
      blocks := x.2
      extra := replicate (L.chunkHdrSz - sizeofChunkHeader) 0
      payload := replicate (x.1.payload L.blkSz x.2) 0 }
  behind := []
  extra_length := length_replicate
  shape := by
    rw [map_map]
    exact map_id _
  chunk_extra := by
    intro c hc
    obtain ⟨x, _, rfl⟩ := mem_map.mp hc
    exact length_replicate
  chunk_payload := by
    intro c hc
    obtain ⟨x, _, rfl⟩ := mem_map.mp hc
    exact length_replicate

theorem Image.zero_zeroSums : ZeroSums (Image.zero L).chunks := by
  intro c hc hkind
  obtain ⟨x, _, rfl⟩ := mem_map.mp hc
  dsimp only at hkind ⊢
  rw [hkind]
  rfl

/-- Every image of a layout is expanded faithfully if and only if its chunks
can be read to the end. -/
theorem sparse_expands_iff (m : Machine) (hlittle : m.order = .little) (len : Nat) (hlen : 0 < len)
    (hfour : 4 ∣ len) (L : Layout) :
    (∀ image : Image L, Expands m len image) ↔ Readable m len L.blkSz true L.chunks := by
  constructor
  · intro h
    have hof : ∀ c ∈ (Image.zero L).chunks, c.Of L := fun c hc => (Image.zero L).chunk_of hc
    have hout := ((Image.zero L).expands_iff hlittle hlen hfour (Or.inr Image.zero_zeroSums)).mp
      (h (Image.zero L))
    have hreadable := (readable_of_delivered hof hout).2 (spread_expansion_length 0 hof)
    rwa [shape, (Image.zero L).shape] at hreadable
  · intro h image
    have hreadable : Readable m len L.blkSz true (shape image.chunks) := by
      rwa [shape, image.shape]
    have hout := delivered_of_readable 0 (fun c hc => image.chunk_of hc) hreadable
    rw [Nat.zero_mul] at hout
    exact (image.expands_iff hlittle hlen hfour (Or.inl hreadable)).mpr hout

/-- Short headers and blocks of four bytes. -/
def smallLayout (chunks : List (Kind × Nat)) (hcount : chunks.length < 2 ^ 32)
    (hblocks : (chunks.map Prod.snd).sum < 2 ^ 32)
    (hchunks : ∀ c ∈ chunks, 12 + c.1.payload 4 c.2 < 2 ^ 32 ∧ (c.1 = .crc32 → c.2 = 0)) : Layout where
  fileHdrSz := 28
  chunkHdrSz := 12
  blkSz := 4
  chunks := chunks
  le_fileHdrSz := by decide
  fileHdrSz_lt := by decide
  le_chunkHdrSz := by decide
  chunkHdrSz_lt := by decide
  blkSz_pos := by decide
  blkSz_lt := by decide
  four_dvd_blkSz := by decide
  chunks_lt := hcount
  blocks_lt := hblocks
  size_lt := by omega
  totalSz_lt := fun c hc => (hchunks c hc).1
  crc32_blocks := fun c hc => (hchunks c hc).2

/-- A chunk without blocks, data, a hole, more data and a checksum at the end. -/
def mixedLayout : Layout :=
  smallLayout [(.raw, 0), (.raw, 2), (.dontCare, 3), (.fill, 1), (.crc32, 0)] (by decide) (by decide)
    (by decide)

theorem mixedLayout_expands :
    0 < 8 ∧ 4 ∣ 8 ∧ ∀ image : Image mixedLayout, Expands ⟨.bits32, .little⟩ 8 image :=
  ⟨by decide, by decide, (sparse_expands_iff ⟨.bits32, .little⟩ rfl 8 (by decide) (by decide) mixedLayout).mpr
    (by simp [mixedLayout, smallLayout, Readable, Machine.sizes, Long.bits, Kind.Reads])⟩

/-- A checksum that is not at the end. -/
def sumLayout : Layout :=
  smallLayout [(.crc32, 0), (.raw, 1)] (by decide) (by decide) (by decide)

/-- A chunk without blocks in the middle. -/
def emptyLayout : Layout :=
  smallLayout [(.raw, 1), (.fill, 0), (.raw, 1)] (by decide) (by decide) (by decide)

/-- The first of the images is not opened, and of the second the last block is
missing. On a big-endian machine no chunk is found. -/
theorem sum_empty_not_expanded : ¬ Expands ⟨.bits64, .little⟩ 4 (Image.zero sumLayout)
    ∧ ¬ Expands ⟨.bits64, .little⟩ 4 (Image.zero emptyLayout)
    ∧ ¬ Expands ⟨.bits64, .big⟩ 8 (Image.zero mixedLayout) := by
  refine ⟨fun h => ?_, fun h => ?_, ?_⟩
  · have hout := ((Image.zero sumLayout).expands_iff rfl (by decide) (by decide)
      (Or.inr Image.zero_zeroSums)).mp h
    exact absurd hout (by decide)
  · have hout := ((Image.zero emptyLayout).expands_iff rfl (by decide) (by decide)
      (Or.inr Image.zero_zeroSums)).mp h
    exact absurd hout (by decide)
  · rintro ⟨n, pieces, hread, -⟩
    have hopen : sparseImageOpen ⟨.bits64, .big⟩ (Image.zero mixedLayout).bytes = .error .EINVAL := by
      rfl
    cases hread

end Barebox.Sparse
