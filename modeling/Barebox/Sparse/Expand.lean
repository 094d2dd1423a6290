import Barebox.Sparse.Format

/-!
# Reading a sparse image to its end — `lib/image-sparse.c`

`delivered` says what the calls hand out for a row of chunks, and
`gives_delivered` that they do. Compared with the expansion of the image it
shows where the two differ:

* the payload of a crc32 chunk is not skipped, so that the next header is read
  from it, unless there is no next one;
* a chunk without blocks that is found in the middle of a read looks like the
  end. `sparse_image_open` alone goes past it;
* `remaining` is a `size_t` and the counts are `int`s.
-/

namespace Barebox.Sparse

open Lib List

variable {L : Layout} {m : Machine} {file behind : Bytes} {len : Nat} {sparse : Header} {si si' : Ctx}

/-! ## Seeking -/

theorem sparseSeek_end (h : si.processedChunks = sparse.totalChunks) :
    sparseSeek m file sparse si = .ok (si, false) := by
  unfold sparseSeek
  rw [loop, seekTurn, if_pos h]

section

variable (hlt : si.processedChunks < sparse.totalChunks)
include hlt

theorem sparseSeek_stop (h : seekChunk m file sparse si = .ok (si', true)) :
    sparseSeek m file sparse si = .ok (si', true) := by
  unfold sparseSeek
  rw [loop, seekTurn, if_neg (Nat.ne_of_lt hlt), h]

theorem sparseSeek_error {e : Errno}
    (h : seekChunk m file sparse si = .error e) : sparseSeek m file sparse si = .error e := by
  unfold sparseSeek
  rw [loop, seekTurn, if_neg (Nat.ne_of_lt hlt), h]

theorem sparseSeek_skip (h : seekChunk m file sparse si = .ok (si', false))
    (hcount : si'.processedChunks = si.processedChunks + 1) :
    sparseSeek m file sparse si = sparseSeek m file sparse si' := by
  have hturn : seekTurn m file sparse si = .next si' := by
    rw [seekTurn, if_neg (Nat.ne_of_lt hlt), h]
  have hfuel : sparse.totalChunks - si.processedChunks
      = sparse.totalChunks - si'.processedChunks + 1 := by omega
  unfold sparseSeek
  rw [loop_next hturn, hfuel]

end

/-! ## Reading on -/

/-- What is handed out from here on; `none` if a call fails. -/
def Gives (m : Machine) (file : Bytes) (sparse : Header) (len : Nat) (si : Ctx) :
    Option (List (UInt8 × Nat)) → Prop
  | some out => ∃ n pieces, spread pieces = out
    ∧ ∀ acc, loop (readTurn m file sparse len) .EFAULT n (si, acc) = .ok (acc ++ pieces)
  | none => ∀ n acc r, loop (readTurn m file sparse len) .EFAULT n (si, acc) ≠ .ok r

variable {out : Option (List (UInt8 × Nat))} {pos : Nat}

/-- What is given depends on the next call only. -/
theorem Gives.congr (h : sparseImageRead m file sparse len si = sparseImageRead m file sparse len si')
    (hgives : Gives m file sparse len si' out) : Gives m file sparse len si out := by
  have hloop : ∀ n acc, loop (readTurn m file sparse len) .EFAULT n (si, acc)
      = loop (readTurn m file sparse len) .EFAULT n (si', acc) := by
    intro n acc
    cases n with
    | zero => rfl
    | succ n =>
      rw [loop, loop, readTurn, readTurn, h]
  cases out with
  | none =>
    intro n acc r
    rw [hloop]
    exact hgives n acc r
  | some out =>
    obtain ⟨n, pieces, hspread, hrun⟩ := hgives
    refine ⟨n, pieces, hspread, fun acc => ?_⟩
    rw [hloop]
    exact hrun acc

theorem Gives.end (h : sparseImageRead m file sparse len si = .ok (si', none)) :
    Gives m file sparse len si (some []) := by
  refine ⟨1, [], rfl, fun acc => ?_⟩
  rw [loop, readTurn, h, append_nil]

theorem Gives.empty (h : sparseImageRead m file sparse len si = .ok (si', some (pos, []))) :
    Gives m file sparse len si (some []) := by
  refine ⟨1, [], rfl, fun acc => ?_⟩
  rw [loop, readTurn, h, append_nil]

theorem Gives.error {e : Errno} (h : sparseImageRead m file sparse len si = .error e) :
    Gives m file sparse len si none := by
  intro n acc r
  cases n with
  | zero => rintro ⟨⟩
  | succ n =>
    rw [loop, readTurn, h]
    rintro ⟨⟩

/-- A piece is followed by what the calls behind it give. -/
theorem Gives.piece {b : Bytes} (hb : b ≠ [])
    (h : sparseImageRead m file sparse len si = .ok (si', some (pos, b)))
    (hgives : Gives m file sparse len si' out) :
    Gives m file sparse len si (out.map (b.zipIdx pos ++ ·)) := by
  have hturn : ∀ acc, readTurn m file sparse len (si, acc) = .next (si', acc ++ [(pos, b)]) := by
    intro acc
    cases b with
    | nil => exact absurd rfl hb
    | cons x b => rw [readTurn, h]
  cases out with
  | none =>
    intro n acc r
    cases n with
    | zero => exact nofun
    | succ n =>
      rw [loop_next (hturn acc)]
      exact hgives n _ r
  | some out =>
    obtain ⟨n, pieces, hspread, hrun⟩ := hgives
    refine ⟨n + 1, (pos, b) :: pieces, ?_, fun acc => ?_⟩
    · rw [← hspread]
      rfl
    · rw [loop_next (hturn acc), hrun, append_assoc]
      rfl

/-! ## Inside of a chunk -/

/-- A piece of this length can be handed out. -/
def Kind.Reads : Kind → Nat → Prop
  | .raw, now => now < 2 ^ 31
  | _, now => now / 4 ≤ 2 ^ 31

instance : (k : Kind) → (now : Nat) → Decidable (k.Reads now)
  | .raw, now => inferInstanceAs (Decidable (now < 2 ^ 31))
  | .fill, now => inferInstanceAs (Decidable (now / 4 ≤ 2 ^ 31))
  | .dontCare, now => inferInstanceAs (Decidable (now / 4 ≤ 2 ^ 31))
  | .crc32, now => inferInstanceAs (Decidable (now / 4 ≤ 2 ^ 31))

theorem Kind.Reads.mono {k : Kind} {a b : Nat} (h : k.Reads b) (hle : a ≤ b) : k.Reads a := by
  have hdiv : a / 4 ≤ b / 4 := Nat.div_le_div_right hle
  cases k with
  | raw => exact Nat.lt_of_le_of_lt hle h
  | fill => exact Nat.le_trans hdiv h
  | dontCare => exact Nat.le_trans hdiv h
  | crc32 => exact Nat.le_trans hdiv h

/-- The file and the fill value are those of a chunk of which `left` is left. -/
def Source (L : Layout) (file behind : Bytes) (si : Ctx) (left : Bytes) (cs : List Chunk) : Kind → Prop
  | .raw => At file si.off (left ++ rest L behind cs)
  | .fill => At file si.off (rest L behind cs) ∧ 4 ∣ si.remaining ∧ si.fillVal.length = 4
    ∧ left = (replicate (si.remaining / 4) si.fillVal).flatten
  | _ => False

/-- Of a chunk, `left` is still to be handed out. -/
structure InChunk (m : Machine) (L : Layout) (file behind : Bytes) (si : Ctx) (kind : Kind) (left : Bytes)
    (cs : List Chunk) : Prop where
  little : m.order = .little
  chunkType : si.chunk.chunkType = kind.code
  source : Source L file behind si left cs kind
  remaining : left.length = si.remaining
  count : si.processedChunks + cs.length = L.chunks.length
  chunks : ∀ c ∈ cs, c.Of L

variable {kind : Kind} {left : Bytes} {cs : List Chunk}

theorem InChunk.ready (h : InChunk m L file behind si kind left cs) (hleft : left = []) :
    Ready m L file behind si cs where
  little := h.little
  here := by
    have hsource := h.source
    subst hleft
    cases kind with
    | raw => exact hsource
    | fill => exact hsource.1
    | dontCare => exact hsource.elim
    | crc32 => exact hsource.elim
  count := h.count
  chunks := h.chunks

theorem flatten_replicate_split {a n : Nat} (h : a ≤ n) (b : Bytes) : (replicate n b).flatten
      = (replicate a b).flatten ++ (replicate (n - a) b).flatten := by
  rw [← flatten_append, replicate_append_replicate, Nat.add_sub_cancel' h]

section

variable {now : Nat} (h : InChunk m L file behind si kind left cs) (hnow : now ≤ si.remaining)
  (hfour : 4 ∣ si.remaining → 4 ∣ now)
include h hnow hfour

/-- The next piece is taken off what is left. -/
theorem InChunk.readPiece (hreads : kind.Reads now) : ∃ off, readPiece file si now = .ok (left.take now, off)
      ∧ InChunk m L file behind
        { si with off := off, pos := si.pos + now, remaining := si.remaining - now } kind
        (left.drop now) cs := by
  have hsource := h.source
  have hlen := h.remaining
  have htake : (left.take now).length = now := length_take_of_le (by omega)
  have hdrop : (left.drop now).length = si.remaining - now := by rw [length_drop, hlen]
  unfold Sparse.readPiece
  rw [h.chunkType, Kind.ofCode_code]
  cases kind with
  | raw =>
    -- read from the file
    have hat : At file si.off (left.take now ++ (left.drop now ++ rest L behind cs)) := by
      rw [← append_assoc, take_append_drop]
      exact hsource
    have hbehind := hat.behind
    rw [htake] at hbehind
    refine ⟨si.off + now, ?_, ⟨h.little, h.chunkType, hbehind, hdrop, h.count, h.chunks⟩⟩
    rw [hat.readFull htake hreads, ok_bind]
    dsimp only
    rw [if_neg (by omega)]
    rfl
  | fill =>
    -- made of whole words, so what is left begins with one
    obtain ⟨hat, hdvd, hval, hleft⟩ := hsource
    have hnow4 := hfour hdvd
    have hcount : si.remaining / 4 - now / 4 = (si.remaining - now) / 4 := by omega
    have hsplit := flatten_replicate_split (Nat.div_le_div_right hnow : now / 4 ≤ si.remaining / 4)
      si.fillVal
    rw [← hleft, hcount] at hsplit
    have hfirst : (replicate (now / 4) si.fillVal).flatten.length = now := by
      rw [flatten_replicate_length, hval]
      omega
    refine ⟨si.off, ?_, h.little, h.chunkType, ⟨hat, Nat.dvd_sub hdvd hnow4, hval, ?_⟩, hdrop, h.count, h.chunks⟩
    · dsimp only
      rw [if_neg (by omega), if_neg (Nat.not_lt.mpr hreads), hsplit, take_left' hfirst]
    · rw [hsplit, drop_left' hfirst]
  | dontCare => exact hsource.elim
  | crc32 => exact hsource.elim

/-- A piece that is too large for an `int` is not read. -/
theorem InChunk.readPiece_error (hreads : ¬ kind.Reads now) :
    Sparse.readPiece file si now = .error .EFAULT := by
  have hsource := h.source
  have hlen := h.remaining
  unfold Sparse.readPiece
  rw [h.chunkType, Kind.ofCode_code]
  cases kind with
  | raw =>
    have hslice : (slice si.off now file).length = now := by
      have hfile := At.length hsource
      rw [length_append] at hfile
      exact slice_length (by omega)
    have hle : 2 ^ 31 ≤ now := Nat.not_lt.mp hreads
    unfold readFull
    dsimp only
    rw [hslice, if_pos hle]
    rfl
  | fill =>
    have hnow4 := hfour hsource.2.1
    rw [if_neg (by omega), if_pos (Nat.not_le.mp hreads)]
  | dontCare => exact hsource.elim
  | crc32 => exact hsource.elim

end

/-- Inside a chunk a call reads the lesser of what is left and what the caller has room for. -/
theorem sparseImageRead_inChunk (hpos : 0 < si.remaining) : sparseImageRead m file sparse len si = (do
      let (b, off) ← Sparse.readPiece file si (min si.remaining len)
      return ({ si with
          off := off
          pos := si.pos + min si.remaining len
          remaining := si.remaining - min si.remaining len }, some (si.pos, b))) := by
  unfold sparseImageRead
  rw [if_neg (Nat.ne_of_gt hpos)]
  rfl

theorem dvd_min {d a b : Nat} (hb : d ∣ b) (ha : d ∣ a) : d ∣ min a b := by
  rcases Nat.le_total a b with hle | hle
  · rwa [Nat.min_eq_left hle]
  · rwa [Nat.min_eq_right hle]

/-- The chunk is handed out piece by piece, and then what is behind it. -/
theorem InChunk.gives (hlen : 0 < len) (hfour : 4 ∣ len) :
    ∀ {si : Ctx} {left : Bytes}, InChunk m L file behind si kind left cs → left ≠ [] →
    kind.Reads (min left.length len) →
    (∀ si', Ready m L file behind si' cs → si'.remaining = 0 → si'.pos = si.pos + left.length →
      Gives m file L.sparse len si' out) →
    Gives m file L.sparse len si (out.map (left.zipIdx si.pos ++ ·)) := by
  intro si left
  -- the next piece is shorter, as long as there is one
  induction hn : left.length using Nat.strongRecOn generalizing si left with
  | ind n ih =>
    intro h hne hreads hrest
    subst hn
    have hrem := h.remaining
    have hleft : 0 < left.length := length_pos_iff.mpr hne
    rw [hrem] at hreads
    obtain ⟨off, hpiece, hin⟩ := h.readPiece (Nat.min_le_left _ _) (dvd_min hfour) hreads
    generalize hnow : min si.remaining len = now at *
    have hread : sparseImageRead m file L.sparse len si = _ := sparseImageRead_inChunk (by omega)
    rw [hnow, hpiece] at hread
    have htake : left.take now ≠ [] := by
      rw [← length_pos_iff, length_take]
      omega
    by_cases hend : left.drop now = []
    · have hall : left.length ≤ now := drop_eq_nil_iff.mp hend
      have hgives := hrest _ (hin.ready hend) (by dsimp only; omega) (by dsimp only; omega)
      have hpieces := Gives.piece htake hread hgives
      rwa [take_of_length_le hall] at hpieces
    · have hgives := ih (left.drop now).length (by rw [length_drop]; omega) rfl hin hend
        (hreads.mono (by rw [length_drop]; omega))
        fun si' hready hzero hpos => hrest si' hready hzero (by
          rw [hpos, length_drop]
          dsimp only
          omega)
      have hpieces := Gives.piece htake hread hgives
      rw [Option.map_map] at hpieces
      rw [zipIdx_split (by omega : now ≤ left.length)]
      simpa only [Function.comp_def, ← append_assoc] using hpieces

/-- The error comes with the first such piece. -/
theorem InChunk.gives_error (hfour : 4 ∣ len) (h : InChunk m L file behind si kind left cs)
    (hne : left ≠ []) (hreads : ¬ kind.Reads (min left.length len)) :
    Gives m file L.sparse len si none := by
  have hleft : 0 < left.length := length_pos_iff.mpr hne
  have hrem := h.remaining
  have hread : sparseImageRead m file L.sparse len si = _ := sparseImageRead_inChunk (by omega)
  rw [hrem] at hreads
  rw [h.readPiece_error (Nat.min_le_left _ _) (dvd_min hfour) hreads] at hread
  exact Gives.error hread

/-! ## A row of chunks -/

/-- The bytes of a chunk that are handed out: of a fill chunk, as many as
`remaining` counts. -/
def handed (m : Machine) (blkSz : Nat) (c : Chunk) : Bytes :=
  match c.kind with
  | .raw => c.payload
  | .fill => (replicate (blkSz * c.blocks % m.sizes / 4) c.payload).flatten
  | .dontCare => []
  | .crc32 => []

/-- What the calls hand out for chunks; `opening` is the first call of
`sparse_seek`. -/
def delivered (m : Machine) (len blkSz : Nat) : Bool → Nat → List Chunk → Option (List (UInt8 × Nat))
  | _, _, [] => some []
  | opening, pos, c :: cs =>
    match c.kind with
    | .dontCare => delivered m len blkSz opening (pos + blkSz * c.blocks) cs
    | .crc32 => if cs.isEmpty then some [] else none
    | kind =>
      if (handed m blkSz c).isEmpty then
        if opening then delivered m len blkSz false pos cs else some []
      else if kind.Reads (min (handed m blkSz c).length len) then
        (delivered m len blkSz false (pos + (handed m blkSz c).length) cs).map
          ((handed m blkSz c).zipIdx pos ++ ·)
      else none

/-- Kinds and blocks that can be read to the end: no checksum but as the last
chunk, and nothing behind a chunk without blocks that is found in a read. -/
def Readable (m : Machine) (len blkSz : Nat) : Bool → List (Kind × Nat) → Prop
  | _, [] => True
  | opening, (.dontCare, _) :: cs => Readable m len blkSz opening cs
  | _, (.crc32, _) :: cs => cs = []
  | opening, (kind, blocks) :: cs =>
    if blocks = 0 then
      if opening then Readable m len blkSz false cs else ∀ c ∈ cs, c.1.hasData → c.2 = 0
    else blkSz * blocks < m.sizes ∧ kind.Reads (min (blkSz * blocks) len)
      ∧ Readable m len blkSz false cs

def shape (cs : List Chunk) : List (Kind × Nat) := cs.map fun c => (c.kind, c.blocks)

theorem Machine.four_dvd_sizes : 4 ∣ m.sizes := by
  unfold sizes
  cases m.long <;> decide

theorem four_dvd_handed (L : Layout) (m : Machine) (c : Chunk) : 4 ∣ L.blkSz * c.blocks % m.sizes :=
  (Nat.dvd_mod_iff m.four_dvd_sizes).mpr (Nat.dvd_mul_right_of_dvd L.four_dvd_blkSz _)

section

variable {c : Chunk} (h : Ready m L file behind si (c :: cs))
include h

theorem Ready.lt : si.processedChunks < L.sparse.totalChunks := by
  have hcount := h.count
  rw [length_cons] at hcount
  unfold Layout.sparse
  dsimp only
  omega

theorem Ready.count_tail : si.processedChunks + 1 + cs.length = L.chunks.length := by
  have hcount := h.count
  rw [length_cons] at hcount
  omega

theorem Ready.chunks_tail : ∀ c' ∈ cs, c'.Of L := fun c' hc' => h.chunks c' (.tail _ hc')

/-- A chunk with data is found. -/
theorem Ready.seek_data (hdata : c.kind.hasData = true) :
    ∃ si', sparseSeek m file L.sparse si = .ok (si', true) ∧ si'.pos = si.pos
      ∧ InChunk m L file behind si' c.kind (handed m L.blkSz c) cs := by
  have hpayload := h.of.payload
  unfold handed
  rcases Kind.data_cases hdata with hkind | hkind
  · rw [hkind] at hpayload ⊢
    refine ⟨_, sparseSeek_stop h.lt (h.seek_raw hkind), rfl, ?_⟩
    exact ⟨h.little, congrArg Kind.code hkind, h.header.2, hpayload, h.count_tail, h.chunks_tail⟩
  · rw [hkind] at hpayload ⊢
    have hfour := four_dvd_handed L m c
    have hbehind := h.header.2.behind
    rw [hpayload] at hbehind
    refine ⟨_, sparseSeek_stop h.lt (h.seek_fill hkind), rfl, ?_⟩
    refine ⟨h.little, congrArg Kind.code hkind, ⟨hbehind, hfour, hpayload, rfl⟩, ?_, h.count_tail, h.chunks_tail⟩
    rw [flatten_replicate_length, hpayload]
    exact Nat.div_mul_cancel hfour

/-- A hole is skipped. -/
theorem Ready.skip_dontCare (hkind : c.kind = .dontCare) :
    ∃ si', sparseSeek m file L.sparse si = sparseSeek m file L.sparse si'
      ∧ si'.pos = si.pos + L.blkSz * c.blocks ∧ si'.remaining = si.remaining
      ∧ Ready m L file behind si' cs := by
  have hpayload : c.payload = [] := by
    rw [← length_eq_zero_iff, h.of.payload, hkind]
    rfl
  have hhere := h.header.2
  rw [hpayload] at hhere
  exact ⟨_, sparseSeek_skip h.lt (h.seek_dontCare hkind) rfl, rfl, rfl,
    h.little, hhere, h.count_tail, h.chunks_tail⟩

/-- Behind the last chunk there is nothing to be found, now and later. -/
theorem Ready.skip_crc32 (hkind : c.kind = .crc32) (hcs : cs = []) :
    ∃ si', sparseSeek m file L.sparse si = .ok (si', false) ∧ si'.remaining = si.remaining
      ∧ sparseSeek m file L.sparse si' = .ok (si', false) := by
  have hcount := h.count_tail
  rw [hcs] at hcount
  have hend : sparseSeek m file L.sparse (entered L c si) = .ok (entered L c si, false) :=
    sparseSeek_end hcount
  refine ⟨entered L c si, ?_, rfl, hend⟩
  rw [sparseSeek_skip h.lt (h.seek_crc32 hkind) rfl, hend]

/-- The sum is taken for a header. -/
theorem Ready.misread (hkind : c.kind = .crc32) (hzero : c.payload = [0, 0, 0, 0]) (hcs : cs ≠ []) :
    sparseSeek m file L.sparse si = .error .EINVAL := by
  have hhere := h.header.2
  have hle := L.le_chunkHdrSz
  have hcount := h.count_tail
  cases cs with
  | nil => exact absurd rfl hcs
  | cons c' cs' =>
    rw [length_cons] at hcount
    have hlong : L.chunkHdrSz ≤ (rest L behind (c' :: cs')).length := by
      unfold rest
      rw [flatMap_cons, Chunk.bytes]
      simp only [length_append, Chunk.header_length]
      have hextra := (h.chunks_tail c' (.head _)).extra
      omega
    generalize rest L behind (c' :: cs') = b at *
    -- the four zeroes and eight bytes of the next chunk
    rw [hzero] at hhere
    generalize hfull : [0, 0, 0, 0] ++ b = full at hhere
    have hlen : full.length = 4 + b.length := by rw [← hfull]; simp; omega
    rw [← take_append_drop sizeofChunkHeader full,
      ← take_append_drop (L.chunkHdrSz - sizeofChunkHeader) (full.drop _)] at hhere
    obtain ⟨hread, -⟩ := readChunkHeader_eq (m := m) L.sparse hhere
      (by rw [length_take]; omega)
      (by rw [length_take, length_drop]; unfold Layout.sparse; dsimp only; omega) hle
    have htype : (ChunkHeader.read m.order (full.take sizeofChunkHeader)).chunkType = 0 := by
      rw [← hfull, h.little]
      rfl
    have herror : seekChunk m file L.sparse (entered L c si) = .error .EINVAL := by
      unfold seekChunk
      rw [entered, hread, ok_bind]
      dsimp only
      rw [htype]
      rfl
    have hlt : (entered L c si).processedChunks < L.sparse.totalChunks := by
      unfold entered Layout.sparse
      dsimp only
      omega
    rw [sparseSeek_skip h.lt (h.seek_crc32 hkind) rfl]
    exact sparseSeek_error hlt herror

end

section

variable (h : si.remaining = 0)
include h

/-- With nothing left of a chunk, a read is as the seek is. -/
theorem sparseImageRead_seek
    (h' : si'.remaining = 0) (hseek : sparseSeek m file sparse si = sparseSeek m file sparse si') :
    sparseImageRead m file sparse len si = sparseImageRead m file sparse len si' := by
  unfold sparseImageRead
  rw [if_pos h, if_pos h', hseek]

theorem sparseImageRead_end (hseek : sparseSeek m file sparse si = .ok (si', false)) :
    sparseImageRead m file sparse len si = .ok (si', none) := by
  unfold sparseImageRead
  rw [if_pos h, hseek]
  rfl

theorem sparseImageRead_error {e : Errno} (hseek : sparseSeek m file sparse si = .error e) :
    sparseImageRead m file sparse len si = .error e := by
  unfold sparseImageRead
  rw [if_pos h, hseek]
  rfl

/-- A chunk that is found is read as if it had been found before. -/
theorem sparseImageRead_found
    (hseek : sparseSeek m file sparse si = .ok (si', true)) (hpos : 0 < si'.remaining) :
    sparseImageRead m file sparse len si = sparseImageRead m file sparse len si' := by
  rw [sparseImageRead_inChunk hpos]
  unfold sparseImageRead
  rw [if_pos h, hseek]
  rfl

end

/-- An empty one gives no bytes. -/
theorem InChunk.read_empty (len : Nat) (h : si.remaining = 0)
    (hseek : sparseSeek m file L.sparse si = .ok (si', true))
    (hin : InChunk m L file behind si' kind [] cs) :
    ∃ si'', sparseImageRead m file L.sparse len si = .ok (si'', some (si'.pos, [])) := by
  have hrem : si'.remaining = 0 := hin.remaining.symm
  have hreads : kind.Reads 0 := by cases kind <;> decide
  obtain ⟨off, hpiece, -⟩ := hin.readPiece (Nat.zero_le _) (fun _ => Nat.dvd_zero 4) hreads
  unfold sparseImageRead
  rw [if_pos h, hseek, ok_bind]
  dsimp only
  rw [hrem, Nat.zero_min, hpiece]
  exact ⟨_, rfl⟩

/-- Every sum that would be taken for a header is zero. -/
def ZeroSums (cs : List Chunk) : Prop := ∀ c ∈ cs, c.kind = .crc32 → c.payload = [0, 0, 0, 0]

/-- The sums do not matter, or are zero. -/
def Plain (m : Machine) (len : Nat) (L : Layout) (opening : Bool) (cs : List Chunk) : Prop :=
  Readable m len L.blkSz opening (shape cs) ∨ ZeroSums cs

variable {c : Chunk} {opening : Bool}

/-- A chunk with data: an empty one ends the reading unless the image is just being opened; the
bytes of another come, if they can be read. -/
theorem delivered_data (hdata : c.kind.hasData = true) : delivered m len L.blkSz opening pos (c :: cs)
      = if (handed m L.blkSz c).isEmpty then
          if opening then delivered m len L.blkSz false pos cs else some []
        else if c.kind.Reads (min (handed m L.blkSz c).length len) then
          (delivered m len L.blkSz false (pos + (handed m L.blkSz c).length) cs).map
            ((handed m L.blkSz c).zipIdx pos ++ ·)
        else none := by
  rw [delivered]
  rcases Kind.data_cases hdata with hkind | hkind
  all_goals rw [hkind]

theorem delivered_dontCare (hkind : c.kind = .dontCare) : delivered m len L.blkSz opening pos (c :: cs)
      = delivered m len L.blkSz opening (pos + L.blkSz * c.blocks) cs := by
  rw [delivered, hkind]

theorem delivered_crc32 (hkind : c.kind = .crc32) :
    delivered m len L.blkSz opening pos (c :: cs) = if cs.isEmpty then some [] else none := by
  rw [delivered, hkind]

/-- The same three cases for the condition on the layout. -/
theorem readable_data (hdata : c.kind.hasData = true) : Readable m len L.blkSz opening (shape (c :: cs))
      = if c.blocks = 0 then
          if opening then Readable m len L.blkSz false (shape cs)
          else ∀ x ∈ shape cs, x.1.hasData → x.2 = 0
        else L.blkSz * c.blocks < m.sizes ∧ c.kind.Reads (min (L.blkSz * c.blocks) len)
          ∧ Readable m len L.blkSz false (shape cs) := by
  show Readable m len L.blkSz opening ((c.kind, c.blocks) :: shape cs) = _
  rcases Kind.data_cases hdata with hkind | hkind
  all_goals
    rw [hkind]
    rfl

theorem readable_dontCare (hkind : c.kind = .dontCare) :
    Readable m len L.blkSz opening (shape (c :: cs))
      = Readable m len L.blkSz opening (shape cs) := by
  show Readable m len L.blkSz opening ((c.kind, c.blocks) :: shape cs) = _
  rw [hkind]
  rfl

theorem readable_crc32 (hkind : c.kind = .crc32) :
    Readable m len L.blkSz opening (shape (c :: cs)) ↔ cs = [] := by
  show Readable m len L.blkSz opening ((c.kind, c.blocks) :: shape cs) ↔ _
  rw [hkind]
  exact map_eq_nil_iff

theorem Machine.le_sizes (m : Machine) : 2 ^ 32 ≤ m.sizes := by
  unfold sizes
  cases m.long <;> decide

/-- What is handed out is the size of the chunk as a `size_t`. -/
theorem Chunk.Of.handed_length (h : c.Of L) (hdata : c.kind.hasData = true) :
    (handed m L.blkSz c).length = L.blkSz * c.blocks % m.sizes := by
  have hpayload := h.payload
  have htotal := h.total_lt
  have hsizes := m.le_sizes
  unfold handed
  rcases Kind.data_cases hdata with hkind | hkind
  · rw [hkind] at hpayload ⊢
    rw [hpayload]
    exact (Nat.mod_eq_of_lt (by omega : Kind.payload L.blkSz c.blocks .raw < m.sizes)).symm
  · have hfour := four_dvd_handed L m c
    rw [hkind] at hpayload ⊢
    rw [flatten_replicate_length, hpayload]
    exact Nat.div_mul_cancel hfour

theorem Chunk.Of.handed_eq_nil (h : c.Of L) (hdata : c.kind.hasData = true) (hblocks : c.blocks = 0) :
    handed m L.blkSz c = [] := by
  rw [← length_eq_zero_iff, h.handed_length hdata, hblocks, Nat.mul_zero, Nat.zero_mod]

theorem ZeroSums.tail (h : ZeroSums (c :: cs)) : ZeroSums cs := fun c' hc' => h c' (.tail _ hc')

theorem Plain.tail_dontCare (h : Plain m len L opening (c :: cs)) (hkind : c.kind = .dontCare) :
    Plain m len L opening cs := by
  unfold Plain at h
  rw [readable_dontCare hkind] at h
  exact h.imp_right ZeroSums.tail

/-- Behind a chunk that is read, or is empty and found by `sparse_image_open`. -/
theorem Plain.tail_data (h : Plain m len L opening (c :: cs)) (hof : c.Of L)
    (hdata : c.kind.hasData = true) (hopen : handed m L.blkSz c = [] → opening = true) :
    Plain m len L false cs := by
  refine h.imp (fun hreadable => ?_) ZeroSums.tail
  rw [readable_data hdata] at hreadable
  by_cases hblocks : c.blocks = 0
  · rw [if_pos hblocks, if_pos (hopen (hof.handed_eq_nil hdata hblocks))] at hreadable
    exact hreadable
  · rw [if_neg hblocks] at hreadable
    exact hreadable.2.2

/-- From a chunk that was found on, if what is behind it is handed out as well. -/
theorem gives_chunk (hlen : 0 < len) (hfour : 4 ∣ len)
    (ih : ∀ {si : Ctx}, Ready m L file behind si cs → si.remaining = 0 → Plain m len L false cs →
      Gives m file L.sparse len si (delivered m len L.blkSz false si.pos cs))
    (hin : InChunk m L file behind si c.kind (handed m L.blkSz c) cs)
    (hnil : handed m L.blkSz c ≠ []) (hplain : Plain m len L false cs) : Gives m file L.sparse len si
      (if c.kind.Reads (min (handed m L.blkSz c).length len) then
        (delivered m len L.blkSz false (si.pos + (handed m L.blkSz c).length) cs).map
          ((handed m L.blkSz c).zipIdx si.pos ++ ·)
      else none) := by
  split
  next hreads =>
    refine hin.gives hlen hfour hnil hreads fun si' hready hrem hpos => ?_
    rw [← hpos]
    exact ih hready hrem hplain
  next hreads => exact hin.gives_error hfour hnil hreads

/-- The calls hand out what `delivered` says. -/
theorem gives_delivered (hlen : 0 < len) (hfour : 4 ∣ len)
    (h : Ready m L file behind si cs) (hrem : si.remaining = 0) (hplain : Plain m len L false cs) :
    Gives m file L.sparse len si (delivered m len L.blkSz false si.pos cs) := by
  induction cs generalizing si with
  | nil => exact Gives.end (sparseImageRead_end hrem (sparseSeek_end h.count))
  | cons c cs ih =>
    by_cases hdata : c.kind.hasData = true
    · rw [delivered_data hdata]
      obtain ⟨si', hseek, hpos, hin⟩ := h.seek_data hdata
      by_cases hnil : handed m L.blkSz c = []
      · -- this looks like the end
        rw [hnil] at hin ⊢
        obtain ⟨si'', hread⟩ := hin.read_empty len hrem hseek
        exact Gives.empty hread
      · have hgives := gives_chunk hlen hfour ih hin hnil
          (hplain.tail_data h.of hdata fun hn => absurd hn hnil)
        have hrem' : 0 < si'.remaining := by
          rw [← hin.remaining]
          exact length_pos_iff.mpr hnil
        rw [if_neg (by rwa [List.isEmpty_iff]), ← hpos]
        exact Gives.congr (sparseImageRead_found hrem hseek hrem') hgives
    · rcases Kind.other_cases hdata with hkind | hkind
      · obtain ⟨si', hseek, hpos, hrem', hready⟩ := h.skip_dontCare hkind
        rw [hrem] at hrem'
        have hgives := ih hready hrem' (hplain.tail_dontCare hkind)
        rw [delivered_dontCare hkind, ← hpos]
        exact Gives.congr (sparseImageRead_seek hrem hrem' hseek) hgives
      · rw [delivered_crc32 hkind]
        by_cases hcs : cs = []
        · obtain ⟨si', hseek, -, -⟩ := h.skip_crc32 hkind hcs
          rw [if_pos (by rwa [List.isEmpty_iff])]
          exact Gives.end (sparseImageRead_end hrem hseek)
        · have hzero := (hplain.resolve_left fun hr => hcs ((readable_crc32 hkind).mp hr)) c (.head _) hkind
          rw [if_neg (by rwa [List.isEmpty_iff])]
          exact Gives.error (sparseImageRead_error hrem (h.misread hkind hzero hcs))

/-- What is handed out after `sparse_image_open`. -/
def OpenGives (m : Machine) (file : Bytes) (sparse : Header) (len : Nat) (si : Ctx)
    (out : Option (List (UInt8 × Nat))) : Prop :=
  (∃ si' found, sparseSeek m file sparse si = .ok (si', found) ∧ Gives m file sparse len si' out)
    ∨ (∃ e, sparseSeek m file sparse si = .error e) ∧ out = none

/-- `sparse_image_open` goes to the first chunk with data, so an empty one is passed there. -/
theorem openGives_delivered (hlen : 0 < len) (hfour : 4 ∣ len)
    (h : Ready m L file behind si cs) (hrem : si.remaining = 0) (hplain : Plain m len L true cs) :
    OpenGives m file L.sparse len si (delivered m len L.blkSz true si.pos cs) := by
  induction cs generalizing si with
  | nil =>
    have hseek : sparseSeek m file L.sparse si = .ok (si, false) := sparseSeek_end h.count
    exact Or.inl ⟨si, false, hseek, Gives.end (sparseImageRead_end hrem hseek)⟩
  | cons c cs ih =>
    by_cases hdata : c.kind.hasData = true
    · rw [delivered_data hdata]
      obtain ⟨si', hseek, hpos, hin⟩ := h.seek_data hdata
      have htail := hplain.tail_data h.of hdata fun _ => rfl
      refine Or.inl ⟨si', true, hseek, ?_⟩
      rw [← hpos]
      by_cases hnil : handed m L.blkSz c = []
      · -- the first read goes on from here
        rw [if_pos (by rwa [List.isEmpty_iff])]
        refine gives_delivered hlen hfour (hin.ready hnil) ?_ htail
        rw [← hin.remaining, hnil]
        rfl
      · rw [if_neg (by rwa [List.isEmpty_iff])]
        exact gives_chunk hlen hfour (gives_delivered hlen hfour) hin hnil htail
    · rcases Kind.other_cases hdata with hkind | hkind
      · -- a gap is skipped
        obtain ⟨si', hseek, hpos, hrem', hready⟩ := h.skip_dontCare hkind
        rw [hrem] at hrem'
        have hgives := ih hready hrem' (hplain.tail_dontCare hkind)
        rw [delivered_dontCare hkind, ← hpos]
        unfold OpenGives at hgives ⊢
        rwa [hseek]
      · rw [delivered_crc32 hkind]
        by_cases hcs : cs = []
        · -- the last chunk is a checksum
          obtain ⟨si', hseek, hrem', hend⟩ := h.skip_crc32 hkind hcs
          rw [hrem] at hrem'
          rw [if_pos (by rwa [List.isEmpty_iff])]
          exact Or.inl ⟨si', false, hseek, Gives.end (sparseImageRead_end hrem' hend)⟩
        · have hzero := (hplain.resolve_left fun hr => hcs ((readable_crc32 hkind).mp hr)) c (.head _) hkind
          rw [if_neg (by rwa [List.isEmpty_iff])]
          exact Or.inr ⟨⟨_, h.misread hkind hzero hcs⟩, rfl⟩

end Barebox.Sparse
