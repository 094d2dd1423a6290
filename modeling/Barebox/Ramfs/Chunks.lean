import Barebox.Ramfs.Model

/-!
# Chunks that tile a file

Chunks one behind the other stand for the concatenation of their data (`flat`).
The search finds the chunk that a position is in, from wherever it begins
(`findChunk_spec`); reading and writing chunk by chunk is reading and writing the
concatenation (`readLoop_spec`, `writeLoop_spec`).
-/

namespace Barebox.Ramfs

open Lib List

variable {l : Long}
variable {n size : Nat} {chunks : List Chunk}

/-! ## Numbers that fit -/

/-- An `int` that fits is itself. -/
theorem toInt_of_lt (h : n < 2 ^ 31) : toInt n = n := by
  unfold toInt Int.bmod
  dsimp only
  split
  all_goals omega

/-- So is an `unsigned long`. -/
theorem toUlong_of_lt (h : n < 2 ^ l.bits) : toUlong l n = n := by
  have hcast : ((n : Int) % 2 ^ l.bits) = ((n % 2 ^ l.bits : Nat) : Int) := by
    rfl
  unfold toUlong
  rw [hcast, Int.toNat_natCast, Nat.mod_eq_of_lt h]

/-- An `int` that is not negative is below 2 GiB, and no more than what was put into it. -/
theorem toInt_le (h : toInt size = n) : n ≤ size ∧ n < 2 ^ 31 := by
  unfold toInt Int.bmod at h
  dsimp only at h
  split at h
  all_goals omega

/-! ## Chunks -/

/-- The bytes of a chunk, as many as its size says. -/
def Chunk.bytes (c : Chunk) : Bytes := c.data.take c.size.toNat

/-- The bytes of all chunks. -/
def flat (chunks : List Chunk) : Bytes := chunks.flatMap Chunk.bytes

/-- The chunks begin at `base`, without gap or overlap. Each has the bytes that its size says,
and all are inside of what an `unsigned long` can count. -/
def Tiled (l : Long) : Nat → List Chunk → Prop
  | _, [] => True
  | base, c :: cs => (c.ofs = base ∧ c.size = c.bytes.length ∧ c.bytes.length < 2 ^ 31
      ∧ base + c.bytes.length < 2 ^ l.bits) ∧ Tiled l (base + c.bytes.length) cs

theorem flat_append (xs ys : List Chunk) : flat (xs ++ ys) = flat xs ++ flat ys := flatMap_append

theorem flat_cons (c : Chunk) (cs : List Chunk) : flat (c :: cs) = c.bytes ++ flat cs := flatMap_cons

/-- Chunks that tile, and more that tile what is behind them. -/
theorem tiled_append (xs ys : List Chunk) : ∀ (base : Nat),
    Tiled l base (xs ++ ys) ↔ Tiled l base xs ∧ Tiled l (base + (flat xs).length) ys := by
  induction xs with
  | nil =>
    intro base
    exact (and_iff_right trivial).symm
  | cons c xs ih =>
    intro base
    rw [cons_append, Tiled, ih, flat_cons, length_append, Nat.add_assoc, Tiled]
    exact and_assoc.symm

/-- The end of the last chunk is a number that fits, if there is a chunk. -/
theorem Tiled.fits (cs : List Chunk) : ∀ {base : Nat}, Tiled l base cs → base < 2 ^ l.bits →
    base + (flat cs).length < 2 ^ l.bits := by
  induction cs with
  | nil =>
    intro base _ hbase
    exact hbase
  | cons c cs ih =>
    intro base htiled _
    rw [flat_cons, length_append, ← Nat.add_assoc]
    exact ih htiled.2 htiled.1.2.2.2

/-- The chunk that a position is in. -/
structure Found (l : Long) (chunks : List Chunk) (pos : Nat) (pre : List Chunk) (c : Chunk)
    (post : List Chunk) : Prop where
  split : chunks = pre ++ c :: post
  ofs : c.ofs = (flat pre).length
  size : c.size = c.bytes.length
  small : c.bytes.length < 2 ^ 31
  le : c.ofs ≤ pos
  lt : pos < c.ofs + c.bytes.length

/-- The search finds the chunk that the position is in, among those it looks at. -/
theorem search_spec (pos : Nat) (cs : List Chunk) : ∀ (i base : Nat), Tiled l base cs → base ≤ pos →
    pos < base + (flat cs).length →
    ∃ pre c post, cs = pre ++ c :: post ∧ search l pos i cs = some (i + pre.length, c)
      ∧ c.ofs = base + (flat pre).length ∧ c.size = c.bytes.length ∧ c.bytes.length < 2 ^ 31
      ∧ c.ofs ≤ pos ∧ pos < c.ofs + c.bytes.length := by
  induction cs with
  | nil =>
    intro i base _ hle hlt
    exact absurd hlt (Nat.not_lt_of_le hle)
  | cons c cs ih =>
    intro i base ⟨⟨hofs, hsize, hsmall, hfits⟩, htiled⟩ hle hlt
    have hend : toUlong l (c.ofs + c.size) = base + c.bytes.length := by
      rw [hsize, hofs, ← Int.natCast_add, toUlong_of_lt hfits]
    rw [search, hend]
    split
    next hin => exact ⟨[], c, cs, rfl, rfl, hofs, hsize, hsmall, by omega, by omega⟩
    next hout =>
    rw [flat_cons, length_append] at hlt
    obtain ⟨pre, d, post, hcs, hsearch, hd, hrest⟩ := ih (i + 1) (base + c.bytes.length) htiled (by omega)
      (by omega)
    refine ⟨c :: pre, d, post, by rw [hcs]; rfl, ?_, ?_, hrest⟩
    · rw [hsearch, length_cons, Nat.add_right_comm, Nat.add_assoc]
    · rw [hd, flat_cons, length_append, Nat.add_assoc]

/-- The search begins at or before the position. -/
theorem searchFrom_le (node : Inode) (pos : Nat) (htiled : Tiled l 0 node.chunks) :
    searchFrom node pos ≤ node.chunks.length
      ∧ (flat (node.chunks.take (searchFrom node pos))).length ≤ pos := by
  unfold searchFrom
  split
  next i hi =>
    split
    next cur hcur =>
      split
      next hle =>
        obtain ⟨hlt, hget⟩ := List.getElem?_eq_some_iff.mp hcur
        have hsplit : node.chunks = node.chunks.take i ++ cur :: node.chunks.drop (i + 1) := by
          rw [← hget, ← drop_eq_getElem_cons hlt, take_append_drop]
        rw [hsplit, tiled_append] at htiled
        have hofs := htiled.2.1.1
        exact ⟨Nat.le_of_lt hlt, by omega⟩
      next => exact ⟨Nat.zero_le _, Nat.zero_le _⟩
    next => exact ⟨Nat.zero_le _, Nat.zero_le _⟩
  next => exact ⟨Nat.zero_le _, Nat.zero_le _⟩

/-- `ramfs_find_chunk` finds the chunk of a position that is allocated, wherever
`current_chunk` is. -/
theorem findChunk_spec (node : Inode) (pos : Nat) (htiled : Tiled l 0 node.chunks)
    (hpos : pos < (flat node.chunks).length) :
    ∃ pre c post, Found l node.chunks pos pre c post ∧ findChunk l node pos = some (pre.length, c) := by
  obtain ⟨hle, hbefore⟩ := searchFrom_le node pos htiled
  unfold findChunk
  generalize searchFrom node pos = s at hle hbefore
  have hsplit := take_append_drop s node.chunks
  have hlen : (flat (node.chunks.take s ++ node.chunks.drop s)).length = _ :=
    congrArg (fun cs => (flat cs).length) hsplit
  rw [flat_append, length_append] at hlen
  rw [← hsplit, tiled_append, Nat.zero_add] at htiled
  obtain ⟨pre, c, post, hdrop, hsearch, hofs, hsize, hsmall, hrest⟩ :=
    search_spec pos _ s _ htiled.2 hbefore (by omega)
  refine ⟨node.chunks.take s ++ pre, c, post, ⟨?_, ?_, hsize, hsmall, hrest.1, hrest.2⟩, ?_⟩
  · rw [append_assoc, ← hdrop, hsplit]
  · rw [hofs, flat_append, length_append]
  · rw [hsearch, length_append, length_take, Nat.min_eq_left hle]

variable {c : Chunk} {pos : Nat} {post pre : List Chunk}

theorem Found.flat_eq
    (h : Found l chunks pos pre c post) : flat chunks = flat pre ++ c.bytes ++ flat post := by
  rw [h.split, flat_append, flat_cons, append_assoc]

/-- The `memcpy` of a turn is inside of the chunk, and as long as that goes on. -/
theorem Found.piece (h : Found l chunks pos pre c post) :
    piece c pos size = some (pos - c.ofs, min size (c.ofs + c.bytes.length - pos)) := by
  obtain ⟨-, -, hsize, hsmall, hle, hlt⟩ := h
  have hbytes : c.bytes.length ≤ c.data.length := length_take_le' _ _
  have hofs : toInt (pos - c.ofs) = ((pos - c.ofs : Nat) : Int) := by
    rw [← Int.natCast_sub hle]
    exact toInt_of_lt (by omega)
  have hlen : toInt (c.ofs + c.size - pos) = ((c.ofs + c.bytes.length - pos : Nat) : Int) := by
    rw [hsize, ← Int.natCast_add, ← Int.natCast_sub (Nat.le_of_lt hlt)]
    exact toInt_of_lt (by omega)
  unfold Ramfs.piece
  dsimp only
  rw [hofs, hlen, ← Nat.cast_min, if_pos (by omega), Int.toNat_natCast, Int.toNat_natCast]

/-- `current_chunk` is one of the chunks. -/
def Current (node : Inode) : Prop := ∀ i, node.currentChunk = some i → i < node.chunks.length

theorem Found.current {node : Inode} {pre post : List Chunk} {c : Chunk} {pos : Nat}
    (h : Found l node.chunks pos pre c post) : pre.length < node.chunks.length := by
  rw [h.split, length_append, length_cons]
  omega

/-! ## Reading -/

/-- Inside of a chunk. -/
theorem Found.slice {now : Nat}
    (h : Found l chunks pos pre c post) (hnow : now ≤ c.ofs + c.bytes.length - pos) :
    slice pos now (flat chunks) = Lib.slice (pos - c.ofs) now c.data := by
  have hsize := h.size
  have hle := h.le
  have hlt := h.lt
  have hofs := h.ofs
  rw [h.flat_eq, slice_append_left _ (by rw [length_append]; omega), slice_append_right _ (by omega),
    ← hofs, Chunk.bytes, slice_take _ (by omega)]

/-- The loop of `ramfs_read` gives the bytes that are asked for, if all are allocated. -/
theorem readLoop_spec (fuel : Nat) : ∀ (node : Inode) (pos size : Nat) (buf : Bytes), Tiled l 0 node.chunks →
    Current node → pos + size ≤ (flat node.chunks).length → size ≤ fuel →
    ∃ cur, readLoop l fuel node pos size buf
        = ({ node with currentChunk := cur }, some (.ok (buf ++ slice pos size (flat node.chunks))))
      ∧ Current { node with currentChunk := cur } := by
  have hdone : ∀ (node : Inode) (pos : Nat) (buf : Bytes), buf = buf ++ slice pos 0 (flat node.chunks) :=
    fun _ _ buf => (append_nil buf).symm
  induction fuel with
  | zero =>
    intro node pos size buf _ hcur _ hfuel
    rw [Nat.le_zero.mp hfuel, ← hdone]
    exact ⟨node.currentChunk, rfl, hcur⟩
  | succ fuel ih =>
    intro node pos size buf htiled hcur hin hfuel
    rw [readLoop]
    split
    next hz =>
      rw [hz, ← hdone]
      exact ⟨node.currentChunk, rfl, hcur⟩
    next hnz =>
    obtain ⟨pre, c, post, hfound, hfind⟩ := findChunk_spec node pos htiled (by omega)
    have hlt := hfound.lt
    have hfits := Tiled.fits _ htiled (Nat.two_pow_pos _)
    rw [hfind]
    dsimp only
    rw [hfound.piece]
    dsimp only
    generalize hnow : min size (c.ofs + c.bytes.length - pos) = now
    rw [← Int.natCast_add, toUlong_of_lt (by omega)]
    have hcur' : Current { node with currentChunk := some pre.length } := by
      intro i hi
      rw [← Option.some.inj hi]
      exact hfound.current
    obtain ⟨cur, hloop, hcur''⟩ := ih { node with currentChunk := some pre.length } (pos + now) (size - now)
      (buf ++ slice (pos - c.ofs) now c.data) htiled hcur' (by dsimp only; omega) (by omega)
    refine ⟨cur, ?_, hcur''⟩
    rw [hloop, ← hfound.slice (by omega), append_assoc]
    rw [← slice_add, show now + (size - now) = size by omega]

/-- The `int` of a read that is not too long is its size. -/
theorem ramfsRead_eq (node : Inode) (pos : Nat) (h : size < 2 ^ 31) :
    ramfsRead l node pos size = readLoop l size node pos size [] := by
  unfold ramfsRead
  rw [toInt_of_lt h]
  rw [if_pos (Int.natCast_nonneg _), Int.toNat_natCast]

/-! ## Writing -/

section

variable {node : Inode} {buf : Bytes} (h : Found l node.chunks pos pre c post)
  (hbuf : buf.length ≤ c.ofs + c.bytes.length - pos)
include h

theorem Found.put_chunks : (node.put pre.length c (pos - c.ofs) buf).chunks
    = pre ++ { c with data := overwrite (pos - c.ofs) buf c.data } :: post := by
  unfold Inode.put
  rw [h.split, set_append_right _ _ (Nat.le_refl _), Nat.sub_self, set_cons_zero]

theorem Found.put_current : Current (node.put pre.length c (pos - c.ofs) buf) := by
  intro i hi
  rw [← Option.some.inj hi, h.put_chunks, length_append, length_cons]
  omega

include hbuf

theorem Found.put_bytes : ({ c with data := overwrite (pos - c.ofs) buf c.data } : Chunk).bytes
    = overwrite (pos - c.ofs) buf c.bytes := by
  have hle := h.le
  have hlt := h.lt
  have hsize := h.size
  have hbytes : c.bytes.length = min c.size.toNat c.data.length := length_take
  have hend : pos - c.ofs + buf.length ≤ c.size.toNat := by omega
  have hdata : c.size.toNat ≤ c.data.length := by omega
  exact take_overwrite_of_le hend hdata

/-- What is written into the chunk is written into the file. -/
theorem Found.put_flat : flat (node.put pre.length c (pos - c.ofs) buf).chunks
    = overwrite pos buf (flat node.chunks) := by
  have hle := h.le
  have hlt := h.lt
  have hofs := h.ofs
  rw [h.put_chunks, h.flat_eq, overwrite_mid (by omega) (by omega), flat_append, flat_cons, ← hofs,
    append_assoc, h.put_bytes hbuf]

/-- It takes no memory. -/
theorem Found.put_held : held (node.put pre.length c (pos - c.ofs) buf).chunks = held node.chunks := by
  have hle := h.le
  have hlt := h.lt
  have hbytes : c.bytes.length ≤ c.data.length := length_take_le' _ _
  have hlen : (overwrite (pos - c.ofs) buf c.data).length = c.data.length := overwrite_length (by omega)
  rw [h.put_chunks, h.split]
  simp only [held, map_append, map_cons, hlen]

theorem Found.put_tiled (htiled : Tiled l 0 node.chunks) :
    Tiled l 0 (node.put pre.length c (pos - c.ofs) buf).chunks := by
  have hle := h.le
  have hlt := h.lt
  have hlen : (overwrite (pos - c.ofs) buf c.bytes).length = c.bytes.length := overwrite_length (by omega)
  rw [h.split, tiled_append] at htiled
  rw [h.put_chunks, tiled_append]
  refine ⟨htiled.1, ?_⟩
  unfold Tiled at htiled ⊢
  rw [h.put_bytes hbuf, hlen]
  exact htiled.2

end

/-- The loop of `ramfs_write` writes the bytes over those of the file, if all are allocated. -/
theorem writeLoop_spec (fuel : Nat) : ∀ (node : Inode) (pos : Nat) (buf : Bytes), Tiled l 0 node.chunks →
    Current node → pos + buf.length ≤ (flat node.chunks).length → buf.length ≤ fuel →
    ∃ node', writeLoop l fuel node pos buf = (node', some (.ok ())) ∧ Tiled l 0 node'.chunks ∧ Current node'
      ∧ flat node'.chunks = overwrite pos buf (flat node.chunks)
      ∧ node'.size = node.size ∧ node'.allocSize = node.allocSize ∧ held node'.chunks = held node.chunks := by
  have hdone : ∀ (node : Inode) (pos : Nat), overwrite pos [] (flat node.chunks) = flat node.chunks := by
    intro node pos
    unfold overwrite
    rw [append_nil, length_nil, Nat.add_zero, take_append_drop]
  induction fuel with
  | zero =>
    intro node pos buf htiled hcur _ hfuel
    have hz := Nat.le_zero.mp hfuel
    refine ⟨node, ?_, htiled, hcur, ?_, rfl, rfl, rfl⟩
    · rw [writeLoop, if_pos hz]
    · rw [eq_nil_of_length_eq_zero hz, hdone]
  | succ fuel ih =>
    intro node pos buf htiled hcur hin hfuel
    rw [writeLoop]
    split
    next hz =>
      refine ⟨node, rfl, htiled, hcur, ?_, rfl, rfl, rfl⟩
      rw [eq_nil_of_length_eq_zero hz, hdone]
    next hnz =>
    obtain ⟨pre, c, post, hfound, hfind⟩ := findChunk_spec node pos htiled (by omega)
    have hlt := hfound.lt
    have hfits := Tiled.fits _ htiled (Nat.two_pow_pos _)
    rw [hfind]
    dsimp only
    rw [hfound.piece]
    dsimp only
    -- a turn writes up to the end of the chunk
    generalize hnow : min buf.length (c.ofs + c.bytes.length - pos) = now
    rw [← Int.natCast_add, toUlong_of_lt (by omega)]
    have hlen : (buf.take now).length = now := length_take_of_le (by omega)
    have hflat : flat (node.put pre.length c (pos - c.ofs) (buf.take now)).chunks = _ :=
      hfound.put_flat (by omega)
    obtain ⟨node', hloop, htiled', hcur', hflat', hsize, halloc, hheld⟩ := ih
      (node.put pre.length c (pos - c.ofs) (buf.take now)) (pos + now) (buf.drop now)
      (hfound.put_tiled (by omega) htiled) hfound.put_current
      (by rw [hflat, overwrite_length (by omega), length_drop]; omega)
      (by rw [length_drop]; omega)
    refine ⟨node', hloop, htiled', hcur', ?_, hsize, halloc, hheld.trans (hfound.put_held (by omega))⟩
    -- the two writes are one
    have hjoin : overwrite (pos + (buf.take now).length) (buf.drop now)
        (overwrite pos (buf.take now) (flat node.chunks)) = _ := overwrite_overwrite (by omega)
    rw [hlen, take_append_drop] at hjoin
    rw [hflat', hflat, hjoin]

/-- The `int` of a write that is not too long is its size. -/
theorem ramfsWrite_eq (node : Inode) (pos : Nat) {buf : Bytes} (h : buf.length < 2 ^ 31) :
    ramfsWrite l node pos buf = writeLoop l buf.length node pos buf := by
  unfold ramfsWrite
  rw [toInt_of_lt h]
  rw [if_pos (Int.natCast_nonneg _), Int.toNat_natCast, take_length]

end Barebox.Ramfs
