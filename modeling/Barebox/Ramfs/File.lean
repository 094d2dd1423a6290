import Barebox.Lib.Run
import Barebox.Ramfs.Truncate

/-!
# A file is a byte array that grows and shrinks

The reference is the bytes of the file. Reads, writes and truncates keep to it, whatever
allocations fail, if no call is of 2 GiB or more, no chunk is, and the file grows over bytes
that are zero (`ramfs_keeps`). The last one is the defect: `ramfs_truncate_down` keeps the chunk
that the new end is in with all that is in it, and `ramfs_truncate_up` takes it back as it is.
-/

namespace Barebox.Ramfs

open Lib List

variable {l : Long} {pos size : Nat}

/-- The inode has the bytes of the file: its chunks tile `[0, alloc_size)`, and the
file is at the beginning of them. -/
structure Stores (l : Long) (node : Inode) (file : Bytes) : Prop where
  tiled : Tiled l 0 node.chunks
  current : Current node
  alloc : node.allocSize = (flat node.chunks).length
  size : node.size = file.length
  le : node.size ≤ node.allocSize
  contents : (flat node.chunks).take node.size = file
  held : held node.chunks < 2 ^ l.bits

/-- The calls on one inode. -/
inductive Op where
  | read (pos size : Nat)
  | write (pos : Nat) (buf : Bytes)
  /-- `gives` says which of the allocations succeed. -/
  | truncate (size : Nat) (gives : Nat → Bool)

/-- The inode and the reference after a call. A truncate that fails changes no byte. -/
def step (l : Long) (s : Inode × Bytes) : Op → Inode × Bytes
  | .read pos size => ((ramfsRead l s.1 pos size).1, s.2)
  | .write pos buf => ((ramfsWrite l s.1 pos buf).1, overwrite pos buf s.2)
  | .truncate size gives =>
    match ramfsTruncate l gives s.1 size with
    | (node, some (.ok ())) => (node, resized s.2 size)
    | (node, _) => (node, s.2)

/-- The range of a call is inside of the file. -/
def Inside (file : Bytes) : Op → Prop
  | .read pos size => pos + size ≤ file.length
  | .write pos buf => pos + buf.length ≤ file.length
  | .truncate _ _ => True

/-- A call returns what it should: a read the bytes of the file, and a truncate that fails has
changed nothing. -/
def Right (l : Long) (s : Inode × Bytes) : Op → Prop
  | .read pos size => (ramfsRead l s.1 pos size).2 = some (.ok (slice pos size s.2))
  | .write pos buf => (ramfsWrite l s.1 pos buf).2 = some (.ok ())
  | .truncate size gives => (ramfsTruncate l gives s.1 size).2 = some (.ok ())
    ∨ ∃ e, ramfsTruncate l gives s.1 size = (s.1, some (.error e))

/-- What is allocated behind the end of the file, up to the new end, is zero. -/
def ZeroUpTo (node : Inode) (size : Nat) : Prop :=
  ∀ b ∈ slice node.size (min size node.allocSize - node.size) (flat node.chunks), b = 0

/-- A file that can grow to the new size grows over zeros, and gets no chunk of 2 GiB. -/
structure GrowsOverZeros (l : Long) (gives : Nat → Bool) (node : Inode) (size : Nat) : Prop where
  slack : size ≤ node.allocSize → ZeroUpTo node size
  noHuge : node.allocSize < size →
    ¬ GivesHuge l gives 0 (held node.chunks) (size - node.allocSize) (size - node.allocSize)
  grown : node.allocSize < size →
    Supplied l gives 0 (held node.chunks) (size - node.allocSize) (size - node.allocSize) →
      ZeroUpTo node size

/-- No read or write is of 2 GiB or more, and the file grows over zeros only. -/
def Harmless (l : Long) (node : Inode) : Op → Prop
  | .read _ size => size < 2 ^ 31
  | .write _ buf => buf.length < 2 ^ 31
  | .truncate size gives => node.size < size → size < 2 ^ l.bits → GrowsOverZeros l gives node size

section

variable {node : Inode} {file : Bytes} (h : Stores l node file)
include h

theorem Stores.le_flat {n : Nat} (hn : n ≤ file.length) : n ≤ (flat node.chunks).length := by
  have hle := h.le
  have halloc := h.alloc
  have hsize := h.size
  omega

/-- A read inside of the file gives its bytes, and only moves `current_chunk`. -/
theorem Stores.read (hin : pos + size ≤ file.length) (hsize : size < 2 ^ 31) :
    (ramfsRead l node pos size).2 = some (.ok (slice pos size file))
      ∧ Stores l (ramfsRead l node pos size).1 file := by
  obtain ⟨cur, hloop, hcur⟩ := readLoop_spec size node pos size [] h.tiled h.current (h.le_flat hin)
    (Nat.le_refl _)
  rw [ramfsRead_eq node pos hsize, hloop]
  refine ⟨?_, h.tiled, hcur, h.alloc, h.size, h.le, h.contents, h.held⟩
  rw [nil_append, ← h.contents, slice_take _ (by rw [h.size]; exact hin)]

/-- A write inside of the file puts the bytes there. -/
theorem Stores.write {buf : Bytes} (hin : pos + buf.length ≤ file.length)
    (hsize : buf.length < 2 ^ 31) : (ramfsWrite l node pos buf).2 = some (.ok ())
      ∧ Stores l (ramfsWrite l node pos buf).1 (overwrite pos buf file) := by
  obtain ⟨node', hloop, htiled, hcur, hflat, hsize', halloc, hheld⟩ :=
    writeLoop_spec buf.length node pos buf h.tiled h.current (h.le_flat hin) (Nat.le_refl _)
  have hlen : (flat node'.chunks).length = (flat node.chunks).length := by
    rw [hflat, overwrite_length (h.le_flat hin)]
  rw [ramfsWrite_eq node pos hsize, hloop]
  refine ⟨rfl, htiled, hcur, ?_, ?_, ?_, ?_, ?_⟩
  · rw [halloc, h.alloc, hlen]
  · rw [hsize', h.size, overwrite_length hin]
  · rw [hsize', halloc]
    exact h.le
  · rw [hsize', hflat, h.size, take_overwrite_of_le hin (h.le_flat (Nat.le_refl _)), ← h.size, h.contents]
  · rw [hheld]
    exact h.held

omit h in
/-- A new size is right if the bytes behind the old one are zero. -/
theorem take_eq_resized {all : Bytes} (size : Nat) (hfile : all.take file.length = file)
    (hle : file.length ≤ size) (hsize : size ≤ all.length)
    (hzero : ∀ b ∈ slice file.length (size - file.length) all, b = 0) :
    all.take size = resized file size := by
  have hlen : (slice file.length (size - file.length) all).length = size - file.length :=
    slice_length (by omega)
  have htake : all.take size = file ++ slice file.length (size - file.length) all := by
    have hadd := take_add (l := all) (i := file.length) (j := size - file.length)
    rw [Nat.add_sub_cancel' hle, hfile] at hadd
    exact hadd
  rw [htake, resized, take_of_length_le hle, append_cancel_left_eq, eq_replicate_iff]
  exact ⟨hlen, hzero⟩

/-- The inode with a new size, and with new chunks if need be. -/
theorem Stores.grow {list : List Chunk} {allocSize : Nat} (hle : node.size ≤ size)
    (hgrown : Grown l node.allocSize (size - node.allocSize) allocSize list)
    (hheld : Ramfs.held (node.chunks ++ list) < 2 ^ l.bits)
    (hzero : ZeroUpTo node size) : Stores l { node with
        size := size, chunks := node.chunks ++ list, allocSize := node.allocSize + allocSize }
      (resized file size) := by
  have halloc := h.alloc
  have hold := h.le
  have hsize := h.size
  have henough := hgrown.enough
  have halloc' := hgrown.alloc
  have hfile : (flat node.chunks ++ flat list).take file.length = file := by
    rw [take_append_of_le_length (by omega), ← hsize, h.contents]
  have hlen : (flat node.chunks ++ flat list).length = node.allocSize + allocSize := by
    rw [length_append]
    omega
  -- what is behind the old end is slack of the old chunks, or in the new ones
  have hcut : slice file.length (size - file.length) (flat node.chunks)
      = slice node.size (min size node.allocSize - node.size) (flat node.chunks) := by
    unfold slice
    rw [← hsize]
    rcases Nat.le_total size node.allocSize with hin | hout
    · rw [Nat.min_eq_left hin]
    · rw [take_of_length_le (by rw [length_drop]; omega), take_of_length_le (by rw [length_drop]; omega)]
  have hsplit : slice file.length (size - file.length) (flat node.chunks ++ flat list)
      = slice file.length (size - file.length) (flat node.chunks)
        ++ (flat list).take (size - file.length - ((flat node.chunks).length - file.length)) := by
    unfold slice
    rw [drop_append_of_le_length (by omega), take_append, length_drop]
  have hbehind : ∀ b ∈ slice file.length (size - file.length) (flat node.chunks ++ flat list), b = 0 := by
    rw [hsplit, forall_mem_append, hcut]
    exact ⟨hzero, fun b hb => hgrown.zero b (mem_of_mem_take hb)⟩
  refine ⟨(tiled_append _ _ _).mpr ⟨h.tiled, ?_⟩, ?_, ?_, ?_, ?_, ?_, hheld⟩
  · rw [Nat.zero_add, ← halloc]
    exact hgrown.tiled
  · intro i hi
    have hlt := h.current i hi
    rw [length_append]
    omega
  · rw [flat_append, hlen]
  · rw [resized_length]
  · dsimp only
    omega
  · rw [flat_append]
    exact take_eq_resized size hfile (by omega) (by omega) hbehind

/-- Shrinking keeps the first bytes. -/
theorem Stores.shrink (hlt : size < node.size) :
    Stores l { truncateDown l node size with size := size } (resized file size) := by
  have hsize := h.size
  have hle := h.le
  have hcontents := h.contents
  obtain ⟨htiled, halloc, henough, htake⟩ := truncateDown_spec h.tiled h.alloc (show size ≤ _ by omega)
  refine ⟨htiled, nofun, halloc, ?_, henough, ?_, ?_⟩
  · rw [resized_length]
  · unfold resized
    rw [htake, Nat.sub_eq_zero_of_le (by omega), ← hcontents, take_take, Nat.min_eq_left (by omega)]
    exact (append_nil _).symm
  · refine Nat.lt_of_le_of_lt ?_ h.held
    exact (filter_sublist.map _).sum_le_sum fun _ _ => Nat.zero_le _

/-- A truncate succeeds and is right, or fails and changes nothing. -/
theorem Stores.truncate_cases (gives : Nat → Bool) (size : Nat)
    (hharmless : Harmless l node (.truncate size gives)) :
    (∃ node', ramfsTruncate l gives node size = (node', some (.ok ())) ∧ Stores l node' (resized file size))
      ∨ ∃ e, ramfsTruncate l gives node size = (node, some (.error e)) := by
  have hsize := h.size
  have hle := h.le
  have halloc := h.alloc
  unfold ramfsTruncate
  split
  next => exact Or.inr ⟨_, rfl⟩
  next hbig =>
  split
  next heq =>
    refine Or.inl ⟨node, rfl, ?_⟩
    rw [heq, hsize, resized_self]
    exact h
  next hne =>
  split
  next hlt => exact Or.inl ⟨_, rfl, h.shrink hlt⟩
  next hge =>
  -- from here on the file grows
  obtain ⟨hslack, hnohuge, hzero⟩ := hharmless (by omega) (by omega)
  unfold truncateUp
  by_cases hroom : size ≤ node.allocSize
  · -- inside of the memory it already has
    rw [if_pos hroom]
    refine Or.inl ⟨_, rfl, ?_⟩
    have hnone : Grown l node.allocSize (size - node.allocSize) 0 [] := by
      rw [Nat.sub_eq_zero_of_le hroom]
      exact grown_nil _
    have hgrow := h.grow (by omega) hnone (by rw [append_nil]; exact h.held) (hslack hroom)
    rw [append_nil] at hgrow
    exact hgrow
  · rw [if_neg hroom]
    have hused : node.allocSize ≤ Ramfs.held node.chunks := by
      rw [halloc]
      exact flat_length_le _
    obtain ⟨ret, hloop, hgrown⟩ := growLoop_grown gives (Ramfs.held node.chunks) node.allocSize
      (2 * (size - node.allocSize) + 2 ^ l.bits) 0 (grown_nil _) (Nat.zero_add _).symm hused (by omega)
      (by omega) h.held (hnohuge (by omega))
    rw [hloop]
    cases ret with
    | error e => exact Or.inr ⟨e, rfl⟩
    | ok new =>
      obtain ⟨hsupplied, hnew, hfits, hheld⟩ := hgrown new rfl
      dsimp only
      rw [← Int.natCast_add, toUlong_of_lt hfits]
      refine Or.inl ⟨_, rfl, h.grow (by omega) hnew ?_ (hzero (by omega) hsupplied)⟩
      rw [held_append]
      exact hheld

end

theorem stores_of_eq {s : Inode × Bytes} {node : Inode} {file : Bytes} (hs : s = (node, file))
    (h : Stores l node file) : Stores l s.1 s.2 := by
  rw [hs]
  exact h

/-- One call: it is right, and the inode has the bytes of the reference then. -/
theorem Stores.step {s : Inode × Bytes} (h : Stores l s.1 s.2) (op : Op) (hin : Inside s.2 op)
    (hharmless : Harmless l s.1 op) : Right l s op ∧ Stores l (step l s op).1 (step l s op).2 := by
  cases op with
  | read pos size =>
    rw [Harmless] at hharmless
    obtain ⟨hret, hstores⟩ := h.read hin hharmless
    exact ⟨by rw [Right]; exact hret, stores_of_eq (by rw [Ramfs.step]) hstores⟩
  | write pos buf =>
    rw [Harmless] at hharmless
    obtain ⟨hret, hstores⟩ := h.write hin hharmless
    exact ⟨by rw [Right]; exact hret, stores_of_eq (by rw [Ramfs.step]) hstores⟩
  | truncate size gives =>
    rw [Right]
    rcases h.truncate_cases gives size hharmless with ⟨node', htrunc, hstores⟩ | ⟨e, htrunc⟩
    · exact ⟨Or.inl (by rw [htrunc]), stores_of_eq (by rw [Ramfs.step, htrunc]) hstores⟩
    · exact ⟨Or.inr ⟨e, htrunc⟩, stores_of_eq (by rw [Ramfs.step, htrunc]) h⟩

/-- Along any run of harmless calls with ranges inside of the file, the inode stores the bytes
of the reference before every call and at the end, and every call is right. -/
theorem ramfs_keeps (ops : List Op) (node : Inode) (file : Bytes) (h : Stores l node file)
    (hops : Along (step l) (fun s op => Inside s.2 op ∧ Harmless l s.1 op) (node, file) ops) :
    Along (step l) (fun s op => Stores l s.1 s.2 ∧ Right l s op) (node, file) ops
      ∧ Stores l (run (step l) (node, file) ops).1 (run (step l) (node, file) ops).2 := by
  have hstep : ∀ (s : Inode × Bytes) op, Stores l s.1 s.2 → Inside s.2 op ∧ Harmless l s.1 op →
      Stores l (step l s op).1 (step l s op).2 := fun s op hs hop => (hs.step op hop.1 hop.2).2
  refine ⟨Along.of_inv hstep (fun s op hs hop => ?_) ops hops h, run_inv hstep ops hops h⟩
  exact ⟨hs, (hs.step op hop.1 hop.2).1⟩

/-- A file that has just been created. -/
def empty : Inode := ⟨0, 0, [], none⟩

theorem empty_stores : Stores l empty [] where
  tiled := trivial
  current := by
    exact nofun
  alloc := rfl
  size := rfl
  le := Nat.le_refl 0
  contents := rfl
  held := Nat.two_pow_pos _

/-- The first chunk of a file is not huge if the file is not. -/
theorem not_givesHuge_first {gives : Nat → Bool} {n : Nat} (hn : n ≤ minSize) :
    ¬ GivesHuge l gives 0 0 n n := by
  have hpiece : pieceSize n n = minSize := by
    unfold pieceSize
    omega
  have hint : toInt minSize = minSize := toInt_of_lt (by decide)
  intro h
  cases h with
  | here _ hneg =>
    rw [hpiece, hint] at hneg
    exact absurd hneg (by decide)
  | more _ hless _ =>
    rw [hpiece, hint, Int.toNat_natCast] at hless
    omega
  | less _ hbig _ =>
    have : minSize = 8192 := rfl
    omega

/-- A file that grows to four bytes, two bytes of it, and all of them read back -/
def growAndRead : List Op := [.truncate 4 fun _ => true, .write 1 [7, 8], .read 0 4]

set_option maxRecDepth 40000 in
theorem empty_grows : Along (step .bits64) (fun s op => Stores .bits64 s.1 s.2 ∧ Right .bits64 s op) (empty, [])
    growAndRead := by
  have hwrite : 1 + 2 ≤ (run (step .bits64) (empty, []) (growAndRead.take 1)).2.length := by decide +kernel
  have hread : 0 + 4 ≤ (run (step .bits64) (empty, []) (growAndRead.take 2)).2.length := by decide +kernel
  have hops : Along (step .bits64) (fun s op => Inside s.2 op ∧ Harmless .bits64 s.1 op) (empty, []) growAndRead := by
    refine ⟨⟨trivial, fun _ _ => ?_⟩, ⟨hwrite, show 2 < 2 ^ 31 by decide⟩, ⟨hread, show 4 < 2 ^ 31 by decide⟩, trivial⟩
    exact ⟨nofun, fun _ => not_givesHuge_first (by decide), fun _ _ => nofun⟩
  exact (ramfs_keeps _ empty [] empty_stores hops).1

/-- Two bytes, the second cut off, and two bytes again. -/
def cutAndGrow : List Op :=
  [.truncate 2 fun _ => true, .write 0 [1, 2], .truncate 1 fun _ => true, .truncate 2 fun _ => true]

set_option maxRecDepth 40000 in
/-- The second byte is back. -/
theorem empty_grows_back : ¬ Stores .bits64 (run (step .bits64) (empty, []) cutAndGrow).1
    (run (step .bits64) (empty, []) cutAndGrow).2 := by
  -- `[1, 2]` in the chunk, and `[1, 0]` by the calls
  have hold : (flat (run (step .bits64) (empty, []) cutAndGrow).1.chunks).take
      (run (step .bits64) (empty, []) cutAndGrow).1.size ≠ (run (step .bits64) (empty, []) cutAndGrow).2 := by
    decide +kernel
  exact fun h => hold h.contents

end Barebox.Ramfs
