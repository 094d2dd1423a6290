import Barebox.Ramfs.Chunks

/-!
# Shrinking and growing — `ramfs_truncate_down`, `ramfs_truncate_up`

What is left after shrinking are the first chunks, up to the one that the new end
is in (`truncateDown_spec`). What is new after growing is zero, and is enough
(`growLoop_grown`). The rest of the last chunk is left as it is in both.

`Supplied` says which answers of the allocator are enough for the file to grow.
-/

namespace Barebox.Ramfs

open Lib List

variable {l : Long}

/-! ## Shrinking -/

/-- Chunks that begin behind `size` have no byte before it. -/
theorem Tiled.le_ofs (size : Nat) (cs : List Chunk) : ∀ {base : Nat}, Tiled l base cs → size ≤ base →
    ∀ c ∈ cs, size ≤ c.ofs := by
  induction cs with
  | nil =>
    exact nofun
  | cons d cs ih =>
    intro base ⟨⟨hofs, _⟩, htiled⟩ hle
    exact forall_mem_cons.mpr ⟨by omega, ih htiled (by omega)⟩

/-- The chunks that are kept are the first ones, and have the new end. -/
theorem kept_append (size : Nat) (cs : List Chunk) : ∀ (base : Nat), Tiled l base cs →
    cs.filter (fun c => !decide (size ≤ c.ofs)) ++ cs.filter (fun c => decide (size ≤ c.ofs)) = cs
      ∧ (size ≤ base + (flat cs).length →
        size ≤ base + (flat (cs.filter fun c => !decide (size ≤ c.ofs))).length) := by
  induction cs with
  | nil =>
    intro base _
    exact ⟨rfl, id⟩
  | cons c cs ih =>
    intro base htiled
    have hofs := htiled.1.1
    by_cases hle : size ≤ c.ofs
    · -- this one goes, and all behind it
      have hall := Tiled.le_ofs size (c :: cs) htiled (by omega)
      have hnone : (c :: cs).filter (fun c => !decide (size ≤ c.ofs)) = [] := by
        rw [filter_eq_nil_iff]
        intro d hd
        simp [hall d hd]
      have hself : (c :: cs).filter (fun c => decide (size ≤ c.ofs)) = c :: cs := by
        rw [filter_eq_self]
        intro d hd
        exact decide_eq_true (hall d hd)
      rw [hnone, hself]
      exact ⟨rfl, fun _ => by omega⟩
    · obtain ⟨happend, henough⟩ := ih (base + c.bytes.length) htiled.2
      rw [filter_cons_of_pos (by simp [hle]), filter_cons_of_neg (by simp [hle])]
      refine ⟨?_, fun h => ?_⟩
      · rw [cons_append, happend]
      · rw [flat_cons, length_append, ← Nat.add_assoc] at h ⊢
        exact henough h

/-- The sizes of chunks that tile are those of their data. -/
theorem Tiled.sum_size (cs : List Chunk) : ∀ {base : Nat}, Tiled l base cs →
    (cs.map Chunk.size).sum = ((flat cs).length : Int) := by
  induction cs with
  | nil =>
    intro base _
    rfl
  | cons c cs ih =>
    intro base htiled
    rw [map_cons, sum_cons, htiled.1.2.1, ih htiled.2, flat_cons, length_append, Int.natCast_add]

/-- The first chunks are left, with the bytes up to the new end. -/
theorem truncateDown_spec {node : Inode} {size : Nat} (htiled : Tiled l 0 node.chunks)
    (halloc : node.allocSize = (flat node.chunks).length) (hle : size ≤ node.allocSize) :
    Tiled l 0 (truncateDown l node size).chunks
      ∧ (truncateDown l node size).allocSize = (flat (truncateDown l node size).chunks).length
      ∧ size ≤ (truncateDown l node size).allocSize
      ∧ (flat (truncateDown l node size).chunks).take size = (flat node.chunks).take size := by
  obtain ⟨happend, henough⟩ := kept_append size node.chunks 0 htiled
  have henough := henough (by omega)
  have hfits := Tiled.fits _ htiled (Nat.two_pow_pos _)
  unfold truncateDown
  dsimp only
  generalize node.chunks.filter (fun c => !decide (size ≤ c.ofs)) = kept at happend henough
  generalize node.chunks.filter (fun c => decide (size ≤ c.ofs)) = gone at happend
  rw [← happend, flat_append, length_append] at halloc
  rw [← happend, tiled_append] at htiled
  rw [← happend, flat_append, length_append] at hfits
  have hrest : toUlong l (node.allocSize - (gone.map Chunk.size).sum) = (flat kept).length := by
    rw [htiled.2.sum_size, halloc, Int.natCast_add, Int.add_sub_cancel]
    exact toUlong_of_lt (by omega)
  refine ⟨htiled.1, hrest, by omega, ?_⟩
  rw [← happend, flat_append, take_append_of_le_length (by omega)]

/-! ## Growing -/

/-- The size of the next piece that is asked for. -/
def pieceSize (chunksize missing : Nat) : Nat := max (min chunksize missing) minSize

/-- The allocator gives what is missing: a piece that is refused is asked for again with half
of the size, and not below 128 KiB. A piece counts as much as its size as an `int` says. -/
inductive Supplied (l : Long) (gives : Nat → Bool) : (turn used chunksize missing : Nat) → Prop where
  | last {turn used chunksize missing : Nat} :
    Granted l (gives turn) used (pieceSize chunksize missing) →
      missing ≤ (toInt (pieceSize chunksize missing)).toNat → Supplied l gives turn used chunksize missing
  | more {turn used chunksize missing : Nat} :
    Granted l (gives turn) used (pieceSize chunksize missing) →
      Supplied l gives (turn + 1) (used + pieceSize chunksize missing) chunksize
        (missing - (toInt (pieceSize chunksize missing)).toNat) →
      Supplied l gives turn used chunksize missing
  | less {turn used chunksize missing : Nat} :
    ¬ Granted l (gives turn) used (pieceSize chunksize missing) → 131072 ≤ chunksize / 2 →
      Supplied l gives (turn + 1) used (chunksize / 2) missing → Supplied l gives turn used chunksize missing

/-- On the way there, the allocator gives a piece whose size is negative as an `int`: one of
2 GiB, or up to 4 GiB. -/
inductive GivesHuge (l : Long) (gives : Nat → Bool) : (turn used chunksize missing : Nat) → Prop where
  | here {turn used chunksize missing : Nat} :
    Granted l (gives turn) used (pieceSize chunksize missing) → toInt (pieceSize chunksize missing) < 0 →
      GivesHuge l gives turn used chunksize missing
  | more {turn used chunksize missing : Nat} :
    Granted l (gives turn) used (pieceSize chunksize missing) →
      (toInt (pieceSize chunksize missing)).toNat < missing →
      GivesHuge l gives (turn + 1) (used + pieceSize chunksize missing) chunksize
        (missing - (toInt (pieceSize chunksize missing)).toNat) →
      GivesHuge l gives turn used chunksize missing
  | less {turn used chunksize missing : Nat} :
    ¬ Granted l (gives turn) used (pieceSize chunksize missing) → 131072 ≤ chunksize / 2 →
      GivesHuge l gives (turn + 1) used (chunksize / 2) missing → GivesHuge l gives turn used chunksize missing

/-- The new chunks tile what is behind the old ones, are zero, and are enough. -/
structure Grown (l : Long) (base add allocSize : Nat) (list : List Chunk) : Prop where
  tiled : Tiled l base list
  alloc : allocSize = (flat list).length
  zero : ∀ b ∈ flat list, b = 0
  enough : add ≤ allocSize

theorem grown_nil (base : Nat) : Grown l base 0 0 [] where
  tiled := trivial
  alloc := rfl
  zero := by
    exact nofun
  enough := Nat.le_refl 0

/-- A new chunk behind the others, of memory that is larger if the size has lost its upper bits. -/
theorem Grown.snoc {base allocSize size room n : Nat} {list : List Chunk} (h : Grown l base 0 allocSize list)
    (hroom : size ≤ room) (hsmall : size < 2 ^ 31) (hfits : base + allocSize + size < 2 ^ l.bits)
    (hn : n ≤ allocSize + size) :
    Grown l base n (allocSize + size) (list ++ [⟨base + allocSize, size, replicate room 0⟩]) := by
  have halloc := h.alloc
  have hbytes : (⟨base + allocSize, size, replicate room 0⟩ : Chunk).bytes = replicate size 0 := by
    simp [Chunk.bytes, hroom]
  have hlen : (replicate size (0 : UInt8)).length = size := length_replicate
  refine ⟨(tiled_append _ _ _).mpr ⟨h.tiled, ?_, trivial⟩, ?_, ?_, hn⟩
  · rw [hbytes, hlen]
    exact ⟨congrArg (base + ·) halloc, rfl, hsmall, by omega⟩
  · rw [flat_append, length_append, ← halloc, flat_cons, hbytes, length_append, hlen]
    rfl
  · intro b hb
    rw [flat_append, flat_cons, hbytes, mem_append] at hb
    rcases hb with hb | hb
    · exact h.zero b hb
    · exact eq_of_mem_replicate ((mem_append.mp hb).resolve_right not_mem_nil)

theorem held_append (xs ys : List Chunk) : held (xs ++ ys) = held xs + held ys := by
  simp [held]

theorem held_snoc (list : List Chunk) (c : Chunk) : held (list ++ [c]) = held list + c.data.length := by
  simp [held]

/-- The chunks have no more bytes than memory. -/
theorem flat_length_le (chunks : List Chunk) : (flat chunks).length ≤ held chunks := by
  induction chunks with
  | nil => exact Nat.le_refl 0
  | cons c cs ih =>
    have hbytes : c.bytes.length ≤ c.data.length := length_take_le' _ _
    rw [flat_cons, length_append, held, map_cons, sum_cons]
    exact Nat.add_le_add hbytes ih

/-- The loop ends, if no piece is huge. If it is with new chunks, the allocator has given them,
and they are as they should be. -/
theorem growLoop_grown (gives : Nat → Bool) (used base fuel : Nat) :
    ∀ (turn : Nat) {chunksize add allocSize total : Nat} {list : List Chunk},
    Grown l base 0 allocSize list → total = allocSize + add → base + allocSize ≤ used + held list →
    add < 2 ^ l.bits → chunksize + add + 2 ^ l.bits ≤ fuel + (used + held list) →
    used + held list < 2 ^ l.bits → ¬ GivesHuge l gives turn (used + held list) chunksize add →
    ∃ ret, growLoop l gives used base fuel turn chunksize add allocSize list = some ret ∧
      ∀ new, ret = .ok new →
        Supplied l gives turn (used + held list) chunksize add ∧ Grown l base total new.1 new.2
          ∧ base + new.1 < 2 ^ l.bits ∧ used + held new.2 < 2 ^ l.bits := by
  induction fuel with
  | zero =>
    intro _ _ _ _ _ _ _ _ _ _ hfuel hused _
    omega
  | succ fuel ih =>
    intro turn chunksize add allocSize total list hgrown htotal hbase hadd hfuel hused hhuge
    have hmin : 0 < minSize := by decide
    obtain ⟨size, hsize⟩ : ∃ size, pieceSize chunksize add = size := ⟨_, rfl⟩
    have hpos : 0 < size := by
      rw [← hsize]
      exact Nat.lt_of_lt_of_le hmin (Nat.le_max_right _ _)
    rw [growLoop, getChunk]
    dsimp only
    rw [show max (min chunksize add) minSize = size from hsize]
    by_cases hgranted : Granted l (gives turn) (used + held list) size
    · -- the size of the piece, as an `int`
      have hint : 0 ≤ toInt size := by
        rcases Int.lt_or_le (toInt size) 0 with hneg | hnonneg
        · exact absurd (.here (by rwa [hsize]) (by rwa [hsize])) hhuge
        · exact hnonneg
      obtain ⟨n, hn⟩ := Int.eq_ofNat_of_zero_le hint
      obtain ⟨hle, hlt⟩ := toInt_le hn
      have hfits := hgranted.2
      have hofs : toUlong l (base + allocSize) = base + allocSize := by
        rw [← Int.natCast_add]
        exact toUlong_of_lt (by omega)
      have halloc : toUlong l (allocSize + n) = allocSize + n := by
        rw [← Int.natCast_add]
        exact toUlong_of_lt (by omega)
      rw [if_pos hgranted]
      dsimp only
      rw [hn, hofs, halloc, toUlong_of_lt (show n < 2 ^ l.bits by omega)]
      split
      next hdone =>
        -- the piece is all that was missing
        refine ⟨_, rfl, fun _ h => ?_⟩
        cases h
        refine ⟨.last (by rwa [hsize]) ?_, hgrown.snoc hle hlt (by omega) (by omega), by dsimp only; omega, ?_⟩
        · rw [hsize, hn, Int.toNat_natCast]
          exact hdone
        · rw [held_snoc, length_replicate, ← Nat.add_assoc]
          exact hfits
      next hmore =>
        -- the next turn asks for the rest
        have hadd' : add - n < 2 ^ l.bits := Nat.lt_of_le_of_lt (Nat.sub_le _ _) hadd
        have hnext : used + held (list ++ [⟨base + allocSize, n, replicate size 0⟩])
            = used + held list + size := by
          rw [held_snoc, length_replicate, Nat.add_assoc]
        have hgrown' := hgrown.snoc (n := 0) hle hlt (by omega) (Nat.zero_le _)
        have hmore' : ¬ GivesHuge l gives (turn + 1)
            (used + held (list ++ [⟨base + allocSize, n, replicate size 0⟩])) chunksize (add - n) := by
          intro hnexthuge
          rw [hnext] at hnexthuge
          refine hhuge (.more (by rwa [hsize]) ?_ ?_)
          · rw [hsize, hn, Int.toNat_natCast]
            exact Nat.lt_of_not_le hmore
          · rwa [hsize, hn, Int.toNat_natCast]
        have hfuel' : chunksize + (add - n) + 2 ^ l.bits ≤ fuel + (used + held list + size) := by
          have hsub := Nat.sub_le add n
          omega
        rw [← hnext] at hfuel'
        obtain ⟨ret, hloop, hnew⟩ := ih (turn + 1) hgrown' (show total = _ + (add - n) by omega)
          (by omega) hadd' hfuel' (by omega) hmore'
        rw [← Int.natCast_sub (by omega), toUlong_of_lt hadd']
        refine ⟨ret, hloop, fun new hret => ?_⟩
        obtain ⟨hsupplied, hrest⟩ := hnew new hret
        rw [hnext] at hsupplied
        refine ⟨.more (by rwa [hsize]) ?_, hrest⟩
        rwa [hsize, hn, Int.toNat_natCast]
    · -- no memory: half of the chunk size, down to the least one
      rw [if_neg hgranted]
      dsimp only
      split
      next => exact ⟨_, rfl, nofun⟩
      next hbig =>
        have hhalf : ¬ GivesHuge l gives (turn + 1) (used + held list) (chunksize / 2) add :=
          fun h => hhuge (.less (by rwa [hsize]) (by omega) h)
        obtain ⟨ret, hloop, hnew⟩ := ih (turn + 1) hgrown htotal hbase hadd (by omega) hused hhalf
        refine ⟨ret, hloop, fun new hret => ?_⟩
        obtain ⟨hsupplied, hrest⟩ := hnew new hret
        exact ⟨.less (by rwa [hsize]) (by omega) hsupplied, hrest⟩

end Barebox.Ramfs
