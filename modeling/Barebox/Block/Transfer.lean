import Barebox.Block.Cache

/-!
# Reads and writes through the cache — `common/block.c`

`block_op_read` and `block_op_write` cut a range into a part of a block,
whole blocks and another part, and get every block they need. The cache may
write back and reload chunks in between; the invariant is all that is used
of it. A read returns the memory that is shown, outside of `D`, and a write
changes it where it is told to.

An operation that fails has done a part of its work: a read has changed
nothing, and a write that fails has written a part of its bytes from the
beginning on.
-/

namespace Barebox.Block

open Lib

variable {g : Geometry} {D : Set Nat} {φ : Prop} {a : Memory UInt8} {s : State}
variable {o : Nat} {l : List (Fin 8)}

/-! ## Reading -/

/-- `n` bytes from `off` on, but for those in `D`. -/
structure Reads (D : Set Nat) (a : Memory UInt8) (off n : Nat) (b : Bytes) : Prop where
  length : b.length = n
  bytes : ∀ i < n, off + i ∉ D → b[i]? = some (a (off + i))

theorem Reads.nil (D : Set Nat) (a : Memory UInt8) (off : Nat) : Reads D a off 0 [] :=
  ⟨rfl, fun i hi => absurd hi (Nat.not_lt_zero i)⟩

variable {n block count offset : Nat} {p : Fin 8 × Nat} {c : Fin 8}

/-- Two reads next to each other are one. -/
theorem Reads.append {off k : Nat} {b b' : Bytes} (h : Reads D a off n b)
    (h' : Reads D a (off + n) k b') : Reads D a off (n + k) (b ++ b') := by
  refine ⟨?_, ?_⟩
  · rw [List.length_append, h.length, h'.length]
  · intro i hi hD
    by_cases hin : i < n
    · rw [List.getElem?_append_left (h.length.symm ▸ hin)]
      exact h.bytes i hin hD
    · have hoff : off + n + (i - n) = off + i := by omega
      rw [List.getElem?_append_right (h.length.symm ▸ Nat.le_of_not_lt hin), h.length, ← hoff]
      exact h'.bytes (i - n) (by omega) (hoff ▸ hD)

/-- All bytes are known if nothing is discarded. -/
theorem Reads.eq_peek {off : Nat} {b : Bytes} (h : Reads ∅ a off n b) : b = peek a off n := by
  refine List.ext_getElem? fun i => ?_
  by_cases hi : i < n
  · rw [h.bytes i hi (Set.notMem_empty _), getElem?_peek hi]
  · rw [List.getElem?_eq_none (h.length.symm ▸ Nat.le_of_not_lt hi),
      List.getElem?_eq_none ((length_peek a off n).symm ▸ Nat.le_of_not_lt hi)]

theorem wp_readData {Q : Bytes → State → Prop} {E : Errno → State → Prop} (off n : Nat) :
    wp (readData c off n) Q E s ↔ Q (peek (s.chunks c).data off n) s := Iff.rfl

/-- A part of a block, where a pointer to it points to. -/
theorem Inv.reads (h : Inv g D φ [] a s) (pos n : Nat)
    (hblock : block < g.numBlocks) (hp : PointsTo g s block p) (hn : pos + n ≤ g.blocksize) :
    Reads D a (block * g.blocksize + pos) n (peek (s.chunks p.1).data (p.2 + pos) n) := by
  refine ⟨length_peek .., ?_⟩
  intro i hi hD
  rw [Nat.add_assoc] at hD
  rw [getElem?_peek hi, Nat.add_assoc, Nat.add_assoc, h.data_eq hblock hp (by omega) hD]

/-- The loop over whole blocks, … -/
theorem readBlocks_spec {blocks : Nat} (h : Inv g D φ [] a s)
    (hle : block + blocks ≤ g.numBlocks) : wp (readBlocks g blocks block)
      (fun b s' => Inv g D φ [] a s' ∧ Reads D a (block * g.blocksize) (blocks * g.blocksize) b)
      (fun _ s' => Inv g D φ [] a s' ∧ φ) s := by
  induction blocks generalizing block s with
  | zero =>
    rw [Nat.zero_mul]
    exact ⟨h, Reads.nil ..⟩
  | succ blocks ih =>
    have hblock : block < g.numBlocks := by omega
    refine wp_seq (blockGet_spec h hblock) ?_
    intro ⟨c, iobuf⟩ s₁ ⟨hinv, hp⟩
    have hnow := hinv.reads 0 g.blocksize hblock hp (Nat.le_of_eq (Nat.zero_add _))
    rw [wp_bind, wp_readData]
    refine wp_seq (ih hinv (by omega)) ?_
    intro rest s₂ ⟨hinv₂, hrest⟩
    rw [Nat.add_mul, Nat.one_mul] at hrest
    rw [Nat.add_mul, Nat.one_mul, Nat.add_comm (blocks * g.blocksize)]
    exact ⟨hinv₂, Reads.append hnow hrest⟩

/-- The blocks of a range, and what is left of it. -/
theorem range_blocks (h : block * g.blocksize + count ≤ g.size) : block + count / g.blocksize ≤ g.numBlocks ∧
      (count % g.blocksize ≠ 0 → block + count / g.blocksize < g.numBlocks) := by
  have hmod := Nat.div_add_mod count g.blocksize
  rw [Nat.mul_comm] at hmod
  have hle : (block + count / g.blocksize) * g.blocksize + count % g.blocksize
      ≤ g.numBlocks * g.blocksize := by
    rw [Nat.add_mul]
    unfold Geometry.size at h
    omega
  refine ⟨?_, fun hne => ?_⟩
  · exact Nat.le_of_mul_le_mul_right (by omega) g.blocksize_pos
  · exact Nat.lt_of_mul_lt_mul_right (a := g.blocksize) (by omega)

theorem sub_blocks : count - count / g.blocksize * g.blocksize = count % g.blocksize := by
  have hmod := Nat.div_add_mod count g.blocksize
  rw [Nat.mul_comm] at hmod
  omega

/-- … and with the part of a block that is left. -/
theorem readFrom_spec (h : Inv g D φ [] a s) (count block : Nat)
    (hle : block * g.blocksize + count ≤ g.size) : wp (readFrom g count block)
      (fun b s' => Inv g D φ [] a s' ∧ Reads D a (block * g.blocksize) count b)
      (fun _ s' => Inv g D φ [] a s' ∧ φ) s := by
  obtain ⟨hblocks, htail⟩ := range_blocks hle
  have hmod := Nat.div_add_mod count g.blocksize
  have hlt := Nat.mod_lt count g.blocksize_pos
  rw [Nat.mul_comm] at hmod
  unfold readFrom
  rw [g.shiftRight_eq]
  dsimp only
  rw [sub_blocks]
  refine wp_seq (readBlocks_spec h hblocks) ?_
  intro middle s₁ ⟨hinv, hmiddle⟩
  split
  case isFalse hzero =>
    have hcount : count / g.blocksize * g.blocksize = count := by omega
    rw [hcount] at hmiddle
    exact ⟨hinv, hmiddle⟩
  case isTrue hne =>
    refine wp_seq (blockGet_spec hinv (htail hne)) ?_
    intro ⟨c, iobuf⟩ s₂ ⟨hinv₂, hp⟩
    have hrest := hinv₂.reads 0 (count % g.blocksize) (htail hne) hp (by omega)
    refine ⟨hinv₂, ?_⟩
    rw [Nat.add_mul] at hrest
    have happ := Reads.append hmiddle hrest
    rw [hmod] at happ
    exact happ

theorem offset_of_aligned (h : ¬ offset % g.blocksize ≠ 0) :
    offset / g.blocksize * g.blocksize = offset :=
  Nat.div_mul_cancel (Nat.dvd_of_mod_eq_zero (Decidable.not_not.mp h))

/-- An offset that is not at the start of a block: the block it is in, and behind
the part in front whole blocks, if there is anything. -/
theorem block_of_offset {now : Nat} (h : offset + count ≤ g.size) (hne : offset % g.blocksize ≠ 0)
    (hnow : min count (g.blocksize - offset % g.blocksize) = now) : offset / g.blocksize < g.numBlocks ∧
      offset / g.blocksize * g.blocksize + offset % g.blocksize = offset ∧
      offset % g.blocksize < g.blocksize ∧
      (offset / g.blocksize + 1) * g.blocksize + (count - now) ≤ g.size ∧
      (count - now ≠ 0 → (offset / g.blocksize + 1) * g.blocksize = offset + now) := by
  have hmod := Nat.div_add_mod offset g.blocksize
  have hlt := Nat.mod_lt offset g.blocksize_pos
  rw [Nat.mul_comm] at hmod
  unfold Geometry.size at h ⊢
  have hblock : offset / g.blocksize < g.numBlocks :=
    Nat.lt_of_mul_lt_mul_right (a := g.blocksize) (by omega)
  have hmul := Nat.mul_le_mul_right g.blocksize hblock
  rw [Nat.succ_mul] at hmul
  rw [Nat.add_mul]
  omega

/-- A read returns what is shown. -/
theorem blockOpRead_spec (h : Inv g D φ [] a s) (hle : offset + count ≤ g.size) : wp (blockOpRead g count offset)
      (fun b s' => Inv g D φ [] a s' ∧ Reads D a offset count b)
      (fun _ s' => Inv g D φ [] a s' ∧ φ) s := by
  unfold blockOpRead
  dsimp only
  rw [g.shiftRight_eq, g.and_mask_eq]
  split
  case isFalse hzero =>
    have hoffset := offset_of_aligned hzero
    have hfrom := readFrom_spec h count (offset / g.blocksize) (by rw [hoffset]; exact hle)
    rw [hoffset] at hfrom
    exact hfrom
  case isTrue hne =>
    generalize hnow : min count (g.blocksize - offset % g.blocksize) = now
    obtain ⟨hblock, hmod, hlt, hbehind, hnext⟩ := block_of_offset hle hne hnow
    unfold readHead
    dsimp only
    rw [g.shiftRight_eq, g.and_mask_eq]
    rw [wp_bind]
    refine wp_seq (blockGet_spec h hblock) ?_
    intro ⟨c, iobuf⟩ s₁ ⟨hinv, hp⟩
    have hhead := hinv.reads (offset % g.blocksize) now hblock hp (by omega)
    rw [hmod] at hhead
    rw [wp_readData, wp_bind, hnow, hhead.length]
    refine wp_mono (readFrom_spec hinv _ _ hbehind) ?_ (fun _ _ hE => hE)
    intro rest s₂ ⟨hinv₂, hrest⟩
    refine ⟨hinv₂, ?_⟩
    have hcount : now + (count - now) = count := by omega
    have htail : Reads D a (offset + now) (count - now) rest := by
      refine ⟨hrest.length, fun i hi hD => ?_⟩
      rw [← hnext (by omega)] at hD ⊢
      exact hrest.bytes i hi hD
    have happ := hhead.append htail
    rw [hcount] at happ
    exact happ

/-! ## Writing -/

/-- The chunk with other data, dirty, and the list in another order. -/
def changed (c : Fin 8) (l : List (Fin 8)) (f : Memory UInt8 → Memory UInt8) (s : State) : State :=
  { s.setChunk c (fun chunk => ⟨f chunk.data, chunk.blockStart, true⟩) with bufferedBlocks := l }

/-- Bytes from `off` on. -/
def bytesAt (off n : Nat) : Set Nat := fun x => off ≤ x ∧ x < off + n

variable {f : Memory UInt8 → Memory UInt8} {d : Fin 8}

theorem changed_self :
    (changed c l f s).chunks c = ⟨f (s.chunks c).data, (s.chunks c).blockStart, true⟩ :=
  s.setChunk_self c fun chunk => ⟨f chunk.data, chunk.blockStart, true⟩

theorem changed_of_ne (h : d ≠ c) : (changed c l f s).chunks d = s.chunks d :=
  s.setChunk_of_ne h fun chunk => ⟨f chunk.data, chunk.blockStart, true⟩

theorem changed_blockStart : ((changed c l f s).chunks d).blockStart = (s.chunks d).blockStart := by
  by_cases hd : d = c
  · rw [hd, changed_self]
  · rw [changed_of_ne hd]

/-- Where a pointer points to, as a part of the device. -/
theorem PointsTo.base (h : PointsTo g s block (c, o)) :
    (s.chunks c).blockStart * g.blocksize + o = block * g.blocksize := by
  have hmul : (s.chunks c).blockStart * g.blocksize ≤ block * g.blocksize :=
    Nat.mul_le_mul_right g.blocksize (holds_iff.mp h.holds).1
  have hoff : o = (block - (s.chunks c).blockStart) * g.blocksize := h.off
  rw [Nat.sub_mul] at hoff
  omega

/-- Changing a part of a chunk writes to it in the abstract cache. -/
theorem abs_changed {pos : Nat} (hp : PointsTo g s block (c, o))
    (u : Memory UInt8) (hl : l.Perm s.bufferedBlocks) :
    abs g (changed c l (fun data => copy data (o + pos) u 0 n) s)
      = (abs g s).write c (bytesAt (block * g.blocksize + pos) n)
        fun x => u (x - (block * g.blocksize + pos)) := by
  have hbase := hp.base
  refine Cache.ext rfl (Set.ext fun d => hl.mem_iff) (Set.ext fun d => ?_) (funext fun d => ?_)
    (funext fun d => ?_)
  · show ((changed c l _ s).chunks d).dirty = true ↔ (d = c ∨ (s.chunks d).dirty = true)
    by_cases hd : d = c
    · rw [hd, changed_self]
      simp
    · rw [changed_of_ne hd]
      simp [hd]
  · show g.span ((changed c l _ s).chunks d).blockStart = g.span (s.chunks d).blockStart
    rw [changed_blockStart]
  · dsimp only [abs, Cache.write]
    by_cases hd : d = c
    · rw [hd, changed_self, Function.update_self]
      dsimp only
      funext x
      -- inside of the written bytes, or outside
      by_cases hx : x ∈ bytesAt (block * g.blocksize + pos) n
      · obtain ⟨hx₁, hx₂⟩ := hx
        have hle : (s.chunks c).blockStart * g.blocksize ≤ x := by omega
        have hmem : o + pos ≤ x - (s.chunks c).blockStart * g.blocksize ∧
            x - (s.chunks c).blockStart * g.blocksize < o + pos + n := by omega
        rw [Geometry.placed, if_pos hle, copy_of_mem hmem, if_pos ⟨hx₁, hx₂⟩]
        exact congrArg u (by omega)
      · unfold Geometry.placed
        split
        case isFalse => rfl
        case isTrue hle =>
          refine copy_of_not_mem fun hmem => hx ⟨?_, ?_⟩
          · omega
          · omega
    · rw [changed_of_ne hd, Function.update_of_ne hd]

/-- A part of a block is changed in the chunk it is in. -/
theorem Inv.changed (h : Inv g D φ [] a s) (pos n : Nat)
    (hblock : block < g.numBlocks) (hp : PointsTo g s block (c, o)) (hn : pos + n ≤ g.blocksize)
    (u : Memory UInt8) (hl : l.Perm s.bufferedBlocks) :
    Inv g D φ [] (copy a (block * g.blocksize + pos) u 0 n)
      (changed c l (fun data => copy data (o + pos) u 0 n) s) := by
  obtain ⟨hle, hlt⟩ := holds_iff.mp hp.holds
  have hwf := h.wf.reorder hl
  refine ⟨hwf.of_places hwf.chunks fun d hd => ⟨hd, changed_blockStart⟩, ?_, h.discarded, h.faults⟩
  have hspan : ∀ x ∈ bytesAt (block * g.blocksize + pos) n, x ∈ (abs g s).range c := by
    intro x ⟨hx₁, hx₂⟩
    have hspan := Geometry.mem_span hle hlt hblock (by omega : x - block * g.blocksize < g.blocksize)
    rw [Nat.add_sub_cancel' (by omega)] at hspan
    exact hspan
  have hwrite := h.shows.write h.wf.apart hp.mem hspan fun x => u (x - (block * g.blocksize + pos))
  rw [abs_changed hp u hl]
  refine hwrite.congr fun x => ?_
  split
  next hx => rw [copy_of_mem hx, Nat.zero_add]
  next hx => rw [copy_of_not_mem hx]

theorem changed_eq :
    State.setDirty { s.setData c f with bufferedBlocks := l } c true = changed c l f s := by
  simp [changed, State.setData, State.setDirty, State.setChunk]

theorem setData_id (h : f (s.chunks c).data = (s.chunks c).data) : s.setData c f = s := by
  simp [State.setData, State.setChunk, h]

theorem Wf.setData (h : Wf g [] s) (c : Fin 8) (f : Memory UInt8 → Memory UInt8) :
    Wf g [] (s.setData c f) := h.of_places h.chunks fun _ hd => ⟨hd, State.setData_blockStart ..⟩

theorem PointsTo.setData (h : PointsTo g s block p) (c : Fin 8)
    (f : Memory UInt8 → Memory UInt8) : PointsTo g (s.setData c f) block p := by
  refine ⟨h.mem, ?_, ?_⟩
  · rw [holds_iff, State.setData_blockStart]
    exact holds_iff.mp h.holds
  · rw [State.setData_blockStart]
    exact h.off

theorem PointsTo.reorder (h : PointsTo g s block p) (hl : l.Perm s.bufferedBlocks) :
    PointsTo g { s with bufferedBlocks := l } block p := ⟨hl.mem_iff.mpr h.mem, h.holds, h.off⟩

/-- A block that is in the cache is found there. -/
theorem chunkGetCached_found (hwf : Wf g [] s) (hp : PointsTo g s block p) : wp (chunkGetCached g block)
      (fun r s' => r = some p.1 ∧ ∃ l, l.Perm s.bufferedBlocks ∧ s' = { s with bufferedBlocks := l })
      (fun _ _ => False) s := by
  refine wp_mono (chunkGetCached_spec g block s) ?_ (fun _ _ => id)
  intro r s' ⟨l, hl, hs', hnone, hsome⟩
  cases r with
  | none =>
    have hholds := hp.holds
    rw [hnone rfl p.1 hp.mem] at hholds
    cases hholds
  | some c =>
    obtain ⟨hc, hholds⟩ := hsome c rfl
    exact ⟨congrArg some (hwf.unique hc hp.mem hholds hp.holds), l, hl, hs'⟩

/-- The end of `block_put`: the chunk is found again. -/
theorem markDirty_spec (hwf : Wf g [] s) (hp : PointsTo g s block p) : wp (chunkGetCached g block >>= fun
        | none => throw .EFAULT
        | some c => modify fun s => s.setDirty c true)
      (fun _ s' => ∃ l, l.Perm s.bufferedBlocks ∧
        s' = State.setDirty { s with bufferedBlocks := l } p.1 true)
      (fun _ _ => False) s := by
  refine wp_seq (chunkGetCached_found hwf hp) ?_
  intro r s' ⟨hr, l, hl, hs'⟩
  subst hr hs'
  exact ⟨l, hl, rfl⟩

/-- A block that is in a chunk is found again there: `block_get` after a copy gives the same
pointer. -/
theorem blockGet_cached (hwf : Wf g [] s) (hblock : block < g.numBlocks) (hp : PointsTo g s block p) :
    wp (blockGet g block)
      (fun q s' => q = p ∧ ∃ l, l.Perm s.bufferedBlocks ∧ s' = { s with bufferedBlocks := l })
      (fun _ _ => False) s := by
  unfold blockGet
  rw [if_neg (Nat.not_le.mpr hblock), wp_bind]
  refine wp_seq (chunkGetCached_found hwf hp) ?_
  intro r s' ⟨hr, l, hl, hs'⟩
  subst hr hs'
  exact ⟨Prod.ext rfl hp.off.symm, l, hl, rfl⟩

section

variable (h : Inv g D φ [] a s)
include h

/-- A whole block from outside. -/
theorem blockPut_spec (hblock : block < g.numBlocks) (u : Memory UInt8) : wp (blockPut g (fun _ => u) block)
      (fun _ s' => Inv g D φ [] (copy a (block * g.blocksize) u 0 g.blocksize) s')
      (fun _ s' => Inv g D φ [] a s' ∧ φ) s := by
  unfold blockPut
  rw [if_neg (Nat.not_le.mpr hblock)]
  refine wp_seq (blockGet_spec h hblock) ?_
  intro ⟨c, o⟩ s₁ ⟨hinv, hp⟩
  refine wp_mono (markDirty_spec (hinv.wf.setData ..) (hp.setData ..)) ?_ (fun _ _ hE => hE.elim)
  intro _ s₂ ⟨l, hl, hs₂⟩
  rw [hs₂, changed_eq]
  exact hinv.changed 0 g.blocksize hblock hp (Nat.le_of_eq (Nat.zero_add _)) u hl

/-- A part of a block. -/
theorem writePart_spec {pos : Nat} (hblock : block < g.numBlocks)
    (hn : pos + n ≤ g.blocksize) (u : Memory UInt8) : wp (writePart g u block pos n)
      (fun _ s' => Inv g D φ [] (copy a (block * g.blocksize + pos) u 0 n) s')
      (fun _ s' => Inv g D φ [] a s' ∧ φ) s := by
  refine wp_seq (blockGet_spec h hblock) ?_
  intro ⟨c, o⟩ s₁ ⟨hinv, hp⟩
  rw [wp_bind, wp_modify]
  generalize hf : (fun data => copy data (o + pos) u 0 n) = f
  unfold blockPut
  rw [if_neg (Nat.not_le.mpr hblock), wp_bind]
  refine wp_mono (blockGet_cached (hinv.wf.setData c f) hblock (hp.setData c f)) ?_
    (fun _ _ hE => hE.elim)
  intro q s₂ ⟨hq, l, hl, hs₂⟩
  subst hq hs₂
  -- the block is copied to where it is
  rw [wp_bind, wp_modify, setData_id (copy_self ..)]
  refine wp_mono (markDirty_spec ((hinv.wf.setData c f).reorder hl) ((hp.setData c f).reorder hl)) ?_
    (fun _ _ hE => hE.elim)
  intro _ s₃ ⟨l', hl', hs₃⟩
  rw [hs₃]
  rw [changed_eq, ← hf]
  exact hinv.changed pos n hblock hp hn u (hl'.trans hl)

/-- Whole blocks: all of them are written, or the first bytes if a call of the device fails. -/
theorem writeBlocks_spec {blocks : Nat} {u : Memory UInt8}
    (hle : block + blocks ≤ g.numBlocks) : wp (writeBlocks g u blocks block)
      (fun _ s' => Inv g D φ [] (copy a (block * g.blocksize) u 0 (blocks * g.blocksize)) s')
      (fun _ s' => (∃ n ≤ blocks * g.blocksize, Inv g D φ [] (copy a (block * g.blocksize) u 0 n) s')
        ∧ φ) s := by
  induction blocks generalizing block u a s with
  | zero =>
    rw [Nat.zero_mul, copy_zero]
    exact h
  | succ blocks ih =>
    rw [writeBlocks, wp_bind]
    refine wp_mono (blockPut_spec h (by omega) u) ?_ ?_
    · intro _ s₁ hinv
      refine wp_mono (ih hinv (by omega)) ?_ ?_
      · intro _ s₂ hinv₂
        rw [Nat.add_mul, Nat.one_mul, copy_copy, Nat.add_comm g.blocksize] at hinv₂
        rw [Nat.add_mul, Nat.one_mul]
        exact hinv₂
      · intro _ s₂ ⟨⟨n, hn, hinv₂⟩, hφ⟩
        rw [Nat.add_mul, Nat.one_mul, copy_copy] at hinv₂
        refine ⟨⟨g.blocksize + n, ?_, hinv₂⟩, hφ⟩
        rw [Nat.add_mul]
        omega
    · intro _ s₁ ⟨hinv, hφ⟩
      refine ⟨⟨0, Nat.zero_le _, ?_⟩, hφ⟩
      rw [copy_zero]
      exact hinv

/-- The same with a part of a block behind them. -/
theorem writeFrom_spec (u : Memory UInt8) (count block : Nat)
    (hle : block * g.blocksize + count ≤ g.size) : wp (writeFrom g u count block)
      (fun _ s' => Inv g D φ [] (copy a (block * g.blocksize) u 0 count) s')
      (fun _ s' => (∃ n ≤ count, Inv g D φ [] (copy a (block * g.blocksize) u 0 n) s') ∧ φ) s := by
  obtain ⟨hblocks, htail⟩ := range_blocks hle
  have hmod := Nat.div_add_mod count g.blocksize
  have hlt := Nat.mod_lt count g.blocksize_pos
  rw [Nat.mul_comm] at hmod
  unfold writeFrom
  dsimp only
  rw [g.shiftRight_eq, sub_blocks, wp_bind]
  refine wp_mono (writeBlocks_spec h hblocks) ?_ ?_
  · intro _ s₁ hinv
    split
    case isFalse hzero =>
      have hcount : count / g.blocksize * g.blocksize = count := by omega
      rw [hcount] at hinv
      exact hinv
    case isTrue hne =>
      refine wp_mono (writePart_spec hinv (htail hne) (by omega) _) ?_ ?_
      · intro _ s₂ hinv₂
        rw [Nat.add_zero, Nat.add_mul, copy_copy, hmod] at hinv₂
        exact hinv₂
      · intro _ s₂ ⟨hinv₂, hφ⟩
        exact ⟨⟨_, by omega, hinv₂⟩, hφ⟩
  · intro _ s₁ ⟨⟨n, hn, hinv⟩, hφ⟩
    exact ⟨⟨n, by omega, hinv⟩, hφ⟩

/-- A write changes what is shown. -/
theorem blockOpWrite_spec (u : Memory UInt8) (hle : offset + count ≤ g.size) :
    wp (blockOpWrite g u count offset)
      (fun _ s' => Inv g D φ [] (copy a offset u 0 count) s')
      (fun _ s' => (∃ n ≤ count, Inv g D φ [] (copy a offset u 0 n) s') ∧ φ) s := by
  unfold blockOpWrite
  dsimp only
  rw [g.shiftRight_eq, g.and_mask_eq]
  split
  case isFalse hzero =>
    have hoffset := offset_of_aligned hzero
    have hfrom := writeFrom_spec h u count (offset / g.blocksize) (by rw [hoffset]; exact hle)
    rw [hoffset] at hfrom
    exact hfrom
  case isTrue hne =>
    generalize hnow : min count (g.blocksize - offset % g.blocksize) = now
    obtain ⟨hblock, hmod, hlt, hbehind, hnext⟩ := block_of_offset hle hne hnow
    rw [wp_bind]
    refine wp_mono (writePart_spec h hblock (by omega) u) ?_ ?_
    · intro _ s₁ hinv
      rw [hmod] at hinv
      -- what is behind starts a block, if there is anything
      have hcopy : ∀ n ≤ count - now,
          copy (copy a offset u 0 now) ((offset / g.blocksize + 1) * g.blocksize)
            (fun i => u (now + i)) 0 n = copy a offset u 0 (now + n) := by
        intro n hn
        by_cases hn0 : n = 0
        · rw [hn0, copy_zero, Nat.add_zero]
        · rw [hnext (by omega), copy_copy]
      refine wp_mono (writeFrom_spec hinv _ _ _ hbehind) ?_ ?_
      · intro _ s₂ hinv₂
        rw [hcopy _ (Nat.le_refl _), Nat.add_sub_cancel' (by omega)] at hinv₂
        exact hinv₂
      · intro _ s₂ ⟨⟨n, hn, hinv₂⟩, hφ⟩
        rw [hcopy n hn] at hinv₂
        exact ⟨⟨now + n, by omega, hinv₂⟩, hφ⟩
    · intro _ s₁ ⟨hinv, hφ⟩
      refine ⟨⟨0, Nat.zero_le _, ?_⟩, hφ⟩
      rw [copy_zero]
      exact hinv

end

end Barebox.Block
