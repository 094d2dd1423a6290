import Barebox.Block.Model
import Barebox.Lib.WriteBack
import Barebox.Lib.Wp

/-!
# The chunks as a cache — `common/block.c`

The chunks in `buffered_blocks` are the lines of a write-back cache
(`abs`), and every function that moves, reads or writes a chunk is made of
the steps of one. `Inv` is what they keep: the eight chunks are in the
lists, or in the hands of the function that took them out (`held`); those
that are buffered start at different multiples of a chunk (`Wf`); and
together with the device they show the memory `a`, but for what may have
been discarded.

`φ` stands for "some device operation fails". It is what an error has as a
reason; with `φ` false there are none.
-/

namespace Barebox.Block

open Lib List

namespace Geometry

variable (g : Geometry)

theorem blocksize_eq : g.blocksize = 2 ^ g.blockbits := Nat.one_shiftLeft _

theorem blocksize_pos : 0 < g.blocksize := by
  rw [blocksize_eq]
  exact Nat.two_pow_pos _

theorem rdbufsize_eq : g.rdbufsize = 2 ^ (16 - g.blockbits) := by
  unfold rdbufsize
  rw [Nat.shiftRight_eq_div_pow]
  show 2 ^ 16 / _ = _
  rw [Nat.pow_div g.blockbits_le (by decide)]

theorem rdbufsize_pos : 0 < g.rdbufsize := by
  rw [rdbufsize_eq]
  exact Nat.two_pow_pos _

theorem numBlocks_lt : g.numBlocks < 2 ^ 64 := by
  have hsize := g.size_lt
  have hle := Nat.le_mul_of_pos_right g.numBlocks (Nat.two_pow_pos g.blockbits)
  omega

variable {block : Nat}

/-- Masking is rounding down to a multiple. -/
theorem chunkStart_eq (h : block < 2 ^ 64) :
    chunkStart g block = block / g.rdbufsize * g.rdbufsize := by
  unfold chunkStart blkmask
  rw [rdbufsize_eq]
  generalize hk : 16 - g.blockbits = k
  have hle : 2 ^ k ≤ 2 ^ 16 := Nat.pow_le_pow_right (by decide) (by omega)
  have hmask : 2 ^ 64 - 1 - (2 ^ k - 1) = 2 ^ 64 - (2 ^ k - 1 + 1) := by omega
  rw [hmask]
  -- bit by bit
  refine Nat.eq_of_testBit_eq fun i => ?_
  rw [Nat.testBit_and, Nat.testBit_two_pow_sub_succ (by omega), Nat.testBit_two_pow_sub_one,
    Nat.testBit_mul_two_pow, Nat.testBit_div_two_pow]
  by_cases hik : k ≤ i
  · rw [Nat.sub_add_cancel hik, decide_eq_true hik, decide_eq_false (Nat.not_lt.mpr hik)]
    by_cases hi : i < 64
    · simp [hi]
    · have hfalse : block.testBit i = false :=
        Nat.testBit_lt_two_pow (Nat.lt_of_lt_of_le h (Nat.pow_le_pow_right (by decide) (by omega)))
      rw [hfalse]
      rfl
  · rw [decide_eq_false hik, decide_eq_true (Nat.not_le.mp hik)]
    simp

theorem shiftRight_eq (n : Nat) : n >>> g.blockbits = n / g.blocksize := by
  rw [Nat.shiftRight_eq_div_pow, blocksize_eq]

theorem and_mask_eq (n : Nat) : n &&& (g.blocksize - 1) = n % g.blocksize := by
  rw [blocksize_eq, Nat.and_two_pow_sub_one_eq_mod]

/-- The bytes of the chunk that starts at a block. -/
def span (blockStart : Nat) : Set Nat := fun x =>
  blockStart * g.blocksize ≤ x ∧
    x < blockStart * g.blocksize + g.writebufferIoLen blockStart * g.blocksize

/-- The data of a chunk, by the bytes of the device they are. -/
def placed (blockStart : Nat) (data : Memory UInt8) : Memory UInt8 := fun x =>
  if blockStart * g.blocksize ≤ x then data (x - blockStart * g.blocksize) else 0

variable {g}

theorem placed_of_mem {b x : Nat} (h : x ∈ g.span b) (data : Memory UInt8) :
    g.placed b data x = data (x - b * g.blocksize) := if_pos h.1

/-- A block that a chunk holds is in its span. -/
theorem mem_span {start i : Nat} (h : start ≤ block) (h' : block < start + g.rdbufsize)
    (hblock : block < g.numBlocks) (hi : i < g.blocksize) : block * g.blocksize + i ∈ g.span start := by
  have hlen : block + 1 ≤ start + g.writebufferIoLen start := by
    unfold writebufferIoLen
    omega
  have hlower := Nat.mul_le_mul_right g.blocksize h
  have hupper := Nat.mul_le_mul_right g.blocksize hlen
  rw [Nat.add_mul, Nat.add_mul] at hupper
  constructor
  · omega
  · omega

/-- Chunks that start at different multiples have no byte in common. -/
theorem span_inj {b b' x : Nat} (hb : g.rdbufsize ∣ b) (hb' : g.rdbufsize ∣ b') (h : x ∈ g.span b)
    (h' : x ∈ g.span b') : b = b' := by
  -- of two different multiples the greater one starts behind the other chunk
  have hlt : ∀ {b b' : Nat}, g.rdbufsize ∣ b → g.rdbufsize ∣ b' → x ∈ g.span b → x ∈ g.span b' →
      ¬ b < b' := by
    intro b b' hb hb' h h' hlt
    have hstep : b + g.rdbufsize ≤ b' := by
      obtain ⟨m, rfl⟩ := hb
      obtain ⟨n, rfl⟩ := hb'
      have hmn : m + 1 ≤ n := Nat.lt_of_mul_lt_mul_left hlt
      have := Nat.mul_le_mul_left g.rdbufsize hmn
      exact this
    have hlen : b + g.writebufferIoLen b ≤ b' := by
      unfold writebufferIoLen
      omega
    have hmul := Nat.mul_le_mul_right g.blocksize hlen
    rw [Nat.add_mul] at hmul
    have := h.2
    have := h'.1
    omega
  have h₁ := hlt hb hb' h h'
  have h₂ := hlt hb' hb h' h
  omega

end Geometry

/-! ## Chunks that are changed -/

namespace State

variable (s : State) (c d : Fin 8)

theorem setChunk_self (f : Chunk → Chunk) : (s.setChunk c f).chunks c = f (s.chunks c) :=
  Function.update_self ..

theorem setChunk_of_ne {c d : Fin 8} (h : d ≠ c) (f : Chunk → Chunk) :
    (s.setChunk c f).chunks d = s.chunks d := Function.update_of_ne h ..

/-- A field that is not changed. -/
theorem setChunk_kept {β : Type} (π : Chunk → β) {f : Chunk → Chunk}
    (h : ∀ chunk, π (f chunk) = π chunk) : π ((s.setChunk c f).chunks d) = π (s.chunks d) := by
  by_cases hd : d = c
  · rw [hd, setChunk_self, h]
  · rw [setChunk_of_ne s hd]

@[simp] theorem setDirty_self (b : Bool) : ((s.setDirty c b).chunks c).dirty = b := by
  unfold setDirty
  rw [setChunk_self]

theorem setDirty_of_ne {c d : Fin 8} (h : d ≠ c) (b : Bool) :
    ((s.setDirty c b).chunks d).dirty = (s.chunks d).dirty := by
  unfold setDirty
  rw [setChunk_of_ne s h]

@[simp] theorem setDirty_blockStart (b : Bool) :
    ((s.setDirty c b).chunks d).blockStart = (s.chunks d).blockStart :=
  s.setChunk_kept c d Chunk.blockStart fun _ => rfl

@[simp] theorem setDirty_data (b : Bool) : ((s.setDirty c b).chunks d).data = (s.chunks d).data :=
  s.setChunk_kept c d Chunk.data fun _ => rfl

@[simp] theorem setData_blockStart (f : Memory UInt8 → Memory UInt8) :
    ((s.setData c f).chunks d).blockStart = (s.chunks d).blockStart :=
  s.setChunk_kept c d Chunk.blockStart fun _ => rfl

end State

/-! ## The invariant -/

/-- The buffered chunks and the device. -/
def abs (g : Geometry) (s : State) : Cache (Fin 8) Nat UInt8 where
  store := s.disk
  resident := {c | c ∈ s.bufferedBlocks}
  dirty := {c | (s.chunks c).dirty = true}
  range c := g.span (s.chunks c).blockStart
  data c := g.placed (s.chunks c).blockStart (s.chunks c).data

/-- No chunk is lost or there twice, and those that are buffered are
different parts of the device. -/
structure Wf (g : Geometry) (held : List (Fin 8)) (s : State) : Prop where
  chunks : (held ++ s.bufferedBlocks ++ s.idleBlocks).Perm (List.finRange 8)
  aligned : ∀ c ∈ s.bufferedBlocks, g.rdbufsize ∣ (s.chunks c).blockStart
  inside : ∀ c ∈ s.bufferedBlocks, (s.chunks c).blockStart < g.numBlocks
  distinct : ∀ c ∈ s.bufferedBlocks, ∀ d ∈ s.bufferedBlocks,
    (s.chunks c).blockStart = (s.chunks d).blockStart → c = d

structure Inv (g : Geometry) (D : Set Nat) (φ : Prop) (held : List (Fin 8)) (a : Memory UInt8)
    (s : State) : Prop where
  wf : Wf g held s
  shows : (abs g s).Shows D a
  /-- What is not read is in `D`. -/
  discarded : ∀ b < g.numBlocks, g.rdbufsize ∣ b → s.discards g b → ∀ x ∈ g.span b, x ∈ D
  faults : ∀ e, Ret.err e ∈ s.faults → φ

variable {g : Geometry} {D : Set Nat} {φ : Prop} {held : List (Fin 8)} {a : Memory UInt8} {s : State}

theorem Wf.apart (h : Wf g held s) : (abs g s).Apart := by
  intro c hc d hd x hx hx'
  exact h.distinct c hc d hd (Geometry.span_inj (h.aligned c hc) (h.aligned d hd) hx hx')

theorem Wf.nodup (h : Wf g held s) : (held ++ s.bufferedBlocks ++ s.idleBlocks).Nodup :=
  h.chunks.nodup_iff.mpr (nodup_finRange 8)

/-- What is buffered was buffered before, at the same place. -/
theorem Wf.of_places {held' : List (Fin 8)} {s' : State} (h : Wf g held s)
    (hchunks : (held' ++ s'.bufferedBlocks ++ s'.idleBlocks).Perm (List.finRange 8))
    (hplaces : ∀ d ∈ s'.bufferedBlocks, d ∈ s.bufferedBlocks
      ∧ (s'.chunks d).blockStart = (s.chunks d).blockStart) : Wf g held' s' where
  chunks := hchunks
  aligned := by
    intro d hd
    obtain ⟨hmem, hplace⟩ := hplaces d hd
    rw [hplace]
    exact h.aligned d hmem
  inside := by
    intro d hd
    obtain ⟨hmem, hplace⟩ := hplaces d hd
    rw [hplace]
    exact h.inside d hmem
  distinct := by
    intro d hd e he
    rw [(hplaces d hd).2, (hplaces e he).2]
    exact h.distinct d (hplaces d hd).1 e (hplaces e he).1

/-- The order of the list does not matter. -/
theorem Wf.reorder (h : Wf g held s) {l : List (Fin 8)} (hl : l.Perm s.bufferedBlocks) :
    Wf g held { s with bufferedBlocks := l } :=
  h.of_places (((hl.append_left held).append_right s.idleBlocks).trans h.chunks)
    fun _ hd => ⟨hl.mem_iff.mp hd, rfl⟩

theorem Inv.reorder (h : Inv g D φ held a s) {l : List (Fin 8)} (hl : l.Perm s.bufferedBlocks) :
    Inv g D φ held a { s with bufferedBlocks := l } := by
  refine ⟨h.wf.reorder hl, ?_, h.discarded, h.faults⟩
  have habs : abs g { s with bufferedBlocks := l } = abs g s :=
    Cache.ext rfl (Set.ext fun c => hl.mem_iff) rfl rfl rfl
  rw [habs]
  exact h.shows

/-! ## The device -/

/-- The next result: nothing but the list of results changes. -/
theorem nextResult_spec (hφ : ∀ e, Ret.err e ∈ s.faults → φ) :
    wp nextResult (fun ret s' => ∃ faults, s' = { s with faults := faults } ∧
      (∀ e, Ret.err e ∈ faults → φ) ∧ ∀ e, ret = .err e → φ) (fun _ _ => False) s := by
  unfold nextResult
  rw [wp_bind, wp_get]
  cases hf : s.faults with
  | nil => exact ⟨s.faults, rfl, hφ, nofun⟩
  | cons ret faults =>
    rw [hf] at hφ
    refine ⟨faults, rfl, fun e he => hφ e (.tail _ he), ?_⟩
    intro e he
    cases he
    exact hφ e (.head _)

theorem Inv.setFaults (h : Inv g D φ held a s) {faults : List Ret}
    (hφ : ∀ e, Ret.err e ∈ faults → φ) : Inv g D φ held a { s with faults := faults } :=
  ⟨⟨h.wf.chunks, h.wf.aligned, h.wf.inside, h.wf.distinct⟩, h.shows, h.discarded, hφ⟩

/-- The chunk, when it has been written to the device. -/
def written (g : Geometry) (c : Fin 8) (s : State) : State :=
  let blockStart := (s.chunks c).blockStart
  State.setDirty { s with
    disk := copy s.disk (blockStart * g.blocksize) (s.chunks c).data 0
      (g.writebufferIoLen blockStart * g.blocksize) } c false

/-- Writing a chunk to the device writes it back in the abstract cache. -/
theorem abs_written (c : Fin 8) :
    abs g (written g c s) = (abs g s).writeBack c := by
  refine Cache.ext (funext fun x => ?_) rfl (Set.ext fun d => ?_) (funext fun d => ?_)
    (funext fun d => ?_)
  · show copy s.disk _ (s.chunks c).data 0 _ x = _
    by_cases hx : x ∈ g.span (s.chunks c).blockStart
    · rw [copy_of_mem hx, Nat.zero_add, ← Geometry.placed_of_mem hx (s.chunks c).data]
      exact (if_pos hx).symm
    · rw [copy_of_not_mem hx]
      exact (if_neg hx).symm
  · by_cases hd : d = c
    · subst hd
      simp [abs, written, Cache.writeBack]
    · simp [abs, written, Cache.writeBack, State.setDirty_of_ne _ hd, hd]
  · simp [abs, written, Cache.writeBack]
  · simp [abs, written, Cache.writeBack]

variable {c : Fin 8}

/-- Writing a chunk leaves the lists and the places of the chunks alone. -/
theorem Inv.written (h : Inv g D φ held a s) (hc : c ∈ s.bufferedBlocks) :
    Inv g D φ held a (written g c s) := by
  refine ⟨h.wf.of_places h.wf.chunks fun d hd => ⟨hd, ?_⟩, ?_, h.discarded, h.faults⟩
  · exact State.setDirty_blockStart ..
  · rw [abs_written]
    exact h.shows.writeBack hc

/-- A chunk is written back if it has to be. -/
theorem writeChunk_spec (h : Inv g D φ held a s) (hc : c ∈ s.bufferedBlocks) : wp (writeChunk g c)
      (fun _ s' => Inv g D φ held a s' ∧ s'.bufferedBlocks = s.bufferedBlocks ∧
        s'.idleBlocks = s.idleBlocks ∧ (s'.chunks c).dirty = false ∧
        ∀ d, (s'.chunks d).blockStart = (s.chunks d).blockStart ∧
          ((s.chunks d).dirty = false → (s'.chunks d).dirty = false))
      (fun _ s' => Inv g D φ held a s' ∧ φ) s := by
  unfold writeChunk
  rw [wp_bind, wp_get]
  split
  case isFalse hclean =>
    exact ⟨h, rfl, rfl, Bool.eq_false_iff.mpr hclean, fun d => ⟨rfl, id⟩⟩
  case isTrue hdirty =>
    unfold opsWrite
    rw [wp_bind, wp_bind]
    refine wp_mono (nextResult_spec h.faults) ?_ (fun _ _ hE => hE.elim)
    intro ret s' ⟨faults, hs', hfaults, herr⟩
    subst hs'
    have hinv := h.setFaults hfaults
    cases ret with
    | err e => exact ⟨hinv, herr e rfl⟩
    | ok =>
      refine ⟨hinv.written hc, rfl, rfl, ?_, fun d => ⟨?_, ?_⟩⟩
      · exact State.setDirty_self ..
      · exact State.setDirty_blockStart ..
      · intro hd
        by_cases heq : d = c
        · rw [heq]
          exact State.setDirty_self ..
        · exact (State.setDirty_of_ne _ heq _).trans hd

/-! ## Finding a chunk -/

variable {block : Nat}

theorem holds_iff {chunk : Chunk} : holds g block chunk = true ↔
    chunk.blockStart ≤ block ∧ block < chunk.blockStart + g.rdbufsize := decide_eq_true_iff

/-- The chunk that holds a block starts at the multiple below it. -/
theorem eq_of_holds {b : Nat} (hb : g.rdbufsize ∣ b) (h : b ≤ block)
    (h' : block < b + g.rdbufsize) : b = block / g.rdbufsize * g.rdbufsize := by
  obtain ⟨m, rfl⟩ := hb
  have hdiv : block / g.rdbufsize = m := by
    rw [Nat.div_eq_iff g.rdbufsize_pos, Nat.mul_comm m]
    omega
  rw [hdiv, Nat.mul_comm]

/-- A block is in one chunk at most. -/
theorem Wf.unique (h : Wf g held s) {d : Fin 8} (hc : c ∈ s.bufferedBlocks)
    (hd : d ∈ s.bufferedBlocks) (hcb : holds g block (s.chunks c)) (hdb : holds g block (s.chunks d)) : c = d := by
  refine h.distinct c hc d hd ?_
  obtain ⟨hc₁, hc₂⟩ := holds_iff.mp hcb
  obtain ⟨hd₁, hd₂⟩ := holds_iff.mp hdb
  rw [eq_of_holds (h.aligned c hc) hc₁ hc₂, eq_of_holds (h.aligned d hd) hd₁ hd₂]

/-- A search changes the order of the list only. -/
theorem chunkGetCached_spec (g : Geometry) (block : Nat) (s : State) : wp (chunkGetCached g block)
      (fun r s' => ∃ l, l.Perm s.bufferedBlocks ∧ s' = { s with bufferedBlocks := l } ∧
        (r = none → ∀ c ∈ s.bufferedBlocks, holds g block (s.chunks c) = false) ∧
        ∀ c, r = some c → c ∈ s.bufferedBlocks ∧ holds g block (s.chunks c))
      (fun _ _ => False) s := by
  unfold chunkGetCached
  rw [wp_bind, wp_get]
  cases hfind : s.bufferedBlocks.find? fun c => holds g block (s.chunks c) with
  | none =>
    refine ⟨s.bufferedBlocks, .rfl, rfl, fun _ c hc => ?_, nofun⟩
    exact Bool.eq_false_iff.mpr (find?_eq_none.mp hfind c hc)
  | some c =>
    have hmem := mem_of_find?_eq_some hfind
    refine ⟨_, (perm_cons_erase hmem).symm, rfl, nofun, fun d hd => ?_⟩
    cases hd
    have hholds := find?_some hfind
    exact ⟨hmem, hholds⟩

/-- A pointer to the data of a block. -/
structure PointsTo (g : Geometry) (s : State) (block : Nat) (p : Fin 8 × Nat) : Prop where
  mem : p.1 ∈ s.bufferedBlocks
  holds : holds g block (s.chunks p.1)
  off : p.2 = (block - (s.chunks p.1).blockStart) * g.blocksize

/-- A hit moves the chunk to the front; the others keep their order. -/
theorem blockGetCached_spec (g : Geometry) (block : Nat) (s : State) : wp (blockGetCached g block)
      (fun r s' => ∃ l, l.Perm s.bufferedBlocks ∧ s' = { s with bufferedBlocks := l } ∧
        (r = none → ∀ c ∈ s.bufferedBlocks, holds g block (s.chunks c) = false) ∧
        ∀ p, r = some p → PointsTo g s' block p)
      (fun _ _ => False) s := by
  refine wp_seq (chunkGetCached_spec g block s) ?_
  intro r s' ⟨l, hl, hs', hnone, hsome⟩
  subst hs'
  cases r with
  | none => exact ⟨l, hl, rfl, fun _ => hnone rfl, nofun⟩
  | some c =>
    refine ⟨l, hl, rfl, nofun, fun p hp => ?_⟩
    cases hp
    obtain ⟨hc, hholds⟩ := hsome c rfl
    exact ⟨hl.mem_iff.mpr hc, hholds, rfl⟩

/-! ## Getting a chunk -/

theorem Wf.not_mem_buffered (h : Wf g [c] s) : c ∉ s.bufferedBlocks := by
  have hnodup := h.nodup
  rw [append_assoc, singleton_append, nodup_cons] at hnodup
  exact fun hc => hnodup.1 (mem_append_left _ hc)

/-- An idle chunk is taken. -/
theorem Inv.takeIdle (h : Inv g D φ [] a s) {idle : List (Fin 8)} (hidle : s.idleBlocks = c :: idle) :
    Inv g D φ [c] a { s with idleBlocks := s.idleBlocks.erase c } := by
  refine ⟨⟨?_, h.wf.aligned, h.wf.inside, h.wf.distinct⟩, h.shows, h.discarded, h.faults⟩
  have hchunks := h.wf.chunks
  rw [hidle] at hchunks
  rw [hidle, erase_cons_head]
  have hperm : (s.bufferedBlocks ++ c :: idle).Perm (c :: (s.bufferedBlocks ++ idle)) :=
    perm_middle
  exact hperm.symm.trans hchunks

/-- A chunk that is not dirty is taken out of the cache. -/
theorem Inv.takeBuffered (h : Inv g D φ [] a s) (hc : c ∈ s.bufferedBlocks)
    (hclean : (s.chunks c).dirty = false) :
    Inv g D φ [c] a { s with bufferedBlocks := s.bufferedBlocks.erase c } := by
  have hnodup : s.bufferedBlocks.Nodup := by
    have := h.wf.nodup
    exact (nodup_append.mp this).1
  have habs : abs g { s with bufferedBlocks := s.bufferedBlocks.erase c } = (abs g s).drop c := by
    refine Cache.ext rfl (Set.ext fun d => ?_) rfl rfl rfl
    show d ∈ s.bufferedBlocks.erase c ↔ d ∈ s.bufferedBlocks ∧ d ≠ c
    rw [hnodup.mem_erase_iff, and_comm]
  refine ⟨h.wf.of_places ?_ fun d hd => ⟨mem_of_mem_erase hd, rfl⟩, ?_, h.discarded, h.faults⟩
  · have hchunks := h.wf.chunks
    exact ((perm_cons_erase hc).symm.append_right s.idleBlocks).trans hchunks
  · rw [habs]
    exact h.shows.drop (Bool.eq_false_iff.mp hclean)

/-- There is always a chunk to get. What stays in the cache stays in its
place. -/
theorem getChunk_spec (h : Inv g D φ [] a s) : wp (getChunk g)
      (fun c s' => Inv g D φ [c] a s' ∧ ∀ d ∈ s'.bufferedBlocks, d ∈ s.bufferedBlocks ∧
        (s'.chunks d).blockStart = (s.chunks d).blockStart)
      (fun _ s' => Inv g D φ [] a s' ∧ φ) s := by
  unfold getChunk
  rw [wp_bind, wp_get]
  cases hidle : s.idleBlocks with
  | cons c idle => exact ⟨h.takeIdle hidle, fun d hd => ⟨hd, rfl⟩⟩
  | nil =>
    cases hlast : s.bufferedBlocks.getLast? with
    | none =>
      -- the eight chunks would be in no list
      have hchunks := h.wf.chunks
      rw [hidle, getLast?_eq_none_iff.mp hlast] at hchunks
      exact absurd hchunks.length_eq (by decide)
    | some c =>
      have hc := mem_of_getLast? hlast
      refine wp_seq (writeChunk_spec h hc) ?_
      intro _ s' hs'
      obtain ⟨hinv, hbuffered, -, hclean, hplaces⟩ := hs'
      refine ⟨hinv.takeBuffered (hbuffered ▸ hc) hclean, fun d hd => ?_⟩
      have hd : d ∈ s'.bufferedBlocks := mem_of_mem_erase hd
      exact ⟨hbuffered ▸ hd, (hplaces d).1⟩

/-! ## Filling a chunk -/

/-- The chunk, with the bytes from a block on, in front of the list. -/
def loaded (c : Fin 8) (blockStart : Nat) (data : Memory UInt8) (s : State) : State :=
  { s.setChunk c (fun chunk => ⟨data, blockStart, chunk.dirty⟩) with
    bufferedBlocks := c :: s.bufferedBlocks }

theorem loaded_eq (c : Fin 8) (b : Nat) (f : Memory UInt8 → Memory UInt8) (s : State) :
    loaded c b (f (s.chunks c).data) s
      = { (s.setBlockStart c b).setData c f with bufferedBlocks := c :: s.bufferedBlocks } := by
  simp [loaded, State.setBlockStart, State.setData, State.setChunk]

/-- A chunk that is changed is a line that is reused. -/
theorem abs_setChunk (g : Geometry) (s : State) (c : Fin 8) {f : Chunk → Chunk}
    (hf : ∀ chunk, (f chunk).dirty = chunk.dirty) :
    abs g (s.setChunk c f) = (abs g s).reuse c (g.span (f (s.chunks c)).blockStart)
      (g.placed (f (s.chunks c)).blockStart (f (s.chunks c)).data) := by
  refine Cache.ext rfl rfl (Set.ext fun d => ?_) (funext fun d => ?_) (funext fun d => ?_)
  · show ((s.setChunk c f).chunks d).dirty = true ↔ (s.chunks d).dirty = true
    rw [s.setChunk_kept c d Chunk.dirty hf]
  all_goals
    dsimp only [abs, Cache.reuse]
    by_cases hd : d = c
    · rw [hd, State.setChunk_self, Function.update_self]
    · rw [State.setChunk_of_ne s hd, Function.update_of_ne hd]

theorem abs_loaded (b : Nat) (data : Memory UInt8) :
    abs g (loaded c b data s) = (abs g s).load c (g.span b) (g.placed b data) := by
  have habs := abs_setChunk g s c (f := fun chunk => ⟨data, b, chunk.dirty⟩) fun _ => rfl
  unfold Cache.load
  rw [← habs]
  refine Cache.ext rfl (Set.ext fun d => ?_) rfl rfl rfl
  exact mem_cons

/-- A chunk that is held is put to use, for blocks that no other chunk has. -/
theorem Inv.loaded (h : Inv g D φ [c] a s) {b : Nat} {data : Memory UInt8}
    (hb : g.rdbufsize ∣ b) (hb' : b < g.numBlocks)
    (hfree : ∀ d ∈ s.bufferedBlocks, (s.chunks d).blockStart ≠ b)
    (hdata : ∀ x ∈ g.span b, x ∉ D → data (x - b * g.blocksize) = s.disk x) :
    Inv g D φ [] a (loaded c b data s) := by
  have hc := h.wf.not_mem_buffered
  have hself : (Block.loaded c b data s).chunks c = ⟨data, b, (s.chunks c).dirty⟩ :=
    s.setChunk_self c fun chunk => ⟨data, b, chunk.dirty⟩
  have hother : ∀ d ≠ c, (Block.loaded c b data s).chunks d = s.chunks d :=
    fun d hd => s.setChunk_of_ne hd fun chunk => ⟨data, b, chunk.dirty⟩
  have hne : ∀ d ∈ s.bufferedBlocks, d ≠ c := fun d hd heq => hc (heq ▸ hd)
  refine ⟨⟨?_, ?_, ?_, ?_⟩, ?_, h.discarded, h.faults⟩
  · have hchunks := h.wf.chunks
    exact hchunks
  · intro d hd
    cases hd with
    | head =>
      rw [hself]
      exact hb
    | tail _ hd =>
      rw [hother d (hne d hd)]
      exact h.wf.aligned d hd
  · intro d hd
    cases hd with
    | head =>
      rw [hself]
      exact hb'
    | tail _ hd =>
      rw [hother d (hne d hd)]
      exact h.wf.inside d hd
  · -- two chunks of one start: the new one has a start that was free
    intro d hd e he heq
    cases hd with
    | head =>
      cases he with
      | head => rfl
      | tail _ he =>
        rw [hself, hother e (hne e he)] at heq
        exact absurd heq.symm (hfree e he)
    | tail _ hd =>
      cases he with
      | head =>
        rw [hself, hother d (hne d hd)] at heq
        exact absurd heq (hfree d hd)
      | tail _ he =>
        rw [hother d (hne d hd), hother e (hne e he)] at heq
        exact h.wf.distinct d hd e he heq
  · rw [abs_loaded]
    refine h.shows.load hc ?_ fun x hx hxD => ?_
    · intro x hx d hd hx'
      exact hfree d hd (Geometry.span_inj (h.wf.aligned d hd) hb hx' hx)
    · rw [Geometry.placed_of_mem hx]
      exact hdata x hx hxD

/-- A chunk that could not be read becomes idle. -/
theorem Inv.putBack (h : Inv g D φ [c] a s) (b : Nat) :
    Inv g D φ [] a { s.setBlockStart c b with idleBlocks := s.idleBlocks ++ [c] } := by
  have hc := h.wf.not_mem_buffered
  refine ⟨h.wf.of_places ?_ fun d hd => ⟨hd, ?_⟩, ?_, h.discarded, h.faults⟩
  · have hchunks := h.wf.chunks
    have hperm : ([c] ++ (s.bufferedBlocks ++ s.idleBlocks)).Perm
        (s.bufferedBlocks ++ s.idleBlocks ++ [c]) := perm_append_comm
    rw [append_assoc] at hchunks hperm
    exact hperm.symm.trans hchunks
  · have hne : d ≠ c := fun heq => hc (heq ▸ hd)
    exact congrArg Chunk.blockStart (s.setChunk_of_ne hne fun chunk => { chunk with blockStart := b })
  · have habs : abs g (s.setBlockStart c b) = _ :=
      abs_setChunk g s c fun _ => rfl
    have hshows : (abs g (s.setBlockStart c b)).Shows D a := habs ▸ h.shows.reuse hc _ _
    exact hshows

section

variable (h : Inv g D φ [] a s)
include h

/-- A block that is not in the cache gets there. -/
theorem blockCache_spec (hblock : block < g.numBlocks)
    (hfree : ∀ c ∈ s.bufferedBlocks, holds g block (s.chunks c) = false) : wp (blockCache g block)
      (fun _ s' => Inv g D φ [] a s' ∧ ∃ c ∈ s'.bufferedBlocks, holds g block (s'.chunks c))
      (fun _ s' => Inv g D φ [] a s' ∧ φ) s := by
  have hpos := g.rdbufsize_pos
  have hstart := g.chunkStart_eq (Nat.lt_trans hblock g.numBlocks_lt)
  have hdvd : g.rdbufsize ∣ chunkStart g block := hstart ▸ Nat.dvd_mul_left ..
  have hle : chunkStart g block ≤ block := hstart ▸ Nat.div_mul_le_self ..
  have hlt : block < chunkStart g block + g.rdbufsize := by
    have hmod := Nat.div_add_mod block g.rdbufsize
    have := Nat.mod_lt block hpos
    rw [Nat.mul_comm] at hmod
    omega
  refine wp_seq (getChunk_spec h) ?_
  intro c s₁ ⟨hinv, hplaces⟩
  generalize chunkStart g block = b at hdvd hle hlt
  have hb : b < g.numBlocks := Nat.lt_of_le_of_lt hle hblock
  have hfree₁ : ∀ d ∈ s₁.bufferedBlocks, (s₁.chunks d).blockStart ≠ b := by
    intro d hd heq
    obtain ⟨hd', hplace⟩ := hplaces d hd
    have hholds : holds g block (s.chunks d) := by
      rw [holds_iff, ← hplace, heq]
      exact ⟨hle, hlt⟩
    rw [hfree d hd'] at hholds
    cases hholds
  -- what is loaded holds the block
  have hdone : ∀ (data : Memory UInt8) (s₁ : State), Inv g D φ [] a (loaded c b data s₁) →
      Inv g D φ [] a (loaded c b data s₁) ∧ ∃ d ∈ (loaded c b data s₁).bufferedBlocks,
        holds g block ((loaded c b data s₁).chunks d) := by
    intro data s₁ hloaded
    refine ⟨hloaded, c, .head _, ?_⟩
    have hself : (loaded c b data s₁).chunks c = ⟨data, b, (s₁.chunks c).dirty⟩ :=
      s₁.setChunk_self c fun chunk => ⟨data, b, chunk.dirty⟩
    rw [hself, holds_iff]
    exact ⟨hle, hlt⟩
  rw [wp_bind, wp_modify, wp_bind, wp_get]
  split
  case isTrue hdiscards =>
    have hend := hdone (copy (s₁.chunks c).data 0 (fun _ => 0) 0 (g.writebufferIoLen b)) s₁
      (hinv.loaded hdvd hb hfree₁ fun x hx hxD =>
        absurd (hinv.discarded b hb hdvd hdiscards x hx) hxD)
    rw [loaded_eq c b (fun data => copy data 0 (fun _ => 0) 0 (g.writebufferIoLen b)) s₁] at hend
    exact hend
  case isFalse =>
    unfold opsRead
    rw [wp_bind, wp_bind]
    refine wp_mono (nextResult_spec hinv.faults) ?_ (fun _ _ hE => hE.elim)
    intro ret s₂ ⟨faults, hs₂, hfaults, herr⟩
    subst hs₂
    have hinv₂ := hinv.setFaults hfaults
    cases ret with
    | err e => exact ⟨hinv₂.putBack b, herr e rfl⟩
    | ok =>
      have hloaded : Inv g D φ [] a (loaded c b (copy (s₁.chunks c).data 0 s₁.disk (b * g.blocksize)
          (g.writebufferIoLen b * g.blocksize)) { s₁ with faults := faults }) := by
        refine hinv₂.loaded hdvd hb hfree₁ fun x hx _ => ?_
        have hmem : 0 ≤ x - b * g.blocksize ∧
            x - b * g.blocksize < 0 + g.writebufferIoLen b * g.blocksize := by
          have := hx.1
          have := hx.2
          omega
        rw [copy_of_mem hmem, Nat.sub_zero, Nat.add_sub_cancel' hx.1]
      have hend := hdone _ _ hloaded
      rw [loaded_eq c b (fun data => copy data 0 s₁.disk (b * g.blocksize)
        (g.writebufferIoLen b * g.blocksize)) { s₁ with faults := faults }] at hend
      exact hend

/-- The data of a block, from the cache or from the device. -/
theorem blockGet_spec (hblock : block < g.numBlocks) :
    wp (blockGet g block) (fun p s' => Inv g D φ [] a s' ∧ PointsTo g s' block p)
      (fun _ s' => Inv g D φ [] a s' ∧ φ) s := by
  unfold blockGet
  rw [if_neg (Nat.not_le.mpr hblock), wp_bind]
  refine wp_mono (blockGetCached_spec g block s) ?_ (fun _ _ hE => hE.elim)
  intro r s₁ ⟨l, hl, hs₁, hnone, hsome⟩
  have hinv : Inv g D φ [] a s₁ := hs₁ ▸ h.reorder hl
  cases r with
  | some p => exact ⟨hinv, hsome p rfl⟩
  | none =>
    have hfree : ∀ c ∈ s₁.bufferedBlocks, holds g block (s₁.chunks c) = false := by
      subst hs₁
      exact fun c hc => hnone rfl c (hl.mem_iff.mp hc)
    refine wp_seq (blockCache_spec hinv hblock hfree) ?_
    intro _ s₂ ⟨hinv₂, c, hc, hholds⟩
    rw [wp_bind]
    refine wp_mono (blockGetCached_spec g block s₂) ?_ (fun _ _ hE => hE.elim)
    intro r s₃ ⟨l, hl, hs₃, hnone, hsome⟩
    cases r with
    | some p => exact ⟨hs₃ ▸ hinv₂.reorder hl, hsome p rfl⟩
    | none =>
      -- it has just been put there
      rw [hnone rfl c hc] at hholds
      cases hholds

omit h in
/-- The bytes of a block, where a pointer to it points to. -/
theorem Inv.data_eq (h : Inv g D φ held a s) {p : Fin 8 × Nat}
    (hblock : block < g.numBlocks) (hp : PointsTo g s block p) {i : Nat} (hi : i < g.blocksize)
    (hD : block * g.blocksize + i ∉ D) : (s.chunks p.1).data (p.2 + i) = a (block * g.blocksize + i) := by
  obtain ⟨hle, hlt⟩ := holds_iff.mp hp.holds
  have hspan := Geometry.mem_span hle hlt hblock hi
  have hdata := h.shows.cached p.1 hp.mem _ hspan hD
  have hmul := Nat.mul_le_mul_right g.blocksize hle
  have hoff : p.2 + i = block * g.blocksize + i - (s.chunks p.1).blockStart * g.blocksize := by
    rw [hp.off, Nat.sub_mul]
    omega
  rw [hoff, ← Geometry.placed_of_mem hspan (s.chunks p.1).data]
  exact hdata

/-! ## Flushing -/

/-- The loop of a flush: behind it no chunk is dirty. -/
theorem writeChunks_spec : wp (s.bufferedBlocks.forM (writeChunk g))
      (fun _ s' => Inv g D φ [] a s' ∧ ∀ c ∈ s'.bufferedBlocks, (s'.chunks c).dirty = false)
      (fun _ s' => Inv g D φ [] a s' ∧ φ) s := by
  -- the chunks that the loop has passed are clean
  let clean (l : List (Fin 8)) (s' : State) : Prop :=
    Inv g D φ [] a s' ∧ s'.bufferedBlocks = s.bufferedBlocks ∧ (∀ c ∈ l, c ∈ s.bufferedBlocks) ∧
      ∀ c ∈ s.bufferedBlocks, c ∉ l → (s'.chunks c).dirty = false
  have hloop : wp (s.bufferedBlocks.forM (writeChunk g)) (fun _ s' => clean [] s')
      (fun _ s' => Inv g D φ [] a s' ∧ φ) s := by
    refine wp_forM ?_ ⟨h, rfl, fun c hc => hc, fun c hc hn => absurd hc hn⟩
    intro c l s₁ ⟨hinv, hbuffered, hsub, hclean⟩
    refine wp_mono (writeChunk_spec hinv (hbuffered ▸ hsub c (.head _))) ?_ (fun _ _ hE => hE)
    intro _ s₂ hs₂
    obtain ⟨hinv₂, hbuffered₂, -, hc, hkept⟩ := hs₂
    refine ⟨hinv₂, hbuffered₂.trans hbuffered, fun d hd => hsub d (.tail _ hd), ?_⟩
    intro d hd hdl
    by_cases heq : d = c
    · rw [heq]
      exact hc
    · exact (hkept d).2 (hclean d hd (not_mem_cons_of_ne_of_not_mem heq hdl))
  refine wp_mono hloop ?_ (fun _ _ hE => hE)
  intro _ s' hs'
  obtain ⟨hinv, hbuffered, -, hclean⟩ := hs'
  exact ⟨hinv, fun c hc => hclean c (hbuffered ▸ hc) not_mem_nil⟩

/-- After a flush that succeeds the device is up to date. -/
theorem writebufferFlush_spec :
    wp (writebufferFlush g) (fun _ s' => Inv g D φ [] a s' ∧ ∀ x ∉ D, s'.disk x = a x)
      (fun _ s' => Inv g D φ [] a s' ∧ φ) s := by
  unfold writebufferFlush
  rw [wp_bind]
  refine wp_seq (writeChunks_spec h) ?_
  intro _ s₁ ⟨hinv, hclean⟩
  have hdisk : ∀ x ∉ D, s₁.disk x = a x := fun x hx =>
    hinv.shows.flushed (fun c hc => Bool.eq_false_iff.mp (hclean c hc)) hx
  split
  case isFalse => exact ⟨hinv, hdisk⟩
  case isTrue =>
    rw [wp_bind]
    refine wp_mono (nextResult_spec hinv.faults) ?_ (fun _ _ hE => hE.elim)
    intro ret s₂ ⟨faults, hs₂, hfaults, herr⟩
    subst hs₂
    cases ret with
    | err e => exact ⟨hinv.setFaults hfaults, herr e rfl⟩
    | ok => exact ⟨hinv.setFaults hfaults, hdisk⟩

omit h in
/-- With nothing discarded every chunk is read. -/
theorem not_discards {b : Nat} (hb : b < g.numBlocks) (hstart : s.discardStart = 0)
    (hsize : s.discardSize = 0) : s.discards g b = false := by
  refine decide_eq_false fun h => ?_
  have hlen : 0 < g.writebufferIoLen b := by
    have := g.rdbufsize_pos
    unfold Geometry.writebufferIoLen
    omega
  omega

theorem blockOpFlush_spec :
    wp (blockOpFlush g) (fun _ s' => Inv g D φ [] a s' ∧ ∀ x ∉ D, s'.disk x = a x)
      (fun _ s' => Inv g D φ [] a s' ∧ φ) s := by
  refine writebufferFlush_spec ⟨⟨h.wf.chunks, h.wf.aligned, h.wf.inside, h.wf.distinct⟩, h.shows,
    fun b hb _ hdiscards => ?_, h.faults⟩
  rw [not_discards hb rfl rfl] at hdiscards
  cases hdiscards

end

end Barebox.Block
