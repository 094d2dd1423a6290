import Barebox.Block.Refine

/-!
# What a discard leaves alone — `common/block.c`

`block_op_discard_range` says that the bytes of a range need not be kept.
`block_cache` then does not read a chunk that lies in the range, but it
compares the first byte of the chunk plus its length in blocks with the end
of the range, which is a number of bytes. A chunk that starts in the range
and ends behind it may be taken for one that is inside.

`discard_keeps_iff` is that this is the only thing that can go wrong: what
is outside of the range is kept by every run if and only if every chunk that
is taken to be inside of the range is.
-/

namespace Barebox.Block

open Lib

/-- The state after a discard. -/
def discard (count offset : Nat) (s : State) : State :=
  match blockOpDiscardRange count offset s with
  | .ok _ s => s
  | .error _ s => s

/-- The bytes that a call writes. -/
def Op.written : Op → Set Nat
  | .read _ _ => ∅
  | .write data offset => bytesAt offset data.length
  | .flush => ∅

/-- Whatever is on the device, and was written before: what is outside of the
range and is not written after the discard is on the device after a flush,
and is what a read returns. -/
def DiscardKeeps (g : Geometry) (count offset : Nat) : Prop :=
  ∀ (disk : Memory UInt8) (dma : Fin 8 → Memory UInt8) (before after : List Op),
    (∀ op ∈ before, op.InRange g) → (∀ op ∈ after, op.InRange g) →
    let a := run Op.flat disk before
    let s := run (step g)
      (discard count offset (run (step g) (blockdeviceRegister disk dma []) before)) after
    let kept := fun x => x ∉ bytesAt offset count ∧ ∀ op ∈ after, x ∉ op.written
    (∀ x < g.size, kept x → (step g s .flush).disk x = a x) ∧
      ∀ n off, off + n ≤ g.size → ∃ b, result g s (.read n off) = .ok b ∧
        ∀ i < n, kept (off + i) → b[i]? = some (a (off + i))

/-- A chunk that is taken to be in the range is. -/
def TakenInside (g : Geometry) (count offset : Nat) : Prop :=
  ∀ b < g.numBlocks, g.rdbufsize ∣ b → offset ≤ b * g.blocksize →
    b * g.blocksize + g.writebufferIoLen b ≤ offset + count →
    b * g.blocksize + g.writebufferIoLen b * g.blocksize ≤ offset + count

variable {g : Geometry} {D : Set Nat} {a : Memory UInt8} {s : State} {count offset : Nat}

/-! ## Ranges that are handled well -/

variable {b block : Nat}

/-- A chunk is dropped if it is inside the range as a whole. -/
theorem discards_iff (hoffset : offset < 2 ^ 63) (hcount : count < 2 ^ 63) :
    (discard count offset s).discards g b = true ↔ offset ≤ b * g.blocksize ∧
      b * g.blocksize + g.writebufferIoLen b ≤ offset + count := by
  have hmod : (offset + count) % 2 ^ 64 = offset + count := Nat.mod_eq_of_lt (by omega)
  have hdef : (discard count offset s).discards g b
      = decide (b * g.blocksize ≥ offset ∧
        b * g.blocksize + g.writebufferIoLen b ≤ (offset + count) % 2 ^ 64) := rfl
  rw [hdef, hmod, decide_eq_true_iff]

/-- Dropping such chunks loses bytes of the range only. -/
theorem Inv.discard (h : Inv g ∅ False [] a s) (hoffset : offset < 2 ^ 63) (hcount : count < 2 ^ 63)
    (hinside : TakenInside g count offset) :
    Inv g (bytesAt offset count) False [] a (discard count offset s) := by
  refine ⟨⟨h.wf.chunks, h.wf.aligned, h.wf.inside, h.wf.distinct⟩, ?_, ?_, h.faults⟩
  · exact h.shows.mono fun x hx => absurd hx (Set.notMem_empty x)
  · intro b hb hdvd hdiscards x hx
    obtain ⟨hstart, hend⟩ := (discards_iff hoffset hcount).mp hdiscards
    have hchunk := hinside b hb hdvd hstart hend
    obtain ⟨hx₁, hx₂⟩ := hx
    constructor
    · omega
    · omega

/-- What is not written stays as it is in an array. -/
theorem flat_of_not_written {ops : List Op} {x : Nat} (hx : ∀ op ∈ ops, x ∉ op.written) :
    run Op.flat a ops x = a x := by
  induction ops generalizing a x with
  | nil => rfl
  | cons op ops ih =>
    rw [run_cons, ih fun op' hop' => hx op' (.tail _ hop')]
    cases op with
    | read count offset => rfl
    | write data offset => exact copy_of_not_mem (hx _ (.head _))
    | flush => rfl

theorem discardKeeps_of_takenInside (hoffset : offset < 2 ^ 63) (hcount : count < 2 ^ 63)
    (hinside : TakenInside g count offset) : DiscardKeeps g count offset := by
  intro disk dma before after hbefore hafter
  have hinit : Inv g ∅ False [] disk (blockdeviceRegister disk dma []) :=
    inv_register g disk dma nofun
  have hdiscard := (run_inv_of_inv hbefore hinit).discard hoffset hcount hinside
  have hrun := run_inv_of_inv hafter hdiscard
  refine ⟨?_, ?_⟩
  · intro x _ ⟨hx, hwritten⟩
    rw [step_flush hrun hx, flat_of_not_written hwritten]
  · intro n off hle
    have hop : (Op.read n off).InRange g := hle
    obtain ⟨-, b, hresult, hreads⟩ := step_spec hrun hop
    refine ⟨b, hresult, fun i hi ⟨hx, hwritten⟩ => ?_⟩
    rw [hreads.bytes i hi hx, flat_of_not_written hwritten]

/-! ## Ranges that are not -/

variable {c : Fin 8} {idle : List (Fin 8)}

/-- A chunk of a new device that is taken to be in the range is not read. -/
theorem blockCache_discards (hbuffered : s.bufferedBlocks = []) (hidle : s.idleBlocks = c :: idle)
    (hdiscards : s.discards g (chunkStart g block)) : wp (blockCache g block)
      (fun _ s' => s'.bufferedBlocks = [c] ∧ (s'.chunks c).data
        = copy (s.chunks c).data 0 (fun _ => 0) 0 (g.writebufferIoLen (chunkStart g block)))
      (fun _ _ => False) s := by
  have hget : ∀ {Q : Fin 8 → State → Prop} {E : Errno → State → Prop},
      Q c { s with idleBlocks := s.idleBlocks.erase c } → wp (getChunk g) Q E s := by
    intro Q E hQ
    unfold getChunk
    rw [wp_bind, wp_get, hidle]
    exact hQ
  unfold blockCache
  rw [wp_bind]
  refine hget ?_
  rw [wp_bind, wp_modify, wp_bind, wp_get]
  split
  case isFalse hreads => exact absurd hdiscards hreads
  case isTrue =>
    refine ⟨congrArg (c :: ·) hbuffered, ?_⟩
    simp [State.setData, State.setBlockStart, State.setChunk]

/-- The block is then read from memory that was never written. -/
theorem blockGet_discards (hblock : block < g.numBlocks) (hbuffered : s.bufferedBlocks = [])
    (hidle : s.idleBlocks = c :: idle) (hdata : ∀ i, (s.chunks c).data i = 0)
    (hdiscards : s.discards g (chunkStart g block)) :
    wp (blockGet g block) (fun p s' => ∀ i, (s'.chunks p.1).data i = 0) (fun _ _ => True) s := by
  unfold blockGet
  rw [if_neg (Nat.not_le.mpr hblock), wp_bind]
  refine wp_mono (blockGetCached_spec g block s) ?_ (fun _ _ _ => trivial)
  intro r s₁ ⟨l, hl, hs₁, _, hsome⟩
  rw [hbuffered, List.perm_nil] at hl
  subst hl hs₁
  cases r with
  | some p => exact absurd (hsome p rfl).mem List.not_mem_nil
  | none =>
    rw [wp_bind]
    -- the read is discarded, so the chunk keeps the zeros it had
    refine wp_mono (blockCache_discards rfl hidle hdiscards) ?_ (fun _ _ _ => trivial)
    intro _ s₂ ⟨hbuffered₂, hdata₂⟩
    rw [wp_bind]
    refine wp_mono (blockGetCached_spec g block s₂) ?_ (fun _ _ _ => trivial)
    intro r s₃ ⟨l, hl, hs₃, _, hsome⟩
    subst hs₃
    cases r with
    | none => trivial
    | some p =>
      have hmem := hl.mem_iff.mp (hsome p rfl).mem
      rw [hbuffered₂, List.mem_singleton] at hmem
      intro i
      rw [hmem, hdata₂]
      unfold copy
      split
      · rfl
      · exact hdata i

variable {E : Errno → State → Prop}

theorem wp_readFrom_zero {Q : Bytes → State → Prop} :
    wp (readFrom g 0 block) Q E s ↔ Q [] s := by
  unfold readFrom
  dsimp only
  rw [Nat.zero_shiftRight, Nat.zero_mul, wp_bind, readBlocks, wp_pure,
    if_neg (fun h => h rfl), wp_pure]

/-- Its last byte is 0, whatever the device has there. -/
theorem read_last_discards (hb : b < g.numBlocks) (hdvd : g.rdbufsize ∣ b)
    (hsize : 1 < g.blocksize) (hbuffered : s.bufferedBlocks = [])
    (hidle : s.idleBlocks = c :: idle) (hdata : ∀ i, (s.chunks c).data i = 0) (hdiscards : s.discards g b) :
    wp (blockOpRead g 1 ((b + g.writebufferIoLen b - 1) * g.blocksize + (g.blocksize - 1)))
      (fun bytes _ => bytes = [0]) (fun _ _ => True) s := by
  have hpos := g.rdbufsize_pos
  generalize hblock : b + g.writebufferIoLen b - 1 = block
  have hle : b ≤ block ∧ block < b + g.rdbufsize ∧ block < g.numBlocks := by
    unfold Geometry.writebufferIoLen at hblock
    omega
  have hstart : chunkStart g block = b := by
    rw [g.chunkStart_eq (Nat.lt_trans hle.2.2 g.numBlocks_lt), ← eq_of_holds hdvd hle.1 hle.2.1]
  have hdiv : (block * g.blocksize + (g.blocksize - 1)) / g.blocksize = block := by
    rw [Nat.mul_comm, Nat.mul_add_div g.blocksize_pos, Nat.div_eq_of_lt (by omega), Nat.add_zero]
  have hmod : (block * g.blocksize + (g.blocksize - 1)) % g.blocksize = g.blocksize - 1 := by
    rw [Nat.mul_comm, Nat.mul_add_mod, Nat.mod_eq_of_lt (by omega)]
  unfold blockOpRead readHead
  dsimp only
  rw [g.shiftRight_eq, g.and_mask_eq, hdiv, hmod, if_pos (by omega), wp_bind, wp_bind]
  refine wp_mono (blockGet_discards hle.2.2 hbuffered hidle hdata (hstart ▸ hdiscards)) ?_
    (fun _ _ _ => trivial)
  intro ⟨c', iobuf⟩ s₁ hzero
  have hmin : min 1 (g.blocksize - (g.blocksize - 1)) = 1 := by omega
  rw [wp_readData, wp_bind, hmin, length_peek]
  rw [wp_readFrom_zero]
  exact congrArg (fun v => [v]) (hzero _)

theorem result_of_wp {op : Op} {P : Bytes → Prop} {b : Bytes}
    (h : wp (op.call g) (fun b _ => P b) E s) (hresult : result g s op = .ok b) : P b := by
  unfold wp at h
  unfold result at hresult
  cases hc : op.call g s with
  | error e s' =>
    rw [hc] at hresult
    cases hresult
  | ok b' s' =>
    rw [hc] at h hresult
    cases hresult
    exact h

/-- A chunk that is taken and reaches beyond the range would lose a byte that was written there:
the run that shows it writes the byte, discards and reads it again. -/
theorem takenInside_of_discardKeeps (hoffset : offset < 2 ^ 63) (hcount : count < 2 ^ 63)
    (hkeeps : DiscardKeeps g count offset) : TakenInside g count offset := by
  intro b hb hdvd hstart hend
  refine Nat.le_of_not_lt fun hlt => ?_
  have hpos := g.rdbufsize_pos
  have hlen : 0 < g.writebufferIoLen b := by
    unfold Geometry.writebufferIoLen
    omega
  have hblocks : b + g.writebufferIoLen b ≤ g.numBlocks := by
    unfold Geometry.writebufferIoLen
    omega
  have hsize : 1 < g.blocksize := by
    refine Nat.lt_of_le_of_ne g.blocksize_pos fun hone => ?_
    rw [← hone] at hend hlt
    omega
  -- the last byte of the chunk
  generalize hx : (b + g.writebufferIoLen b - 1) * g.blocksize + (g.blocksize - 1) = x
  have hxlast : x + 1 = b * g.blocksize + g.writebufferIoLen b * g.blocksize := by
    have hmul : (b + g.writebufferIoLen b - 1 + 1) * g.blocksize = _ := Nat.succ_mul ..
    rw [Nat.sub_add_cancel (by omega), Nat.add_mul] at hmul
    omega
  have hxsize : x + 1 ≤ g.size := by
    have hmul := Nat.mul_le_mul_right g.blocksize hblocks
    rw [Nat.add_mul] at hmul
    unfold Geometry.size
    omega
  have hdiscards := (discards_iff (s := blockdeviceRegister (fun _ => 1) (fun _ _ => 0) [])
    hoffset hcount).mpr ⟨hstart, hend⟩
  have hlast := read_last_discards hb hdvd hsize rfl rfl (fun _ => rfl) hdiscards
  obtain ⟨-, hread⟩ := hkeeps (fun _ => 1) (fun _ _ => 0) [] [] nofun
    nofun
  obtain ⟨bytes, hresult, hbytes⟩ := hread 1 x hxsize
  have hone := hbytes 0 Nat.zero_lt_one ⟨fun hmem => by have := hmem.2; omega, nofun⟩
  rw [hx] at hlast
  have hcall : wp ((Op.read 1 x).call g) (fun b _ => b = [0]) (fun _ _ => True) _ := hlast
  have hzero := result_of_wp hcall hresult
  rw [hzero] at hone
  have hne : some (0 : UInt8) ≠ some 1 := by decide
  exact hne hone

/-- A discard leaves alone what is outside of its range, in every run, if and
only if each chunk is inside of the range that `block_cache` takes to be. -/
theorem discard_keeps_iff (g : Geometry) (count offset : Nat) (hcount : count < 2 ^ 63)
    (hoffset : offset < 2 ^ 63) : DiscardKeeps g count offset ↔ TakenInside g count offset :=
  ⟨takenInside_of_discardKeeps hoffset hcount, discardKeeps_of_takenInside hoffset hcount⟩

/-- The end of the range is the end of a chunk. -/
theorem sectors_discard_chunk : TakenInside sectors 65536 0 ∧ DiscardKeeps sectors 65536 0 := by
  have hinside : TakenInside sectors 65536 0 := by
    intro b hb hdvd _ hend
    have hrd : sectors.rdbufsize = 128 := by decide
    have hbs : sectors.blocksize = 512 := by decide
    have hlen : 0 < sectors.writebufferIoLen b := by
      unfold Geometry.writebufferIoLen
      omega
    -- only the first chunk starts in the range
    have hb0 : b = 0 := by
      rw [hrd] at hdvd
      rw [hbs] at hend
      omega
    subst hb0
    decide
  exact ⟨hinside, (discard_keeps_iff sectors 65536 0 (by decide) (by decide)).mpr hinside⟩

/-- 200 bytes are discarded and one of them is written. The flush writes 64
KiB, most of which was never read. -/
theorem sectors_discard_200 : (∀ op ∈ [Op.write [1] 0], op.InRange sectors) ∧
      (step sectors (run (step sectors)
        (discard 200 0 (blockdeviceRegister (fun _ => 7) (fun _ _ => 0) [])) [.write [1] 0])
        .flush).disk 65535 = 0 := by
  decide +kernel

end Barebox.Block
