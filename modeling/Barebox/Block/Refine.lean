import Barebox.Block.Transfer
import Barebox.Lib.Run

/-!
# A block device is an array of bytes — `common/block.c`

A run is a sequence of reads, writes and flushes, and an array of bytes is
what it is compared to (`Op.flat`, `Op.flatResult`). `step_spec` is one call,
and `block_cache_refines` a whole run from a device that has been
registered: the results are those of the array, a flush leaves the array on
the device, and the chunks are in order all the time. If the device fails: `block_cache_faults`.
-/

namespace Barebox.Block

open Lib

/-- A call, with the bytes that are written. -/
inductive Op where
  | read (count offset : Nat)
  | write (data : Bytes) (offset : Nat)
  | flush

namespace Op

/-- The buffer of a write. -/
def buf (data : Bytes) : Memory UInt8 := fun i => data.getD i 0

def call (g : Geometry) : Op → M Bytes
  | .read count offset => blockOpRead g count offset
  | .write data offset => do
    blockOpWrite g (buf data) data.length offset
    return []
  | .flush => do
    blockOpFlush g
    return []

/-- The call is about bytes of the device. -/
def InRange (g : Geometry) : Op → Prop
  | .read count offset => offset + count ≤ g.size
  | .write data offset => offset + data.length ≤ g.size
  | .flush => True

instance (g : Geometry) : (op : Op) → Decidable (op.InRange g)
  | .read _ _ => inferInstanceAs (Decidable (_ ≤ _))
  | .write _ _ => inferInstanceAs (Decidable (_ ≤ _))
  | .flush => .isTrue trivial

/-- What a call does to an array of bytes. -/
def flat (a : Memory UInt8) : Op → Memory UInt8
  | .read _ _ => a
  | .write data offset => copy a offset (buf data) 0 data.length
  | .flush => a

def flatResult (a : Memory UInt8) : Op → Bytes
  | .read count offset => peek a offset count
  | .write _ _ => []
  | .flush => []

/-- What a call may return if nothing is known of the bytes in `D`. -/
def Returns (D : Set Nat) (a : Memory UInt8) : Op → Bytes → Prop
  | .read count offset, b => Reads D a offset count b
  | .write _ _, b => b = []
  | .flush, b => b = []

end Op

def step (g : Geometry) (s : State) (op : Op) : State :=
  match op.call g s with
  | .ok _ s => s
  | .error _ s => s

def result (g : Geometry) (s : State) (op : Op) : Except Errno Bytes :=
  match op.call g s with
  | .ok b _ => .ok b
  | .error e _ => .error e

/-- The results of a run. -/
def results (g : Geometry) : State → List Op → List (Except Errno Bytes)
  | _, [] => []
  | s, op :: ops => result g s op :: results g (step g s op) ops

def flatResults : Memory UInt8 → List Op → List Bytes
  | _, [] => []
  | a, op :: ops => op.flatResult a :: flatResults (op.flat a) ops

variable {g : Geometry} {D : Set Nat} {φ : Prop} {a : Memory UInt8} {s : State}

/-! ## One call -/

variable {op : Op} {ops : List Op}

/-- Every operation follows the flat disk, or fails where the device may. -/
theorem call_spec (h : Inv g D φ [] a s) (hop : op.InRange g) :
    wp (op.call g) (fun b s' => Inv g D φ [] (op.flat a) s' ∧ op.Returns D a b)
      (fun _ s' => (∃ a', Inv g D φ [] a' s') ∧ φ) s := by
  cases op with
  | read count offset =>
    exact wp_mono (blockOpRead_spec h hop) (fun _ _ hQ => hQ) (fun _ _ hE => ⟨⟨a, hE.1⟩, hE.2⟩)
  | write data offset =>
    show wp (blockOpWrite g (Op.buf data) data.length offset >>= fun _ => pure []) _ _ s
    rw [wp_bind]
    refine wp_mono (blockOpWrite_spec h _ hop) (fun _ _ hQ => ⟨hQ, rfl⟩) ?_
    intro _ s' ⟨⟨n, _, hinv⟩, hφ⟩
    exact ⟨⟨_, hinv⟩, hφ⟩
  | flush =>
    show wp (blockOpFlush g >>= fun _ => pure []) _ _ s
    rw [wp_bind]
    exact wp_mono (blockOpFlush_spec h) (fun _ _ hQ => ⟨hQ.1, rfl⟩) (fun _ _ hE => ⟨⟨a, hE.1⟩, hE.2⟩)

/-- Device operations that succeed make calls that succeed. -/
theorem step_spec (h : Inv g D False [] a s) (hop : op.InRange g) :
    Inv g D False [] (op.flat a) (step g s op) ∧ ∃ b, result g s op = .ok b ∧ op.Returns D a b := by
  have hcall := call_spec h hop
  unfold wp at hcall
  unfold step result
  cases hc : op.call g s with
  | error e s' =>
    rw [hc] at hcall
    exact hcall.2.elim
  | ok b s' =>
    rw [hc] at hcall
    exact ⟨hcall.1, b, rfl, hcall.2⟩

/-! ## Runs -/

theorem run_inv_of_inv (hops : ∀ op ∈ ops, op.InRange g)
    (h : Inv g D False [] a s) : Inv g D False [] (run Op.flat a ops) (run (step g) s ops) := by
  induction ops generalizing a s with
  | nil => exact h
  | cons op ops ih =>
    exact ih (fun op' hop' => hops op' (.tail _ hop')) (step_spec h (hops op (.head _))).1

/-- What the calls of a run return is what the flat disk has. -/
theorem results_eq (hops : ∀ op ∈ ops, op.InRange g)
    (h : Inv g ∅ False [] a s) : results g s ops = (flatResults a ops).map .ok := by
  induction ops generalizing a s with
  | nil => rfl
  | cons op ops ih =>
    obtain ⟨hinv, b, hresult, hreturns⟩ := step_spec h (hops op (.head _))
    have hb : b = op.flatResult a := by
      cases op with
      | read count offset => exact hreturns.eq_peek
      | write data offset => exact hreturns
      | flush => exact hreturns
    rw [results, flatResults, List.map_cons, hresult, hb,
      ih (fun op' hop' => hops op' (.tail _ hop')) hinv]

/-- A device that has been registered is what is on it. -/
theorem inv_register (g : Geometry) (disk : Memory UInt8) (dma : Fin 8 → Memory UInt8)
    {faults : List Ret} (hφ : ∀ e, Ret.err e ∈ faults → φ) :
    Inv g ∅ φ [] disk (blockdeviceRegister disk dma faults) := by
  refine ⟨⟨.rfl, ?_, ?_, ?_⟩, ⟨?_, fun _ _ _ => rfl⟩, ?_, hφ⟩
  · exact nofun
  · exact nofun
  · exact nofun
  · exact nofun
  · intro b hb _ hdiscards
    rw [not_discards hb rfl rfl] at hdiscards
    cases hdiscards

/-- A flush that succeeds leaves what is shown on the device. -/
theorem step_flush (h : Inv g D False [] a s) {x : Nat} (hx : x ∉ D) :
    (step g s .flush).disk x = a x := by
  have hflush := blockOpFlush_spec h
  have hcall : wp (Op.flush.call g) (fun _ s' => ∀ x ∉ D, s'.disk x = a x) (fun _ _ => False) s := by
    show wp (blockOpFlush g >>= fun _ => pure []) _ _ s
    rw [wp_bind]
    exact wp_mono hflush (fun _ _ hQ => hQ.2) (fun _ _ hE => hE.2)
  unfold wp at hcall
  unfold step
  cases hc : Op.flush.call g s with
  | error e s' =>
    rw [hc] at hcall
    exact hcall.elim
  | ok b s' =>
    rw [hc] at hcall
    exact hcall x hx

/-- Every sequence of reads, writes and flushes does what it does to an array
of bytes: the reads return its bytes and a flush leaves them on the device.
At any time the eight chunks are all there, and those that are buffered are
aligned and have no byte in common. -/
theorem block_cache_refines (g : Geometry) (disk : Memory UInt8) (dma : Fin 8 → Memory UInt8)
    (ops : List Op) (hops : ∀ op ∈ ops, op.InRange g) :
    results g (blockdeviceRegister disk dma []) ops = (flatResults disk ops).map .ok ∧
      (∀ x < g.size, (run (step g) (blockdeviceRegister disk dma []) (ops ++ [.flush])).disk x
        = run Op.flat disk ops x) ∧
      Wf g [] (run (step g) (blockdeviceRegister disk dma []) ops) ∧
      (abs g (run (step g) (blockdeviceRegister disk dma []) ops)).Apart := by
  have hinit : Inv g ∅ False [] disk (blockdeviceRegister disk dma []) :=
    inv_register g disk dma nofun
  have hrun := run_inv_of_inv hops hinit
  refine ⟨results_eq hops hinit, ?_, hrun.wf, hrun.wf.apart⟩
  intro x _
  rw [run_append]
  exact step_flush hrun (Set.notMem_empty x)

/-- 200 sectors. -/
def sectors : Geometry := ⟨9, 200, true, by decide, by decide⟩

/-- A write across the end of a sector is read back. -/
theorem sectors_write_read :
    (∀ op ∈ [Op.write [1, 2, 3] 510, .read 4 509, .flush], op.InRange sectors) ∧
      results sectors (blockdeviceRegister (fun _ => 7) (fun _ _ => 0) [])
        [.write [1, 2, 3] 510, .read 4 509, .flush] = [.ok [], .ok [7, 1, 2, 3], .ok []] := by
  have hops : ∀ op ∈ [Op.write [1, 2, 3] 510, .read 4 509, .flush], op.InRange sectors := by decide
  exact ⟨hops, (block_cache_refines sectors (fun _ => 7) (fun _ _ => 0) _ hops).1⟩

/-! ## Devices that fail -/

/-- What a call that fails may leave: of a write, the first bytes. -/
def Op.Leaves (a : Memory UInt8) : Op → Memory UInt8 → Prop
  | .write data offset, a' => ∃ n ≤ data.length, a' = copy a offset (buf data) 0 n
  | _, a' => a' = a

/-- The array is on the device, but for what is in dirty chunks. -/
def Behind (g : Geometry) (a : Memory UInt8) (s : State) : Prop :=
  ∀ x, (∀ c ∈ s.bufferedBlocks, x ∈ g.span (s.chunks c).blockStart → (s.chunks c).dirty = false) → s.disk x = a x

/-- A run of the array, in which calls may fail -/
def Follows (g : Geometry) : Memory UInt8 → State → List Op → Prop
  | a, s, [] => Wf g [] s ∧ Behind g a s
  | a, s, op :: ops => Wf g [] s ∧ Behind g a s ∧
    match result g s op with
    | .ok b => b = op.flatResult a ∧ (op = .flush → (step g s op).disk = a) ∧ Follows g (op.flat a) (step g s op) ops
    | .error _ => ∃ a', op.Leaves a a' ∧ Follows g a' (step g s op) ops

/-- With failures allowed a write that fails has written its first bytes, and a flush that
succeeds leaves nothing behind. -/
theorem call_leaves (h : Inv g ∅ True [] a s) (hop : op.InRange g) :
    wp (op.call g) (fun b s' => Inv g ∅ True [] (op.flat a) s' ∧ b = op.flatResult a ∧ (op = .flush → s'.disk = a))
      (fun _ s' => ∃ a', op.Leaves a a' ∧ Inv g ∅ True [] a' s') s := by
  cases op with
  | read count offset =>
    exact wp_mono (blockOpRead_spec h hop) (fun _ _ hQ => ⟨hQ.1, hQ.2.eq_peek, nofun⟩) fun _ _ hE => ⟨a, rfl, hE.1⟩
  | write data offset =>
    show wp (blockOpWrite g (Op.buf data) data.length offset >>= fun _ => pure []) _ _ s
    rw [wp_bind]
    refine wp_mono (blockOpWrite_spec h _ hop) (fun _ _ hQ => ⟨hQ, rfl, nofun⟩) ?_
    intro _ s' ⟨⟨n, hn, hinv⟩, _⟩
    exact ⟨_, ⟨n, hn, rfl⟩, hinv⟩
  | flush =>
    show wp (blockOpFlush g >>= fun _ => pure []) _ _ s
    rw [wp_bind]
    exact wp_mono (blockOpFlush_spec h)
      (fun _ _ hQ => ⟨hQ.1, rfl, fun _ => funext fun x => hQ.2 x (Set.notMem_empty x)⟩) fun _ _ hE => ⟨a, rfl, hE.1⟩

theorem Inv.behind (h : Inv g ∅ φ [] a s) : Behind g a s := by
  intro x hclean
  refine h.shows.stored x (Set.notMem_empty x) fun c hc hx hdirty => ?_
  have hdirty : (s.chunks c).dirty = true := hdirty
  rw [hclean c hc hx] at hdirty
  cases hdirty

/-- A run on a device that may fail, step by step. -/
theorem follows_of_inv (hops : ∀ op ∈ ops, op.InRange g) (h : Inv g ∅ True [] a s) :
    Follows g a s ops := by
  induction ops generalizing a s with
  | nil => exact ⟨h.wf, h.behind⟩
  | cons op ops ih =>
    have hrest : ∀ op' ∈ ops, op'.InRange g := fun op' hop' => hops op' (.tail _ hop')
    have hcall := call_leaves h (hops op (.head _))
    refine ⟨h.wf, h.behind, ?_⟩
    unfold wp at hcall
    unfold result step
    cases hc : op.call g s with
    | error e s' =>
      rw [hc] at hcall
      obtain ⟨a', hleaves, hinv⟩ := hcall
      exact ⟨a', hleaves, ih hrest hinv⟩
    | ok b s' =>
      rw [hc] at hcall
      exact ⟨hcall.2.1, hcall.2.2, ih hrest hcall.1⟩

/-- Whichever operations of the device fail: calls that succeed do what they do to an array of bytes, and a
flush leaves it on the device. A write that fails has written its first bytes, if any, and other calls
that fail have changed nothing. At any time no chunk is lost or there twice, and the array is on the device
but for dirty chunks. -/
theorem block_cache_faults (g : Geometry) (disk : Memory UInt8) (dma : Fin 8 → Memory UInt8) (faults : List Ret)
    (ops : List Op) (hops : ∀ op ∈ ops, op.InRange g) : Follows g disk (blockdeviceRegister disk dma faults) ops :=
  follows_of_inv hops (inv_register g disk dma fun _ _ => trivial)

/-- The first access to the device fails. -/
theorem sectors_faults :
    Follows sectors (fun _ => 7) (blockdeviceRegister (fun _ => 7) (fun _ _ => 0) [.err .EIo]) [.write [1] 0, .flush] :=
  block_cache_faults _ _ _ _ _ (by decide)

end Barebox.Block
