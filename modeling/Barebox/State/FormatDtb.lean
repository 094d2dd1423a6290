import Barebox.State.Convert
import Barebox.State.Storage
import Barebox.Of.Fdt

/-!
# The dtb state format — `common/state/backend_format_dtb.c`

The state as a flattened device tree. Verifying a buffer is unflattening
it; the tree is kept in the format object (`root`), so that unpacking does
not have to do it again, and packing leaves its tree there as well.

Mirroring notes:
- a buffer whose `totalsize` exceeds it is rejected before the tree that is
  there is deleted; one that does not unflatten, after.
- `totalsize` is read before anything is known about the length of the
  buffer.
- unpacking without a tree verifies once more, ignores the result, and
  passes on whatever tree there is: NULL has no `magic`.
- unpacking frees the tree the variables were imported from. What a string
  has kept of it, its `value_default`, points to freed memory then.
-/

namespace Barebox.State

open Lib Of

/-! ## Verify -/

/-- `state_backend_format_dtb_verify` of `len` bytes in `mem`: the result
and `*lenp`. -/
def backendFormatDtbVerify (mem : Bytes) (len : Nat) : Ret × Nat :=
  match be32At mem 4 with
  | none => (.err .EFAULT, len)
  | some dtbLen =>
    if dtbLen > len then (.err .EINVAL, len)
    else
      match ofUnflattenDtb mem dtbLen with
      | .error e => (.err e, len)
      | .ok _ => (.ok, dtbLen)

/-- `fdtb->root` afterwards. -/
def dtbRoot (mem : Bytes) (len : Nat) (root : Option Node) : Option Node :=
  match be32At mem 4 with
  | none => root
  | some dtbLen =>
    if dtbLen > len then root
    else
      match ofUnflattenDtb mem dtbLen with
      | .error _ => none
      | .ok root => some root

theorem dtbVerify_le (mem : Bytes) (len : Nat) : (backendFormatDtbVerify mem len).2 ≤ len := by
  unfold backendFormatDtbVerify
  split
  · exact Nat.le_refl _
  split
  · exact Nat.le_refl _
  next hle =>
  split
  · exact Nat.le_refl _
  · exact Nat.le_of_not_lt hle

/-- A buffer that verifies is unflattened, and its tree is kept. -/
theorem dtbVerify_ok {mem : Bytes} {len n : Nat} (h : backendFormatDtbVerify mem len = (.ok, n)) :
    be32At mem 4 = some n ∧ n ≤ len ∧ ∃ tree, ofUnflattenDtb mem n = .ok tree ∧
      ∀ root, dtbRoot mem len root = some tree := by
  unfold backendFormatDtbVerify at h
  split at h
  · cases h
  next dtbLen hsize =>
  split at h
  · cases h
  next hle =>
  split at h
  · cases h
  next tree htree =>
  cases h
  refine ⟨hsize, Nat.le_of_not_lt hle, tree, htree, ?_⟩
  intro root
  unfold dtbRoot
  rw [hsize]
  dsimp only
  rw [if_neg hle, htree]

/-! ## Unpack -/

/-- The pointer when the tree it may point into has been freed. -/
def CharPtr.freed : CharPtr → CharPtr
  | .scratch _ => .dangling
  | p => p

def VarData.freed : VarData → VarData
  | .string s => .string { s with valueDefault := s.valueDefault.freed }
  | d => d

/-- `of_delete_node` of the tree that was imported, as the variables see
it. -/
def Instance.freed (st : Instance) : Instance :=
  { st with vars := st.vars.map fun v => { v with data := v.data.freed } }

theorem VarData.freed_raw (d : VarData) : d.freed.raw = d.raw := by
  cases d <;> rfl

/-- `state_from_node` of a tree that may be NULL, which is then deleted. -/
def importTree (root : Option Node) (st : Instance) : Ret × Instance :=
  match root with
  | none => (.err .EINVAL, st)
  | some root =>
    let (r, st) := stateFromNode root st
    (r, st.freed)

/-- `state_backend_format_dtb_unpack`. -/
def backendFormatDtbUnpack (root : Option Node) (st : Instance) (mem : Bytes) (len : Nat) :
    Ret × Instance × Option Node :=
  let root := if root.isSome then root else dtbRoot mem len none
  let (r, st) := importTree root st
  (r, st, none)

/-! ## Pack -/

/-- `state_backend_format_dtb_pack`: the buffer, and the tree that is kept.
`stateRoot` is what the live tree has at the state's path, `flatten` is
`of_flatten_dtb`. -/
def backendFormatDtbPack (flatten : Node → Option Bytes) (stateRoot : Option Node) (st : Instance)
    (root : Option Node) : Except Errno Bytes × Option Node :=
  match stateToNode st stateRoot none .toNode with
  | .error e => (.error e, root)
  | .ok tree =>
    match flatten tree with
    | none => (.error .EINVAL, root)
    | some fdt => (.ok fdt, some tree)

end Barebox.State
