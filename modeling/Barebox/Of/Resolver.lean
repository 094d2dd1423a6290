import Barebox.Of.DeviceNode
import Barebox.Strtox

/-!
# Resolving the phandles of an overlay — `drivers/of/resolver.c`

`of_resolve_phandles` copies an overlay and changes words in the copy, in
three passes: phandles are moved out of the way of those of the base tree;
places that refer to a phandle of the overlay, as listed below
`__local_fixups__`, are moved along; places that refer to a node of the base
tree, as listed in `__fixups__` by its label, get the phandle of that node.

The lists are part of the copy themselves, and are read while it is being
written to.

Mirroring notes:
- `size_t` is 64 bits wide. (With 32, `off + sizeof(__be32)` wraps around.)
- a NULL pointer that is returned is `none`, and so is a run that reads past
  a buffer (`strlen` of a list that does not end in a NUL).
- allocation does not fail.
-/

namespace Barebox.Of

open Lib

namespace DeviceNode

/-! ## Phandles of the overlay -/

def isPhandleName (name : Bytes) : Bool := name = cstr "phandle" ∨ name = cstr "linux,phandle"

/-- A property `adjust_overlay_phandles` changes. -/
def isPhandleProp (p : Property) : Bool := isPhandleName p.name ∧ 4 ≤ p.length

/-- `be32_add_cpu` of the word at the beginning. -/
def adjustProp (delta : UInt32) (p : Property) : Property :=
  if isPhandleProp p then
    { p with value :=
        overwrite 0 (beBytes 4 ((beNat (slice 0 4 p.value) + delta.toNat) % 2 ^ 32)) p.value }
  else p

mutual

/-- `adjust_overlay_phandles` -/
def adjustOverlayPhandles (delta : UInt32) : DeviceNode → DeviceNode
  | .mk name phandle props children =>
    .mk name (if phandle ≠ 0 then phandle + delta else phandle) (props.map (adjustProp delta))
      (adjustAll delta children)

def adjustAll (delta : UInt32) : List DeviceNode → List DeviceNode
  | [] => []
  | n :: ns => n.adjustOverlayPhandles delta :: adjustAll delta ns

end

/-! ## References inside of the overlay -/

/-- `be32_add_cpu(prop->value + off, delta)` -/
def addWord (delta : UInt32) (c : Cell PropRef) (s : Store PropRef) : Store PropRef :=
  s.setWord c ((s.word c + delta.toNat) % 2 ^ 32)

/-- The offsets in `fix` from number `i` on, of which there are `k`, for a
property of `length` bytes. -/
def adjustOffsets (delta : UInt32) (fix ref : PropRef) (length : Nat) :
    Nat → Nat → Store PropRef → Except Errno (Store PropRef)
  | 0, _, s => .ok s
  | k + 1, i, s =>
    let off := s.word ⟨fix, 4 * i⟩
    if off + 4 > length then .error .EINVAL
    else adjustOffsets delta fix ref length k (i + 1) (addWord delta ⟨ref, off⟩ s)

/-- Properties that are not about references. -/
def isSkipped (name : Bytes) : Bool := name = cstr "name" ∨ isPhandleName name

/-- `prop_fix`, which is property `j` of the node at `fp`. -/
def adjustLocalProp (delta : UInt32) (fp : Path) (overlay : DeviceNode) (op : Path)
    (s : Store PropRef) : Property × Nat → Except Errno (Store PropRef)
  | (propFix, j) =>
    if isSkipped propFix.name then .ok s
    else if propFix.length % 4 ≠ 0 ∨ propFix.length = 0 then .error .EINVAL
    else
      match overlay.findProperty propFix.name with
      | none => .error .EINVAL
      | some i =>
        match overlay.props[i]? with
        | none => .error .EINVAL
        | some prop =>
          adjustOffsets delta (fp, j) (op, i) prop.length (propFix.length / 4) 0 s

mutual

/-- `adjust_local_phandle_references`, for the nodes at `fp` and `op`. -/
def adjustLocal (delta : UInt32) : DeviceNode → Path → DeviceNode → Path → Store PropRef →
    Except Errno (Store PropRef)
  | .mk _ _ props children, fp, overlay, op, s => do
    let s ← props.zipIdx.foldlM (adjustLocalProp delta fp overlay op) s
    adjustLocalChildren delta children 0 fp overlay op s

/-- Its loop over the children, from number `k` on. -/
def adjustLocalChildren (delta : UInt32) : List DeviceNode → Nat → Path → DeviceNode → Path →
    Store PropRef → Except Errno (Store PropRef)
  | [], _, _, _, _, s => .ok s
  | child :: children, k, fp, overlay, op, s =>
    match overlay.getChildByName child.name with
    | none => .error .EINVAL
    | some i =>
      match overlay.children[i]? with
      | none => .error .EINVAL
      | some overlayChild => do
        let s ← adjustLocal delta child (fp ++ [k]) overlayChild (op ++ [i]) s
        adjustLocalChildren delta children (k + 1) fp overlay op s

end

/-! ## References to the base tree -/

/-- The strings in a list; `none` if one does not end. The string so far is
`acc`. -/
def listStrings (acc : Bytes) : Bytes → List (Option Bytes)
  | [] => if acc = [] then [] else [none]
  | c :: cs => if c = 0 then some acc :: listStrings [] cs else listStrings (acc ++ [c]) cs

/-- The string up to a colon, and what is behind it. -/
def splitColon (s : Bytes) : Option (Bytes × Bytes) :=
  if 58 ∈ s then some (s.takeWhile (· ≠ 58), (s.dropWhile (· ≠ 58)).tail) else none

/-- A place, as `path:property_name:offset`. -/
def parseUsage (s : Bytes) : Except Errno (Bytes × Bytes × Int) :=
  match splitColon s with
  | none => .error .EINVAL
  | some (nodePath, s) =>
    match splitColon s with
    | none => .error .EINVAL
    | some (propName, s) => (kstrtoint s).map fun offset => (nodePath, propName, offset)

/-- The word a place is, in the overlay. There is none if there is no such
node. -/
def findUsage (overlay : DeviceNode) : Bytes × Bytes × Int → Except Errno (Option (Cell PropRef))
  | (nodePath, propName, offset) =>
    match overlay.findNodeByPath nodePath with
    | none => .ok none
    | some p =>
      match (overlay.get? p).bind fun n => (n.findProperty propName).bind fun i =>
        n.props[i]?.map fun prop => (i, prop) with
      | none => .error .ENOENT
      | some (i, prop) =>
        if offset < 0 ∨ offset + 4 > prop.length then .error .EINVAL
        else .ok (some ⟨(p, i), offset.toNat⟩)

/-- A turn of the loop in `update_usages_of_a_phandle_reference`. -/
def updateUsage (overlay : DeviceNode) (phandle : UInt32) (s : Store PropRef) :
    Option Bytes → Except Errno (Store PropRef)
  | none => .error .EFAULT
  | some cur => do
    match ← findUsage overlay (← parseUsage cur) with
    | none => return s
    | some c => return s.setWord c phandle.toNat

/-- `update_usages_of_a_phandle_reference`. The list is copied first. -/
def updateUsages (overlay : DeviceNode) (fixup : PropRef) (phandle : UInt32)
    (s : Store PropRef) : Except Errno (Store PropRef) :=
  (listStrings [] (s fixup)).foldlM (updateUsage overlay phandle) s

/-- The phandle of the node that has a label. -/
def symbolPhandle (root symbols : DeviceNode) (label : Bytes) : Except Errno UInt32 := do
  let refpath ← symbols.propertyReadString label
  match (root.findNodeByPath refpath).bind root.get? with
  | none => .error .EINVAL
  | some refnode => return refnode.phandle

/-- A turn of the loop over `__fixups__`, for its property `j`. -/
def resolveFixup (root symbols overlay : DeviceNode) (fp : Path) (s : Store PropRef) :
    Property × Nat → Except Errno (Store PropRef)
  | (prop, j) =>
    if prop.name = cstr "name" then .ok s
    else do
      let phandle ← symbolPhandle root symbols prop.name
      updateUsages overlay (fp, j) phandle s

/-! ## The whole -/

/-- The second pass. -/
def resolveLocal (delta : UInt32) (result : DeviceNode) (s : Store PropRef) :
    Except Errno (Store PropRef) :=
  match result.findNodeByName (cstr "__local_fixups__") with
  | none => .ok s
  | some fp =>
    match result.get? fp with
    | none => .ok s
    | some localFixups => adjustLocal delta localFixups fp result [] s

/-- The third pass. The error for a base tree without labels is not
reported. -/
def resolveFixups (root result : DeviceNode) (s : Store PropRef) : Except Errno (Store PropRef) :=
  match result.findNodeByName (cstr "__fixups__") with
  | none => .ok s
  | some fp =>
    match (root.findNodeByPath (cstr "/__symbols__")).bind root.get? with
    | none => .error .EINVAL
    | some symbols =>
      match result.get? fp with
      | none => .ok s
      | some fixups => fixups.props.zipIdx.foldlM (resolveFixup root symbols result fp) s

/-- `of_resolve_phandles` -/
def ofResolvePhandles (root overlay : DeviceNode) : Option DeviceNode :=
  let delta := root.maxPhandle + 1
  let result := (ofCopyNode overlay).adjustOverlayPhandles delta
  match resolveLocal delta result result.values with
  | .error _ => none
  | .ok s =>
    match resolveFixups root result s with
    | .error _ => none
    | .ok s => some (result.withValues s [])

end DeviceNode

end Barebox.Of
