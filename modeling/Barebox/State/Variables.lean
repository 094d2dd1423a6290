import Barebox.Of.Node
import Barebox.Parameter

/-!
# State variables — `common/state/state_variables.c`

A variable has a position in the raw layout (`start`, `size`), a value, and
two ways in and out of a device tree node: `export` writes its `default`
and `value` properties, `import` reads them back. Strings are the odd one
out. Their value lives in `raw`, the buffer the storage formats work on;
`value` is a second copy, made when the parameter is set or read and not
touched by anything else; and `value_default` is not a copy at all but a
pointer into the tree the variable was imported from.

Mirroring notes:
- the host is little endian: the raw byte of a `uint8` is the low byte of
  its `uint32_t`.
- `value_default` remembers what it points to. A tree that was unflattened
  to load a state is freed afterwards, and the pointer with it.
- `uint8`, `uint32` and `enum32` share the layout of their first two
  fields, so importing one as another works; importing anything else under
  a foreign type writes over memory.
-/

namespace Barebox.State

open Lib Of

inductive VarType where
  | uint8 | uint32 | enum32 | mac | string
  deriving DecidableEq, Repr

def VarType.typeName : VarType → Bytes
  | .uint8 => cstr "uint8"
  | .uint32 => cstr "uint32"
  | .enum32 => cstr "enum32"
  | .mac => cstr "mac"
  | .string => cstr "string"

def types : List VarType := [.uint8, .uint32, .enum32, .mac, .string]

def stateFindTypeByName (name : Bytes) : Option VarType := types.find? fun t => t.typeName = name

/-- Where `value_default` points: nowhere, into the live device tree, into
a tree that is going to be freed, into one that has been. -/
inductive CharPtr where
  | null
  | live (s : Bytes)
  | scratch (s : Bytes)
  | dangling
  deriving DecidableEq

/-- The string behind the pointer, if there is one. -/
def CharPtr.deref : CharPtr → Except Errno (Option Bytes)
  | .null => .ok none
  | .live s => .ok (some s)
  | .scratch s => .ok (some s)
  | .dangling => .error .EFAULT

/-- The tree a variable is imported from. -/
inductive Owner where
  | live | scratch
  deriving DecidableEq

def Owner.ptr : Owner → Bytes → CharPtr
  | .live, s => .live s
  | .scratch, s => .scratch s

/-- `struct state_string`. -/
structure StateString where
  size : Nat
  raw : Bytes
  value : Option Bytes
  valueDefault : CharPtr
  raw_length : raw.length = size
  size_le : size ≤ 4096
  deriving DecidableEq

/-- The type-specific part of a variable. -/
inductive VarData where
  | uint8 (value valueDefault : UInt32)
  | uint32 (value valueDefault : UInt32)
  | enum32 (value valueDefault : UInt32) (names : List Bytes)
  | mac (value valueDefault : Mac)
  | string (s : StateString)
  deriving DecidableEq

namespace VarData

def type : VarData → VarType
  | .uint8 _ _ => .uint8
  | .uint32 _ _ => .uint32
  | .enum32 _ _ _ => .enum32
  | .mac _ _ => .mac
  | .string _ => .string

def size : VarData → Nat
  | .uint8 _ _ => 1
  | .uint32 _ _ => 4
  | .enum32 _ _ _ => 4
  | .mac _ _ => 6
  | .string s => s.size

/-- What `sv->raw` points at, `sv->size` bytes of it. -/
def raw : VarData → Bytes
  | .uint8 v _ => leBytes 1 v.toNat
  | .uint32 v _ => leBytes 4 v.toNat
  | .enum32 v _ _ => leBytes 4 v.toNat
  | .mac v _ => v.bytes
  | .string s => s.raw

/-- `memcpy(sv->raw, b, sv->size)`. -/
def setRaw (d : VarData) (b : Bytes) (h : b.length = d.size) : VarData :=
  match d with
  | .uint8 v df => .uint8 (UInt32.ofNat (v.toNat / 256 * 256 + leNat b)) df
  | .uint32 _ df => .uint32 (UInt32.ofNat (leNat b)) df
  | .enum32 _ df names => .enum32 (UInt32.ofNat (leNat b)) df names
  | .mac _ df => .mac ⟨b, h⟩ df
  | .string s => .string { s with raw := b, raw_length := h }

/-- The fields `value` and `value_default` of the types that keep an
`uint32_t` there. -/
def words : VarData → Option (UInt32 × UInt32)
  | .uint8 v df => some (v, df)
  | .uint32 v df => some (v, df)
  | .enum32 v df _ => some (v, df)
  | _ => none

def setWords (d : VarData) (w : UInt32 × UInt32) : VarData :=
  match d with
  | .uint8 _ _ => .uint8 w.1 w.2
  | .uint32 _ _ => .uint32 w.1 w.2
  | .enum32 _ _ names => .enum32 w.1 w.2 names
  | d => d

theorem raw_length (d : VarData) : d.raw.length = d.size := by
  cases d with
  | uint8 v df => exact leBytes_length 1 _
  | uint32 v df => exact leBytes_length 4 _
  | enum32 v df names => exact leBytes_length 4 _
  | mac v df => exact v.length_eq
  | string s => exact s.raw_length

theorem size_le (d : VarData) : d.size ≤ 4096 := by
  cases d with
  | string s => exact s.size_le
  | _ => simp [size]

end VarData

/-- `struct state_variable`. -/
structure Variable where
  name : Bytes
  start : UInt32
  data : VarData
  deriving DecidableEq

/-! ## Export -/

/-- `enum state_convert`, as far as export distinguishes it. -/
inductive Convert where
  | toNode | fixup
  deriving DecidableEq

def stateUint32Export (value valueDefault : UInt32) (node : Node) (conv : Convert) : Node :=
  let node := if valueDefault ≠ 0 then ofPropertyWriteU32 node (cstr "default") valueDefault else node
  if conv = .fixup then node else ofPropertyWriteU32 node (cstr "value") value

def stateEnum32Export (value valueDefault : UInt32) (names : List Bytes) (node : Node)
    (conv : Convert) : Node :=
  let node := if valueDefault ≠ 0 then ofPropertyWriteU32 node (cstr "default") valueDefault else node
  let node := ofSetProperty node (cstr "names") (names.flatMap (· ++ [0]))
  if conv = .fixup then node else ofPropertyWriteU32 node (cstr "value") value

def stateMacExport (value valueDefault : Mac) (node : Node) (conv : Convert) : Node :=
  let node :=
    if valueDefault ≠ .zero then ofPropertyWriteU8Array node (cstr "default") valueDefault.bytes
    else node
  if conv = .fixup then node else ofPropertyWriteU8Array node (cstr "value") value.bytes

/-- `if (s) of_property_write_string(node, name, s)`. -/
def writeIfSet (node : Node) (name : Bytes) : Option Bytes → Node
  | none => node
  | some s => ofPropertyWriteString node name s

def stateStringExport (s : StateString) (node : Node) (conv : Convert) : Except Errno Node :=
  match s.valueDefault.deref with
  | .error e => .error e
  | .ok d =>
    let node := writeIfSet node (cstr "default") d
    if conv = .fixup then .ok node else .ok (writeIfSet node (cstr "value") s.value)

/-- `vtype->export(sv, node, conv)`. -/
def VarType.exportTo (t : VarType) (d : VarData) (node : Node) (conv : Convert) : Except Errno Node :=
  match t, d with
  | .enum32, .enum32 v df names => .ok (stateEnum32Export v df names node conv)
  | .mac, .mac v df => .ok (stateMacExport v df node conv)
  | .string, .string s => stateStringExport s node conv
  | .uint8, d | .uint32, d =>
    match d.words with
    | some (v, df) => .ok (stateUint32Export v df node conv)
    | none => .error .EFAULT
  | _, _ => .error .EFAULT

/-! ## Import -/

/-- The value read, or what was there before. -/
def readOr {α : Type} (r : Except Errno α) (old : α) : α :=
  match r with
  | .ok v => v
  | .error _ => old

def stateUint32Import (w : UInt32 × UInt32) (node : Node) : UInt32 × UInt32 :=
  let valueDefault := readOr (ofPropertyReadU32 node (cstr "default")) w.2
  (readOr (ofPropertyReadU32 node (cstr "value")) valueDefault, valueDefault)

def stateEnum32Import (w : UInt32 × UInt32) (node : Node) : Except Errno (UInt32 × UInt32) :=
  let value := ofFindProperty node (cstr "value")
  let valueDefault := ofFindProperty node (cstr "default")
  let fits (p : Option Property) : Bool := p.all fun p => p.length = 4
  if !fits value || !fits valueDefault then .error .EINVAL
  else
    let df := (valueDefault.map fun p => be32 p.value).getD w.2
    .ok ((value.map fun p => be32 p.value).getD df, df)

/-- The six bytes of a property, if it has as many. -/
def readMac (node : Node) (name : Bytes) : Option Mac :=
  match ofPropertyReadU8Array node name 6 with
  | .error _ => none
  | .ok b => if h : b.length = 6 then some ⟨b, h⟩ else none

def stateMacImport (w : Mac × Mac) (node : Node) : Mac × Mac :=
  let valueDefault := (readMac node (cstr "default")).getD w.2
  ((readMac node (cstr "value")).getD valueDefault, valueDefault)

/-- `state_string_copy_to_raw`. -/
def stateStringCopyToRaw (s : StateString) (src : Bytes) : Except Errno StateString :=
  if h : src.length ≤ s.size then
    .ok { s with
      raw := src ++ List.replicate (s.size - src.length) 0
      raw_length := by rw [List.length_append, List.length_replicate]; omega }
  else .error .EILSEQ

/-- `value_default` after looking for a `default` property. -/
def StateString.importDefault (s : StateString) (node : Node) (owner : Owner) : StateString :=
  match ofPropertyReadString node (cstr "default") with
  | .ok d => { s with valueDefault := owner.ptr d }
  | .error _ => s

/-- The value to import: the node's, or else the default. -/
def importedValue (node : Node) (d : Option Bytes) : Option Bytes :=
  match ofPropertyReadString node (cstr "value") with
  | .ok v => some v
  | .error _ => d

/-- The end of `state_string_import`: copy the value, if there is one. -/
def StateString.copyOrKeep (s : StateString) : Option Bytes → Ret × StateString
  | none => (.ok, s)
  | some v =>
    match stateStringCopyToRaw s v with
    | .ok s => (.ok, s)
    | .error e => (.err e, s)

def stateStringImport (s : StateString) (node : Node) (owner : Owner) : Ret × StateString :=
  let s := s.importDefault node owner
  match s.valueDefault.deref with
  | .error e => (.err e, s)
  | .ok d =>
    if d.any fun d => s.size < d.length then (.err .EILSEQ, s)
    else s.copyOrKeep (importedValue node d)

/-- `vtype->import(sv, node)`. -/
def VarType.importFrom (t : VarType) (d : VarData) (node : Node) (owner : Owner) : Ret × VarData :=
  match t, d with
  | .mac, .mac v df => let w := stateMacImport (v, df) node; (.ok, .mac w.1 w.2)
  | .string, .string s => let (r, s) := stateStringImport s node owner; (r, .string s)
  | .enum32, d =>
    match d.words with
    | none => (.err .EFAULT, d)
    | some w =>
      match stateEnum32Import w node with
      | .ok w => (.ok, d.setWords w)
      | .error e => (.err e, d)
  | .uint8, d | .uint32, d =>
    match d.words with
    | none => (.err .EFAULT, d)
    | some w => (.ok, d.setWords (stateUint32Import w node))
  | _, d => (.err .EFAULT, d)

end Barebox.State
