import Barebox.Of.Node
import Barebox.Lib.Loop

/-!
# Unflattening a device tree — `drivers/of/fdt.c`

A flat device tree is a header, a map of reserved memory, a block of tags
that describe the nodes and properties in pre-order, and a block of the
strings that properties are named with. `ofUnflatten` is
`__of_unflatten_dtb`: one loop over the tags with a current node.

The current node is a `Cursor`. Inside the tree it is the node together
with its ancestors, each still without the child that is being built;
outside (before the root begins, after it has ended) it is `NULL`, and
there is only the root.

Mirroring notes:
- `mem` is the memory the blob lies in, `size` what the caller says about
  it. Reading past `mem` is `EFAULT`; reading past `size` is what the code
  does.
- all offsets are `uint32_t` and sums of them wrap around; `maxlen` is
  computed with `unsigned long` and cut to 32 bits afterwards, which comes
  to the same residue.
- a property before the root begins, or after it has ended, goes through a
  NULL pointer: `EFAULT`. So does the copy of a value whose length is
  negative as an `int`.
- `phandle` is not kept; reading it is a read of four bytes.
- a tag may lead backwards (a length close to `2 ^ 32`). The offset of the
  next tag depends on the tag alone, so a run that comes back to an offset
  does not reach an `FDT_END`; `ofUnflatten` gives up with `EFAULT` after as
  many turns as there are bytes.
-/

namespace Barebox.Of

open Lib

/-! ## Memory -/

/-- `be32_to_cpu` of the word at `off`. -/
def be32At (mem : Bytes) (off : Nat) : Option Nat :=
  if off + 4 ≤ mem.length then some (beNat (slice off 4 mem)) else none

/-- The C string at `off`. -/
def cstringAt (mem : Bytes) (off : Nat) : Option Bytes :=
  let s := (mem.drop off).takeWhile (· ≠ 0)
  if off + s.length < mem.length then some s else none

/-- `strnlen` of the string at `off`. -/
def strnlenAt (mem : Bytes) (off n : Nat) : Option Nat :=
  let s := ((mem.drop off).take n).takeWhile (· ≠ 0)
  if s.length < n ∧ mem.length ≤ off + s.length then none else some s.length

/-! ## Header -/

/-- The part of `struct fdt_header` that is converted up front. -/
structure FdtHeader where
  totalsize : Nat
  offDtStruct : Nat
  sizeDtStruct : Nat
  offDtStrings : Nat
  sizeDtStrings : Nat
  deriving DecidableEq

def sizeofFdtHeader : Nat := 40
def fdtMagic : Nat := 0xd00dfeed

def fdtHeader (mem : Bytes) : Option FdtHeader := do
  let totalsize ← be32At mem 4
  let offDtStruct ← be32At mem 8
  let sizeDtStruct ← be32At mem 36
  let offDtStrings ← be32At mem 12
  let sizeDtStrings ← be32At mem 32
  return ⟨totalsize, offDtStruct, sizeDtStruct, offDtStrings, sizeDtStrings⟩

/-- `f->off_dt_struct + f->size_dt_struct`, an `uint32_t`. -/
def FdtHeader.structEnd (f : FdtHeader) : Nat := (f.offDtStruct + f.sizeDtStruct) % 2 ^ 32

/-- What is left of the structure block at `name`, modulo `2 ^ 32`. -/
def FdtHeader.maxlen (f : FdtHeader) (name : Nat) : Nat :=
  ((((f.offDtStruct + f.sizeDtStruct : Nat) : Int) - name) % 2 ^ 32).toNat

/-- `ALIGN(dt, 4)` of an `uint32_t`. -/
def align4 (dt : Nat) : Nat := (dt + 3) % 2 ^ 32 / 4 * 4

/-- `dt_struct_advance`; `0` is its error. -/
def dtStructAdvance (f : FdtHeader) (dt size : Nat) : Nat :=
  let dt := align4 ((dt + size) % 2 ^ 32)
  if dt > f.structEnd then 0 else dt

/-- `dt_string`, as an offset. -/
def dtString (f : FdtHeader) (ofs : Nat) : Option Nat :=
  if ofs > f.sizeDtStrings then none else some (f.offDtStrings + ofs)

/-! ## Reserved memory -/

/-- `of_reservemap_num_entries` from entry `n` on, with `k` more to go. -/
def reservemapNumEntries (mem : Bytes) (off : Nat) : Nat → Nat → Except Errno Nat
  | 0, _ => .error .EINVAL
  | k + 1, n =>
    let entry := off + 16 * n
    if entry + 16 ≤ mem.length then
      if beNat (slice (entry + 8) 8 mem) = 0 then .ok n else reservemapNumEntries mem off k (n + 1)
    else .error .EFAULT

def ofMaxReserveMap : Nat := 16

/-- `of_unflatten_reservemap`: the root, with a node for the entries. -/
def ofUnflattenReservemap (root : Node) (mem : Bytes) : Except Errno Node :=
  match be32At mem 16 with
  | none => .error .EFAULT
  | some off =>
    match reservemapNumEntries mem off ofMaxReserveMap 0 with
    | .error e => .error e
    | .ok 0 => .ok root
    | .ok n =>
      let cells := beBytes 4 2
      .ok (root.addChild ((ofNewNode root (cstr "memreserve")).setProps
        [.owned (cstr "#address-cells") cells, .owned (cstr "#size-cells") cells,
          .owned (cstr "reg") (slice off (16 * n) mem)]))

/-! ## The tree under construction -/

/-- The current node: none, or one with its ancestors, parent first. -/
inductive Cursor where
  | outside (root : Node)
  | inside (node : Node) (parents : List Node)

/-- A node into its parent, that into its own, and so on. -/
def closeAll : Node → List Node → Node
  | node, [] => node
  | node, parent :: parents => closeAll (parent.addChild node) parents

/-- The tree as it would be if it ended here. -/
def Cursor.root : Cursor → Node
  | .outside root => root
  | .inside node parents => closeAll node parents

/-- The phandle of a node that is given one more property. -/
def takePhandle (phandle : Nat) (p : Property) : Nat :=
  if p.name = cstr "phandle" ∧ p.length = 4 then beNat p.value else phandle

/-- A property that is read: it may set the phandle. -/
def Node.addProp (np : Node) (p : Property) : Node :=
  .mk np.name np.fullName (takePhandle np.phandle p) (np.props ++ [p]) np.children

/-! ## Tags -/

inductive Tag where
  | beginNode | endNode | prop | nop | stop
  deriving DecidableEq

/-- The tags by number; `stop` is `FDT_END`. -/
def Tag.ofNat? : Nat → Option Tag
  | 1 => some .beginNode
  | 2 => some .endNode
  | 3 => some .prop
  | 4 => some .nop
  | 9 => some .stop
  | _ => none

structure Unflatten where
  dt : Nat
  node : Cursor

abbrev UnflattenTurn := Turn Unflatten Errno Node

/-- The end of a turn: on to the next tag. -/
def unflattenAdvance (f : FdtHeader) (dt size : Nat) (node : Cursor) : UnflattenTurn :=
  match dtStructAdvance f dt size with
  | 0 => .fail .ESPIPE
  | next => .next ⟨next, node⟩

/-- `strnlen(name, maxlen + 1)` -/
def nameLen (mem : Bytes) (f : FdtHeader) (name : Nat) : Option Nat :=
  strnlenAt mem name ((f.maxlen name + 1) % 2 ^ 32)

/-- `case FDT_BEGIN_NODE` -/
def unflattenBegin (mem : Bytes) (f : FdtHeader) (s : Unflatten) : UnflattenTurn :=
  match nameLen mem f (s.dt + 4) with
  | none => .fail .EFAULT
  | some len =>
    if len > f.maxlen (s.dt + 4) then .fail .ESPIPE
    else
      match s.node with
      | .outside root =>
        -- "The root node must have an empty name"; only its first byte is looked at
        match mem[s.dt + 4]? with
        | none => .fail .EFAULT
        | some c =>
          if c ≠ 0 then .fail .EINVAL
          else unflattenAdvance f s.dt (4 + len + 1) (.inside root [])
      | .inside node parents =>
        match cstringAt mem (s.dt + 4) with
        | none => .fail .EFAULT
        | some pathp =>
          -- "Only the root node may have an empty name"
          if pathp = [] then .fail .EINVAL
          else unflattenAdvance f s.dt (4 + len + 1) (.inside (ofNewNode node pathp) (node :: parents))

/-- `case FDT_END_NODE` -/
def unflattenEnd (f : FdtHeader) (s : Unflatten) : UnflattenTurn :=
  match s.node with
  | .outside _ => .fail .EINVAL
  | .inside node [] => unflattenAdvance f s.dt 4 (.outside node)
  | .inside node (parent :: parents) =>
    unflattenAdvance f s.dt 4 (.inside (parent.addChild node) parents)

/-- `of_new_property` and `of_new_property_const` for `len` bytes at `data`. -/
def newProperty (mem : Bytes) (constprops : Bool) (name : Bytes) (data len : Nat) : Option Property :=
  if constprops then
    if name = cstr "phandle" ∧ len = 4 ∧ mem.length < data + 4 then none
    else some ⟨name, slice data len mem, len, some data⟩
  else if len < 2 ^ 31 ∧ data + len ≤ mem.length then some (.owned name (slice data len mem))
  else none

/-- `case FDT_PROP` -/
def unflattenProp (mem : Bytes) (constprops : Bool) (f : FdtHeader) (s : Unflatten) : UnflattenTurn :=
  match be32At mem (s.dt + 4), be32At mem (s.dt + 8) with
  | some len, some nameoff =>
    match dtString f nameoff with
    | none => .fail .ESPIPE
    | some name =>
      match cstringAt mem name with
      | none => .fail .EFAULT
      | some name =>
        match newProperty mem constprops name (s.dt + 12) len, s.node with
        | some p, .inside node parents =>
          unflattenAdvance f s.dt (12 + len) (.inside (node.addProp p) parents)
        | _, _ => .fail .EFAULT
  | _, _ => .fail .EFAULT

/-- One turn of the loop of `__of_unflatten_dtb`. -/
def unflattenTurn (mem : Bytes) (constprops : Bool) (f : FdtHeader) (s : Unflatten) : UnflattenTurn :=
  match be32At mem s.dt with
  | none => .fail .EFAULT
  | some tag =>
    match Tag.ofNat? tag with
    | some .beginNode => unflattenBegin mem f s
    | some .endNode => unflattenEnd f s
    | some .prop => unflattenProp mem constprops f s
    | some .nop => unflattenAdvance f s.dt 4 s.node
    | some .stop => .done s.node.root
    | none => .fail .EINVAL

/-- `__of_unflatten_dtb`, for at most `turns` turns of its loop. -/
def ofUnflattenFor (turns : Nat) (constprops : Bool) (mem : Bytes) (size : Nat) : Except Errno Node :=
  if size < sizeofFdtHeader then .error .EINVAL
  else
    match be32At mem 0, be32At mem 20, fdtHeader mem with
    | some magic, some version, some f =>
      if magic ≠ fdtMagic then .error .EINVAL
      else if version ≠ 17 then .error .EINVAL
      else if f.totalsize > size then .error .EINVAL
      else if f.structEnd > f.totalsize then .error .ESPIPE
      else if (f.offDtStrings + f.sizeDtStrings) % 2 ^ 32 > f.totalsize then .error .ESPIPE
      else
        match ofUnflattenReservemap ofNewRoot mem with
        | .error e => .error e
        | .ok root =>
          loop (unflattenTurn mem constprops f) .EFAULT turns ⟨f.offDtStruct, .outside root⟩
    | _, _, _ => .error .EFAULT

/-- `__of_unflatten_dtb`. -/
def ofUnflatten (constprops : Bool) (mem : Bytes) (size : Nat) : Except Errno Node :=
  ofUnflattenFor (mem.length + 1) constprops mem size

def ofUnflattenDtb : Bytes → Nat → Except Errno Node := ofUnflatten false
def ofUnflattenDtbConst : Bytes → Nat → Except Errno Node := ofUnflatten true

end Barebox.Of
