import Barebox.Of.Fdt

/-!
# Flattening a device tree — `drivers/of/fdt.c`

The writer keeps two buffers, one for the tags and one for the names of
properties, and the offset up to which each is filled. `fdt_ensure_space`
is called in front of every entry and doubles a buffer that has become too
small; what an entry then writes is not checked any more.

Mirroring notes:
- memory of the tag buffer is cleared when it is new. The string buffer is
  cleared once and then grown with `realloc`: `heap i` is what the memory
  holds that comes to lie at offset `i`. `lstrcpy` does not write a NUL, so
  that it is the memory that decides where a name ends.
- a write outside of a buffer is `EFAULT`. So is a buffer of `2 ^ 32` bytes
  or more: its size does not fit the `uint32_t` it is kept in.
- `fp` points into the tag buffer, and `dt_add_string` may move that buffer:
  `EFAULT` if it does.
- `lstrcpy` stops with `-ENOSPC` behind byte 1024 of a longer name. Neither
  caller looks at that: `flattenBegin` computes with it, and `flattenProp`
  stores it as the offset of the name.
- `p->value` of a property that borrows its value is a NULL pointer.
- allocation does not fail, and `memalign` is `malloc`.
-/

namespace Barebox.Of

open Lib

/-- `struct fdt`; the sizes are the lengths. -/
structure Fdt where
  dt : Bytes
  dtNextofs : Nat
  strings : Bytes
  strNextofs : Nat

def sz64K : Nat := 65536

/-- `a - b` of `uint32_t`. -/
def sub32 (a b : Nat) : Nat := (a + 2 ^ 32 - b) % 2 ^ 32

/-- `dt_next_ofs` -/
def dtNextOfs (curofs len : Nat) : Nat := align4 ((curofs + len) % 2 ^ 32)

/-- Writing into a buffer. -/
def put (off : Nat) (b buf : Bytes) : Except Errno Bytes :=
  if off + b.length ≤ buf.length then .ok (overwrite off b buf) else .error .EFAULT

/-- `-ENOSPC` as an `uint32_t`. -/
def minusENOSPC : Nat := 2 ^ 32 - 28

/-- `lstrcpy`: what it writes, and what it returns. -/
def lstrcpy (src : Bytes) : Bytes × Nat :=
  if src.length ≤ 1023 then (src, src.length) else (src.take 1024, minusENOSPC)

/-- `realloc` of the strings, to twice their size. -/
def growStrings (heap : Nat → UInt8) (strings : Bytes) : Except Errno Bytes :=
  if 2 * strings.length < 2 ^ 32 then
    .ok (strings ++ (List.range' strings.length strings.length).map heap)
  else .error .EFAULT

/-- `memalign_realloc` -/
def memalignRealloc (dt : Bytes) (newsize : Nat) : Except Errno Bytes :=
  if newsize < 2 ^ 32 then .ok (dt ++ List.replicate (newsize - dt.length) 0) else .error .EFAULT

/-- `fdt_ensure_space`: the strings, … -/
def ensureStrings (heap : Nat → UInt8) (fdt : Fdt) : Except Errno Bytes :=
  if sub32 fdt.strings.length fdt.strNextofs < 1024 then growStrings heap fdt.strings
  else .ok fdt.strings

/-- … and the tags. -/
def ensureDt (fdt : Fdt) (dtsize : Nat) : Except Errno Bytes :=
  if sub32 fdt.dt.length fdt.dtNextofs < (1024 + dtsize) % 2 ^ 32 then
    memalignRealloc fdt.dt (2 * fdt.dt.length)
  else .ok fdt.dt

/-- `fdt_ensure_space` -/
def fdtEnsureSpace (heap : Nat → UInt8) (fdt : Fdt) (dtsize : Nat) : Except Errno Fdt := do
  let strings ← ensureStrings heap fdt
  let dt ← ensureDt fdt dtsize
  return { fdt with strings := strings, dt := dt }

/-- `dt_add_string`: the offset of the string, too. -/
def dtAddString (heap : Nat → UInt8) (fdt : Fdt) (str : Bytes) : Except Errno (Fdt × Nat) := do
  let fdt ← fdtEnsureSpace heap fdt 0
  let (copied, len) := lstrcpy str
  let strings ← put fdt.strNextofs copied fdt.strings
  if len = minusENOSPC then return ({ fdt with strings := strings }, minusENOSPC)
  else
    return ({ fdt with strings := strings, strNextofs := (fdt.strNextofs + len + 1) % 2 ^ 32 },
      fdt.strNextofs)

/-! ## Entries -/

/-- The beginning of a node. -/
def flattenBegin (heap : Nat → UInt8) (fdt : Fdt) (name : Bytes) : Except Errno Fdt := do
  let fdt ← fdtEnsureSpace heap fdt 0
  let (copied, len) := lstrcpy name
  let dt ← put fdt.dtNextofs (beBytes 4 1 ++ copied) fdt.dt
  return { fdt with dt := dt, dtNextofs := dtNextOfs fdt.dtNextofs (4 + len + 1) }

/-- A property. -/
def flattenProp (heap : Nat → UInt8) (fdt : Fdt) (p : Property) : Except Errno Fdt := do
  let fdt ← fdtEnsureSpace heap fdt p.length
  let dt ← put fdt.dtNextofs (beBytes 4 3 ++ beBytes 4 p.length) fdt.dt
  let (added, nameoff) ← dtAddString heap { fdt with dt := dt } p.name
  if added.dt.length ≠ dt.length then .error .EFAULT
  else if p.constAt.isSome ∧ p.length ≠ 0 then .error .EFAULT
  else if p.value.length < p.length then .error .EFAULT
  else
    let dt ← put (fdt.dtNextofs + 8) (beBytes 4 nameoff ++ p.value.take p.length) added.dt
    return { added with dt := dt, dtNextofs := dtNextOfs fdt.dtNextofs (12 + p.length) }

/-- The end of a node. -/
def flattenEnd (heap : Nat → UInt8) (fdt : Fdt) : Except Errno Fdt := do
  let dt ← put fdt.dtNextofs (beBytes 4 2) fdt.dt
  fdtEnsureSpace heap { fdt with dt := dt, dtNextofs := dtNextOfs fdt.dtNextofs 4 } 0

mutual

/-- `__of_flatten_dtb` -/
def flattenNode (heap : Nat → UInt8) (isRoot : Bool) : Node → Fdt → Except Errno Fdt
  | .mk name _ _ props children, fdt => do
    let fdt ← flattenBegin heap fdt name
    let fdt ← props.foldlM (flattenProp heap) fdt
    let fdt ← flattenChildren heap isRoot children fdt
    flattenEnd heap fdt

/-- Its loop over the children. -/
def flattenChildren (heap : Nat → UInt8) (isRoot : Bool) : List Node → Fdt → Except Errno Fdt
  | [], fdt => .ok fdt
  | n :: ns, fdt => do
    let fdt ← if isRoot && decide (n.name = cstr "memreserve") then .ok fdt
      else flattenNode heap false n fdt
    flattenChildren heap isRoot ns fdt

end

/-! ## The blob -/

mutual

/-- The nodes of a tree, as they follow each other in the list all nodes of a
tree are in: `of_new_node` puts a node right behind its parent, so that the
children that were added last come first. -/
def Node.listed : Node → List Node
  | .mk _ _ _ _ children => listedAll children

def listedAll : List Node → List Node
  | [] => []
  | n :: ns => listedAll ns ++ n :: n.listed

end

/-- `of_find_node_by_name`, which does not look at `from` itself, and not at
upper and lower case. -/
def ofFindNodeByName (src : Node) (name : Bytes) : Option Node :=
  src.listed.find? fun np => strcaseeq np.name name

/-- What is copied into the map of reserved memory. -/
def reserveEntries (root : Node) : Bytes :=
  match ofFindNodeByName root (cstr "memreserve") with
  | none => []
  | some memreserve =>
    match ofFindProperty memreserve (cstr "reg") with
    | none => []
    | some reg => reg.value

def offMemRsvmap : Nat := sizeofFdtHeader
def offDtStruct : Nat := sizeofFdtHeader + 16 * ofMaxReserveMap

/-- The header, for blocks that end at `dtNextofs` and have `strNextofs`
bytes of strings behind them. -/
def headerBytes (dtNextofs strNextofs : Nat) : Bytes :=
  beBytes 4 fdtMagic ++ beBytes 4 (dtNextofs + strNextofs) ++ beBytes 4 offDtStruct
    ++ beBytes 4 dtNextofs ++ beBytes 4 offMemRsvmap ++ beBytes 4 0x11 ++ beBytes 4 0x10
    ++ beBytes 4 0 ++ beBytes 4 strNextofs ++ beBytes 4 (dtNextofs - offDtStruct)

def fdtStart : Fdt :=
  ⟨List.replicate sz64K 0, offDtStruct, List.replicate sz64K 0, 0⟩

/-- Room for the strings behind the tags. -/
def ensureTail (dt : Bytes) (dtNextofs strNextofs : Nat) : Except Errno Bytes :=
  if sub32 dt.length dtNextofs < strNextofs then memalignRealloc dt (dtNextofs + strNextofs)
  else .ok dt

/-- `of_flatten_dtb`: the memory of the blob. -/
def ofFlattenDtb (heap : Nat → UInt8) (root : Node) : Except Errno Bytes := do
  let fdt ← flattenNode heap true root fdtStart
  let dt ← put offMemRsvmap (reserveEntries root) fdt.dt
  let dt ← put fdt.dtNextofs (beBytes 4 9) dt
  let next := dtNextOfs fdt.dtNextofs 4
  let dt ← ensureTail dt next fdt.strNextofs
  let dt ← put next (fdt.strings.take fdt.strNextofs) dt
  put 0 (headerBytes next fdt.strNextofs) dt

end Barebox.Of
