import Barebox.Base
import Barebox.Ctype

/-!
# The unflattened device tree — `drivers/of/base.c`

Nodes, properties, and the accessors the state framework and the FIT code
use. A property value is either a copy the tree owns, or, after
`of_unflatten_dtb_const`, a pointer into the flat blob; `constAt` keeps
that pointer (as an offset), because two of the accessors look at one
field only.

Mirroring notes:
- property names compare by `strcmp`; a property that occurs twice is found
  at its first occurrence.
- `length` is what the blob says. For a borrowed value the bytes may end
  earlier (the blob does); looking past them is an out-of-bounds read.
- `of_new_node`, `of_new_property` and the writers allocate with the
  `x`-functions, which do not return on failure: the `-ENOMEM` branches
  are dead.
-/

namespace Barebox.Of

open Lib List

/-- `struct property`: the bytes seen through `of_property_get_value`. -/
structure Property where
  name : Bytes
  value : Bytes
  length : Nat
  constAt : Option Nat
  deriving DecidableEq

/-- A property that owns its value, as `of_new_property` makes it. -/
def Property.owned (name value : Bytes) : Property := ⟨name, value, value.length, none⟩

/-- `struct device_node`. `of_new_property` leaves the phandle alone. -/
inductive Node where
  | mk (name fullName : Bytes) (phandle : Nat) (props : List Property) (children : List Node)

namespace Node

def name : Node → Bytes
  | .mk n _ _ _ _ => n

def fullName : Node → Bytes
  | .mk _ f _ _ _ => f

def phandle : Node → Nat
  | .mk _ _ h _ _ => h

def props : Node → List Property
  | .mk _ _ _ p _ => p

def children : Node → List Node
  | .mk _ _ _ _ c => c

def setProps (np : Node) (props : List Property) : Node :=
  .mk np.name np.fullName np.phandle props np.children

def addChild (np child : Node) : Node :=
  .mk np.name np.fullName np.phandle np.props (np.children ++ [child])

@[simp] theorem setProps_props (np : Node) (ps : List Property) : (np.setProps ps).props = ps := rfl
@[simp] theorem addChild_children (np child : Node) :
    (np.addChild child).children = np.children ++ [child] := rfl

end Node

/-- `of_new_node(NULL, …)`: the name argument is ignored. -/
def ofNewRoot : Node := .mk [] [] 0 [] []

/-- `of_new_node(parent, name)`; the caller links the node in. -/
def ofNewNode (parent : Node) (name : Bytes) : Node :=
  .mk name (parent.fullName ++ cstr "/" ++ name) 0 [] []

/-- `of_get_child_by_name`, which does not look at upper and lower case. -/
def ofGetChildByName (np : Node) (name : Bytes) : Option Node :=
  np.children.find? fun child => strcaseeq child.name name

/-! ## Reading properties -/

def ofFindProperty (np : Node) (name : Bytes) : Option Property :=
  np.props.find? fun p => p.name = name

/-- `of_find_property_value_of_size`: the first `len` bytes of a property
that has as many. -/
def ofFindPropertyValueOfSize (np : Node) (name : Bytes) (len : Nat) : Except Errno Bytes :=
  match ofFindProperty np name with
  | none => .error .EINVAL
  | some p =>
    if len > p.length then .error .EOVERFLOW
    else if len > p.value.length then .error .EFAULT
    else .ok (p.value.take len)

/-- `be32_to_cpup`. -/
def be32 (b : Bytes) : UInt32 := UInt32.ofNat (beNat (b.take 4))

def ofPropertyReadU32 (np : Node) (name : Bytes) : Except Errno UInt32 :=
  (ofFindPropertyValueOfSize np name 4).map be32

def ofPropertyReadU32Index (np : Node) (name : Bytes) (index : Nat) : Except Errno UInt32 :=
  (ofFindPropertyValueOfSize np name ((index + 1) * 4)).map fun v => be32 (v.drop (index * 4))

/-- `of_property_read_u32_array` for the two cells of a `reg`. -/
def ofPropertyReadU32Pair (np : Node) (name : Bytes) : Except Errno (UInt32 × UInt32) :=
  (ofFindPropertyValueOfSize np name 8).map fun v => (be32 v, be32 (v.drop 4))

def ofPropertyReadU8Array (np : Node) (name : Bytes) (sz : Nat) : Except Errno Bytes :=
  ofFindPropertyValueOfSize np name sz

/-- The C string a buffer of `length` bytes starts with, of which `b` can
be read: `-EILSEQ` when no NUL ends it. -/
def stringIn (b : Bytes) (length : Nat) : Except Errno Bytes :=
  let s := (b.take length).takeWhile (· ≠ 0)
  if s.length < (b.take length).length then .ok s
  else if b.length < length then .error .EFAULT
  else .error .EILSEQ

def ofPropertyReadString (np : Node) (name : Bytes) : Except Errno Bytes :=
  match ofFindProperty np name with
  | none => .error .EINVAL
  | some p => stringIn p.value p.length

variable {np : Node} {name : Bytes}

theorem ofPropertyReadString_none (h : ofFindProperty np name = none) :
    ofPropertyReadString np name = .error .EINVAL := by
  unfold ofPropertyReadString
  rw [h]

theorem zero_not_mem_ofPropertyReadString {s : Bytes}
    (h : ofPropertyReadString np name = .ok s) : (0 : UInt8) ∉ s := by
  unfold ofPropertyReadString at h
  split at h
  · cases h
  unfold stringIn at h
  dsimp only at h
  split at h
  · cases h
    exact zero_not_mem_takeWhile _
  · split at h <;> cases h

/-- The NUL-terminated strings a buffer consists of; `none` when the last
one is not terminated. -/
def stringsOf : Bytes → Option (List Bytes)
  | [] => some []
  | b :: r =>
    match stringsOf r, b with
    | none, _ => none
    | some l, 0 => some ([] :: l)
    | some [], _ => none
    | some (s :: l), b => some ((b :: s) :: l)

/-- `of_property_count_strings` and `of_property_read_string_index` for each
index, which look at an owned value only. -/
def ofPropertyReadStrings (np : Node) (name : Bytes) : Except Errno (List Bytes) :=
  match ofFindProperty np name with
  | none => .error .EINVAL
  | some p =>
    if p.constAt.isSome then .error .ENODATA
    else
      match stringsOf p.value with
      | none => .error .EILSEQ
      | some [] => .error .ENODATA
      | some l => .ok l

/-! ## Writing properties -/

/-- `of_set_property(np, name, val, len, 1)`: an existing property of that
name is deleted, the new one goes to the end. -/
def ofSetProperty (np : Node) (name val : Bytes) : Node :=
  np.setProps (np.props.eraseP (fun p => p.name = name) ++ [Property.owned name val])

def ofPropertyWriteU32 (np : Node) (name : Bytes) (value : UInt32) : Node :=
  ofSetProperty np name (beBytes 4 value.toNat)

/-- `of_property_write_u32_array` for the two cells of a `reg`. -/
def ofPropertyWriteU32Pair (np : Node) (name : Bytes) (a b : UInt32) : Node :=
  ofSetProperty np name (beBytes 4 a.toNat ++ beBytes 4 b.toNat)

def ofPropertyWriteU8Array (np : Node) (name values : Bytes) : Node :=
  ofSetProperty np name values

def ofPropertyWriteString (np : Node) (name value : Bytes) : Node :=
  ofSetProperty np name (value ++ [0])

/-! ## Reading back -/

/-- Writing a property leaves the others. -/
theorem ofFindProperty_set_ne (np : Node) {other : Bytes} (val : Bytes) (h : name ≠ other) :
    ofFindProperty (ofSetProperty np name val) other = ofFindProperty np other := by
  unfold ofFindProperty ofSetProperty
  rw [Node.setProps_props, find?_append]
  have herase : ∀ props : List Property,
      (props.eraseP fun p => p.name = name).find? (fun p => p.name = other)
        = props.find? fun p => p.name = other := by
    intro props
    induction props with
    | nil => rfl
    | cons p props ih =>
      by_cases hp : p.name = name
      · have hother : ¬ p.name = other := fun ho => h (hp.symm.trans ho)
        rw [eraseP_cons_of_pos (by simpa using hp),
          find?_cons_of_neg (by simpa using hother)]
      · rw [eraseP_cons_of_neg (by simpa using hp), find?_cons, find?_cons, ih]
  rw [herase]
  have hnew : [Property.owned name val].find? (fun p => p.name = other) = none := by
    rw [find?_cons_of_neg (by simp [Property.owned, h]), find?_nil]
  rw [hnew, Option.or_none]

/-- A property that was not there is found after it has been written. -/
theorem ofFindProperty_set_self (val : Bytes) (h : ofFindProperty np name = none) :
    ofFindProperty (ofSetProperty np name val) name = some (.owned name val) := by
  unfold ofFindProperty at h ⊢
  unfold ofSetProperty
  rw [Node.setProps_props, find?_append, eraseP_of_forall_not (find?_eq_none.mp h), h,
    Option.none_or]
  exact find?_cons_of_pos (by simp [Property.owned])

theorem be32_beBytes (v : UInt32) : be32 (beBytes 4 v.toNat) = v := by
  have hlt : v.toNat < 256 ^ 4 := v.toNat_lt
  rw [be32, take_of_length_le (Nat.le_of_eq (beBytes_length ..)), beNat_beBytes_of_lt hlt,
    UInt32.ofNat_toNat]

theorem ofFindPropertyValueOfSize_owned {val : Bytes} (h : ofFindProperty np name = some (.owned name val)) :
    ofFindPropertyValueOfSize np name val.length = .ok val := by
  unfold ofFindPropertyValueOfSize
  rw [h]
  dsimp only [Property.owned]
  rw [if_neg (Nat.lt_irrefl _), if_neg (Nat.lt_irrefl _), take_length]

theorem ofPropertyReadU32_owned {v : UInt32} (h : ofFindProperty np name = some (.owned name (beBytes 4 v.toNat))) :
    ofPropertyReadU32 np name = .ok v := by
  have hval := ofFindPropertyValueOfSize_owned h
  rw [beBytes_length] at hval
  unfold ofPropertyReadU32
  rw [hval]
  exact congrArg Except.ok (be32_beBytes v)

theorem ofPropertyReadString_owned {s : Bytes} (hs : (0 : UInt8) ∉ s)
    (h : ofFindProperty np name = some (.owned name (s ++ [0]))) : ofPropertyReadString np name = .ok s := by
  unfold ofPropertyReadString
  rw [h]
  show stringIn (s ++ [0]) (s ++ [0]).length = .ok s
  unfold stringIn
  rw [take_length, takeWhile_terminated hs, if_pos]
  rw [length_append]
  exact Nat.lt_succ_self _

end Barebox.Of
