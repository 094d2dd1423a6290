import Barebox.Of.Flatten

/-!
# What is written — `drivers/of/fdt.c`

`__of_flatten_dtb` writes one entry after the other (`Node.items`), and two
things can be said about it separately. One is what it writes: the bytes of
the entries in a row (`itemsBytes`), and the names of the properties in a
row (`itemsNames`), each ended by the byte that happened to be in memory.
The other is whether there is room for it. That is a matter of sizes alone,
and `Room` keeps track of them.

An entry is written behind at most one doubling of the buffer, and a node
with a name of more than 1015 bytes needs more than the 1024 that are made
sure of. `Holds.items` is that a tree for which `Room` runs out
is not flattened.
-/

namespace Barebox.Of

open Lib List

/-- An entry. -/
inductive Item where
  | openNode (name : Bytes)
  | property (p : Property)
  | closeNode

def flattenItem (heap : Nat → UInt8) (fdt : Fdt) : Item → Except Errno Fdt
  | .openNode name => flattenBegin heap fdt name
  | .property p => flattenProp heap fdt p
  | .closeNode => flattenEnd heap fdt

mutual

/-- The entries of a tree. -/
def Node.items : Node → List Item
  | .mk name _ _ props children =>
    .openNode name :: (props.map .property ++ (itemsAll children ++ [.closeNode]))

def itemsAll : List Node → List Item
  | [] => []
  | n :: ns => n.items ++ itemsAll ns

end

/-- The children of the root that are flattened. -/
def Node.plainChildren (root : Node) : List Node :=
  root.children.filter fun n => n.name ≠ cstr "memreserve"

/-- The entries of a whole tree. -/
def Node.rootItems (root : Node) : List Item :=
  .openNode root.name :: (root.props.map .property ++ (itemsAll root.plainChildren ++ [.closeNode]))

section

variable (heap : Nat → UInt8)

mutual

/-- Flattening a node is flattening its entries one by one. -/
theorem flattenNode_items : ∀ (n : Node) (fdt : Fdt),
    flattenNode heap false n fdt = n.items.foldlM (flattenItem heap) fdt
  | .mk name full phandle props children, fdt => by
    rw [flattenNode, Node.items, foldlM_cons]
    refine bind_congr fun fdt => ?_
    rw [foldlM_append, foldlM_map]
    refine bind_congr fun fdt => ?_
    rw [foldlM_append, flattenChildren_items children fdt]
    refine bind_congr fun fdt => ?_
    rw [foldlM_cons]
    exact (bind_pure _).symm

theorem flattenChildren_items : ∀ (ns : List Node) (fdt : Fdt),
    flattenChildren heap false ns fdt = (itemsAll ns).foldlM (flattenItem heap) fdt
  | [], fdt => rfl
  | n :: ns, fdt => by
    rw [flattenChildren, itemsAll, foldlM_append, Bool.false_and, if_neg Bool.false_ne_true,
      flattenNode_items n fdt]
    refine bind_congr fun fdt => ?_
    exact flattenChildren_items ns fdt

end

/-- Below the root the memory reservations are left out. -/
theorem flattenChildren_root (ns : List Node) (fdt : Fdt) : flattenChildren heap true ns fdt
      = (itemsAll (ns.filter fun n => n.name ≠ cstr "memreserve")).foldlM (flattenItem heap) fdt := by
  induction ns generalizing fdt with
  | nil => rfl
  | cons n ns ih =>
    rw [flattenChildren, Bool.true_and]
    by_cases hname : n.name = cstr "memreserve"
    · rw [filter_cons_of_neg (by simp [hname]), ← ih, if_pos (decide_eq_true hname)]
      rfl
    · rw [filter_cons_of_pos (by simp [hname]), itemsAll, foldlM_append,
        if_neg (by simp [hname]), flattenNode_items heap n fdt]
      exact bind_congr fun fdt => ih fdt

/-- `__of_flatten_dtb` is one entry after the other. -/
theorem flattenNode_rootItems (root : Node) (fdt : Fdt) :
    flattenNode heap true root fdt = root.rootItems.foldlM (flattenItem heap) fdt := by
  cases root with
  | mk name full props children =>
    rw [Node.rootItems, foldlM_cons]
    refine bind_congr fun fdt => ?_
    rw [foldlM_append, foldlM_map]
    refine bind_congr fun fdt => ?_
    rw [foldlM_append, flattenChildren_root]
    refine bind_congr fun fdt => ?_
    exact (bind_pure _).symm

end

/-! ## Entries as bytes -/

/-- The bytes an entry takes in the tag buffer, … -/
def Item.size : Item → Nat
  | .openNode name => roundup (4 + name.length + 1) 4
  | .property p => roundup (12 + p.value.length) 4
  | .closeNode => 4

/-- … and among the strings. -/
def Item.nameSize : Item → Nat
  | .property p => p.name.length + 1
  | _ => 0

/-- An entry of which `so` is the offset of the name. -/
def Item.bytes (so : Nat) : Item → Bytes
  | .openNode name => beBytes 4 1 ++ name ++ replicate (roundup (4 + name.length + 1) 4 - (4 + name.length)) 0
  | .property p => beBytes 4 3 ++ beBytes 4 p.value.length ++ beBytes 4 so ++ p.value
      ++ replicate (roundup (12 + p.value.length) 4 - (12 + p.value.length)) 0
  | .closeNode => beBytes 4 2

/-- What the string buffer holds where nothing has been written. -/
def background (heap : Nat → UInt8) (i : Nat) : UInt8 := if i < sz64K then 0 else heap i

/-- The name of an entry, and the byte behind it. -/
def Item.nameBytes (heap : Nat → UInt8) (so : Nat) : Item → Bytes
  | .property p => p.name ++ [background heap (so + p.name.length)]
  | _ => []

def itemsBytes : Nat → List Item → Bytes
  | _, [] => []
  | so, it :: its => it.bytes so ++ itemsBytes (so + it.nameSize) its

def itemsNames (heap : Nat → UInt8) : Nat → List Item → Bytes
  | _, [] => []
  | so, it :: its => it.nameBytes heap so ++ itemsNames heap (so + it.nameSize) its

/-- An entry of a tree that is made of strings and owned values. -/
def Item.Sized : Item → Prop
  | .openNode name => (0 : UInt8) ∉ name ∧ name.length ≤ 1023
  | .property p => p = .owned p.name p.value ∧ (0 : UInt8) ∉ p.name ∧ p.name.length ≤ 1023 ∧
      p.value.length < 2 ^ 31
  | .closeNode => True

theorem Item.bytes_length (it : Item) (so : Nat) : (it.bytes so).length = it.size := by
  cases it with
  | openNode name =>
    have := le_roundup (4 + name.length + 1) (show 0 < 4 by decide)
    simp only [Item.bytes, Item.size, length_append, length_replicate, beBytes_length]
    omega
  | property p =>
    have := le_roundup (12 + p.value.length) (show 0 < 4 by decide)
    simp only [Item.bytes, Item.size, length_append, length_replicate, beBytes_length]
    omega
  | closeNode => rfl

theorem Item.nameBytes_length (heap : Nat → UInt8) (it : Item) (so : Nat) :
    (it.nameBytes heap so).length = it.nameSize := by
  cases it with
  | openNode name => rfl
  | property p => exact length_append
  | closeNode => rfl

/-! ## Room -/

/-- The sizes of both buffers, and how far they are filled. -/
structure Room where
  dtSize : Nat
  dtNext : Nat
  strSize : Nat
  strNext : Nat

/-- A buffer with less than `need` bytes left is doubled. -/
def grow (size next need : Nat) : Option Nat :=
  if size - next < need then if 2 * size < 2 ^ 32 then some (2 * size) else none else some size

namespace Room

def start : Room := ⟨sz64K, offDtStruct, sz64K, 0⟩

def ensure (r : Room) (dtsize : Nat) : Option Room :=
  match grow r.strSize r.strNext 1024, grow r.dtSize r.dtNext (1024 + dtsize) with
  | some strSize, some dtSize => some { r with strSize := strSize, dtSize := dtSize }
  | _, _ => none

/-- An entry is put behind the others. -/
def fill (r : Room) (it : Item) : Option Room :=
  if r.dtNext + it.size ≤ r.dtSize then
    some { r with dtNext := r.dtNext + it.size, strNext := r.strNext + it.nameSize }
  else none

/-- The room an entry leaves. -/
def step (r : Room) : Item → Option Room
  | .openNode name => (r.ensure 0).bind (·.fill (.openNode name))
  | .property p => (r.ensure p.value.length).bind (·.fill (.property p))
  | .closeNode => (r.fill .closeNode).bind (·.ensure 0)

structure Ok (r : Room) : Prop where
  dt_le : r.dtNext ≤ r.dtSize
  dt_lt : r.dtSize < 2 ^ 32
  dt_ge : sz64K ≤ r.dtSize
  dt_mod : r.dtSize % 65536 = 0
  next_mod : r.dtNext % 4 = 0
  str_le : r.strNext ≤ r.strSize
  str_lt : r.strSize < 2 ^ 32
  str_ge : sz64K ≤ r.strSize

theorem start_ok : start.Ok := by
  constructor <;> decide

end Room

/-! ## The buffers -/

/-- The buffers hold `w` and `sw`, and what was there before behind them. -/
structure Holds (heap : Nat → UInt8) (fdt : Fdt) (r : Room) (w sw : Bytes) : Prop where
  ok : r.Ok
  dt : fdt.dt = w ++ replicate (r.dtSize - r.dtNext) 0
  dtNext : fdt.dtNextofs = r.dtNext
  strings : fdt.strings = sw ++ (range' r.strNext (r.strSize - r.strNext)).map (background heap)
  strNext : fdt.strNextofs = r.strNext
  w_length : w.length = r.dtNext
  sw_length : sw.length = r.strNext

variable {heap : Nat → UInt8} {fdt : Fdt} {r r₁ r' : Room} {w sw : Bytes}

/-- Nothing is written at the start but the place of the header. -/
theorem Holds.start : Holds heap fdtStart .start (replicate offDtStruct 0) [] := by
  refine ⟨Room.start_ok, ?_, rfl, ?_, rfl, length_replicate, rfl⟩
  · rw [replicate_append_replicate]
    rfl
  · show replicate sz64K 0 = [] ++ (range' 0 (sz64K - 0)).map (background heap)
    rw [nil_append]
    symm
    rw [eq_replicate_iff]
    refine ⟨by rw [length_map, length_range']; rfl, fun b hb => ?_⟩
    obtain ⟨i, hi, rfl⟩ := mem_map.mp hb
    have hi := (mem_range'_1.mp hi).2
    exact if_pos (by omega)

section

variable (h : Holds heap fdt r w sw)
include h

theorem Holds.dt_length : fdt.dt.length = r.dtSize := by
  have := h.ok.dt_le
  rw [h.dt, length_append, length_replicate, h.w_length]
  omega

theorem Holds.strings_length : fdt.strings.length = r.strSize := by
  have := h.ok.str_le
  rw [h.strings, length_append, length_map, length_range', h.sw_length]
  omega

omit h in
theorem sub32_eq {a b : Nat} (hle : b ≤ a) (hlt : a < 2 ^ 32) : sub32 a b = a - b := by
  unfold sub32
  omega

/-- The strings after `fdt_ensure_space`, … -/
theorem Holds.ensureStrings : ensureStrings heap fdt = match grow r.strSize r.strNext 1024 with
        | some size => .ok (sw ++ (range' r.strNext (size - r.strNext)).map (background heap))
        | none => .error .EFAULT := by
  have hle := h.ok.str_le
  have hge := h.ok.str_ge
  unfold Of.ensureStrings grow growStrings
  rw [h.strNext, h.strings_length, sub32_eq hle h.ok.str_lt]
  by_cases hlt : r.strSize - r.strNext < 1024
  · rw [if_pos hlt, if_pos hlt]
    by_cases hfit : 2 * r.strSize < 2 ^ 32
    · rw [if_pos hfit, if_pos hfit]
      have hnew : (range' r.strSize r.strSize).map heap
          = (range' r.strSize r.strSize).map (background heap) := by
        refine map_congr_left fun i hi => ?_
        have hi := (mem_range'_1.mp hi).1
        exact (if_neg (by omega)).symm
      have hrange : range' r.strNext (r.strSize - r.strNext) ++ range' r.strSize r.strSize
          = range' r.strNext (2 * r.strSize - r.strNext) := by
        have happ := List.range'_append_1 (s := r.strNext) (m := r.strSize - r.strNext)
          (n := r.strSize)
        rw [Nat.add_sub_cancel' hle] at happ
        rw [happ]
        congr 1
        omega
      rw [h.strings, hnew, append_assoc, ← map_append, hrange]
    · rw [if_neg hfit, if_neg hfit]
  · rw [if_neg hlt, if_neg hlt, h.strings]

variable {n : Nat}

/-- … and the tags. -/
theorem Holds.ensureDt (hn : n < 2 ^ 31) : ensureDt fdt n = match grow r.dtSize r.dtNext (1024 + n) with
        | some size => .ok (w ++ replicate (size - r.dtNext) 0)
        | none => .error .EFAULT := by
  have hle := h.ok.dt_le
  unfold Of.ensureDt grow memalignRealloc
  rw [h.dtNext, h.dt_length, sub32_eq hle h.ok.dt_lt, Nat.mod_eq_of_lt (show 1024 + n < 2 ^ 32 by omega)]
  by_cases hlt : r.dtSize - r.dtNext < 1024 + n
  · rw [if_pos hlt, if_pos hlt]
    by_cases hfit : 2 * r.dtSize < 2 ^ 32
    · rw [if_pos hfit, if_pos hfit]
      rw [h.dt, append_assoc, replicate_append_replicate]
      congr 3
      omega
    · rw [if_neg hfit, if_neg hfit]
  · rw [if_neg hlt, if_neg hlt, h.dt]

end

theorem grow_some {size next need size' : Nat} (h : grow size next need = some size') :
    (size' = size ∧ need ≤ size - next) ∨ (size' = 2 * size ∧ 2 * size < 2 ^ 32) := by
  unfold grow at h
  split at h
  · split at h
    · next hfit => exact .inr ⟨(Option.some.inj h).symm, hfit⟩
    · cases h
  · next hlt => exact .inl ⟨(Option.some.inj h).symm, Nat.le_of_not_lt hlt⟩

/-- Room that has been made sure of. -/
structure Ensured (r r' : Room) : Prop where
  ok : r'.Ok
  dtNext : r'.dtNext = r.dtNext
  strNext : r'.strNext = r.strNext
  dt : 1024 ≤ r'.dtSize - r'.dtNext
  str : 1024 ≤ r'.strSize - r'.strNext

variable {n : Nat} {b name : Bytes} {it : Item}

/-- Making room keeps what is written. -/
theorem Room.ensured (h : r.ensure n = some r') (hok : r.Ok) : Ensured r r' := by
  have ⟨hdl, hdt, hdg, hdm, hnm, hsl, hst, hsg⟩ := hok
  have hk : sz64K = 65536 := rfl
  unfold Room.ensure at h
  split at h
  · next strSize dtSize hstr hdt' =>
    cases h
    have hs := grow_some hstr
    have hd := grow_some hdt'
    refine ⟨⟨?_, ?_, ?_, ?_, hnm, ?_, ?_, ?_⟩, rfl, rfl, ?_, ?_⟩ <;> dsimp only <;> omega
  · cases h

/-- `fdt_ensure_space` -/
theorem Holds.ensure (h : Holds heap fdt r w sw) (hn : n < 2 ^ 31) : match r.ensure n with
    | some r' => ∃ fdt', fdtEnsureSpace heap fdt n = .ok fdt' ∧ Holds heap fdt' r' w sw
    | none => fdtEnsureSpace heap fdt n = .error .EFAULT := by
  have hensured := fun r' (he : r.ensure n = some r') => Room.ensured he h.ok
  unfold fdtEnsureSpace
  rw [h.ensureStrings, h.ensureDt hn]
  unfold Room.ensure at hensured ⊢
  cases hstr : grow r.strSize r.strNext 1024 with
  | none => rfl
  | some strSize =>
    cases hdt : grow r.dtSize r.dtNext (1024 + n) with
    | none => rfl
    | some dtSize =>
      have hok := (hensured _ (by rw [hstr, hdt])).ok
      exact ⟨_, rfl, hok, rfl, h.dtNext, rfl, h.strNext, h.w_length, h.sw_length⟩

/-! ## Writing an entry -/

theorem put_zeros {off : Nat} (hw : w.length = off) (hb : b.length ≤ n) :
    put off b (w ++ replicate n 0) = .ok (w ++ b ++ replicate (n - b.length) 0) := by
  unfold put
  rw [length_append, length_replicate, if_pos (by omega), overwrite_append b _ hw,
    drop_replicate]

theorem put_fails {off : Nat} {buf : Bytes} (h : buf.length < off + b.length) :
    put off b buf = .error .EFAULT := if_neg (Nat.not_le_of_lt h)

theorem dtNextOfs_eq {cur len : Nat} (hmod : cur % 4 = 0) (hlt : cur + roundup len 4 < 2 ^ 32) :
    dtNextOfs cur len = cur + roundup len 4 := by
  unfold dtNextOfs align4 roundup at *
  omega

theorem lstrcpy_eq (h : b.length ≤ 1023) : lstrcpy b = (b, b.length) := if_pos h

section

variable (h : Holds heap fdt r w sw)
include h

/-- Something is put behind the tags, … -/
theorem Holds.put_dt (hb : r.dtNext + b.length ≤ r.dtSize) : put fdt.dtNextofs b fdt.dt
      = .ok (w ++ b ++ replicate (r.dtSize - r.dtNext - b.length) 0) := by
  rw [h.dt, h.dtNext]
  exact put_zeros h.w_length (by omega)

/-- … and takes `size` bytes with the zeros behind it. -/
theorem Holds.tag (size : Nat) (hb : b.length ≤ size)
    (hsize : r.dtNext + size ≤ r.dtSize) (hmod : size % 4 = 0) : Holds heap
      { fdt with
        dt := w ++ b ++ replicate (r.dtSize - r.dtNext - b.length) 0
        dtNextofs := r.dtNext + size }
      { r with dtNext := r.dtNext + size } (w ++ (b ++ replicate (size - b.length) 0)) sw := by
  refine
    { ok :=
        { h.ok with
          dt_le := hsize
          next_mod := ?_ }
      dt := ?_
      dtNext := rfl
      strings := h.strings
      strNext := h.strNext
      w_length := ?_
      sw_length := h.sw_length }
  · have := h.ok.next_mod
    show (r.dtNext + size) % 4 = 0
    omega
  · show w ++ b ++ _ = w ++ (b ++ _) ++ replicate (r.dtSize - (r.dtNext + size)) 0
    rw [append_assoc, append_assoc, append_assoc, replicate_append_replicate]
    congr 3
    omega
  · show (w ++ (b ++ _)).length = r.dtNext + size
    rw [length_append, length_append, length_replicate, h.w_length]
    omega

/-- A name is put behind the strings; where it ends is up to the memory. -/
theorem Holds.putName (name : Bytes) (hsize : r.strNext + name.length + 1 ≤ r.strSize) :
    ∃ strings, put fdt.strNextofs name fdt.strings = .ok strings ∧
      Holds heap { fdt with strings := strings, strNextofs := r.strNext + name.length + 1 }
        { r with strNext := r.strNext + name.length + 1 } w
        (sw ++ (name ++ [background heap (r.strNext + name.length)])) := by
  have hlen := h.strings_length
  have hput : put fdt.strNextofs name fdt.strings
      = .ok (overwrite r.strNext name fdt.strings) := by
    unfold put
    rw [h.strNext, if_pos (by omega)]
  have hrange : (range' r.strNext (r.strSize - r.strNext)).drop name.length
      = (r.strNext + name.length)
        :: range' (r.strNext + name.length + 1) (r.strSize - (r.strNext + name.length + 1)) := by
    rw [drop_range', ← List.range'_succ]
    congr 1 <;> omega
  refine ⟨_, hput, ?_⟩
  exact
    { ok :=
        { h.ok with
          str_le := hsize }
      dt := h.dt
      dtNext := h.dtNext
      strings := by
        rw [h.strings, overwrite_append name _ h.sw_length, ← map_drop, hrange,
          map_cons]
        simp only [append_assoc, cons_append, nil_append]
      strNext := rfl
      w_length := h.w_length
      sw_length := by
        rw [length_append, length_append, h.sw_length]
        rfl }

omit h in
/-- A name that is not too long is written in full. -/
theorem flattenBegin_eq {fdt₁ : Fdt} (he : fdtEnsureSpace heap fdt 0 = .ok fdt₁) (hname : name.length ≤ 1023) :
    flattenBegin heap fdt name
      = (put fdt₁.dtNextofs (beBytes 4 1 ++ name) fdt₁.dt).map fun dt =>
          { fdt₁ with dt := dt, dtNextofs := dtNextOfs fdt₁.dtNextofs (4 + name.length + 1) } := by
  unfold flattenBegin
  rw [he, ok_bind, lstrcpy_eq hname]
  dsimp only
  cases put fdt₁.dtNextofs (beBytes 4 1 ++ name) fdt₁.dt with
  | error e => rfl
  | ok dt => rfl

/-- A buffer that is filled beyond its end, by less than what an entry takes. -/
def Broken (fdt : Fdt) : Prop :=
  fdt.dt.length < fdt.dtNextofs ∧ fdt.dtNextofs ≤ fdt.dt.length + 4

/-- What becomes of an entry, by the room that it leaves. -/
def Fares (heap : Nat → UInt8) (w sw : Bytes) (so : Nat) (it : Item) (ret : Except Errno Fdt) :
    Option Room → Prop
  | some r' => ∃ fdt', ret = .ok fdt' ∧ Holds heap fdt' r' (w ++ it.bytes so) (sw ++ it.nameBytes heap so)
  | none => ret = .error .EFAULT ∨ (∃ name, it = .openNode name) ∧ ∃ fdt', ret = .ok fdt' ∧ Broken fdt'

/-- The beginning of a node. A name of 1020 bytes fits a buffer with 1024
bytes left, but the NUL behind it does not. -/
theorem Holds.openNode (hname : name.length ≤ 1023) :
    Fares heap w sw r.strNext (.openNode name) (flattenBegin heap fdt name) (r.step (.openNode name)) := by
  have hens := @Holds.ensure heap fdt r w sw 0 h (by decide)
  rw [Room.step]
  cases he : r.ensure 0 with
  | none =>
    rw [he] at hens
    unfold flattenBegin
    rw [hens]
    exact .inl rfl
  | some r₁ =>
    rw [he] at hens
    obtain ⟨fdt₁, hfdt₁, h₁⟩ := hens
    -- the tag and the name are written, then the offset is rounded
    have hround := le_roundup (4 + name.length + 1) (show 0 < 4 by decide)
    have hround' := roundup_lt (4 + name.length + 1) (show 0 < 4 by decide)
    have hlen : (beBytes 4 1 ++ name).length = 4 + name.length := by
      rw [length_append, beBytes_length]
    have hsize : (Item.openNode name).size = roundup (4 + name.length + 1) 4 := rfl
    have hmod := h₁.ok.next_mod
    have hdmod := h₁.ok.dt_mod
    have hlt := h₁.ok.dt_lt
    rw [flattenBegin_eq hfdt₁ hname, h₁.dtNext, Option.bind_some, Room.fill]
    by_cases hfit : r₁.dtNext + (beBytes 4 1 ++ name).length ≤ r₁.dtSize
    · have hput := h₁.put_dt hfit
      have hnext : dtNextOfs r₁.dtNext (4 + name.length + 1) = r₁.dtNext + (Item.openNode name).size :=
        dtNextOfs_eq hmod (by omega)
      rw [h₁.dtNext] at hput
      rw [hput, hnext]
      split
      · next hroom =>
        have h₂ := h₁.tag (b := beBytes 4 1 ++ name) (Item.openNode name).size (by omega) hroom
          (Nat.mod_eq_zero_of_dvd (dvd_roundup _ 4))
        rw [hlen] at h₂ ⊢
        exact ⟨_, rfl, (append_nil sw).symm ▸ h₂⟩
      · -- the name fits, but not its padding
        refine .inr ⟨⟨name, rfl⟩, _, rfl, ?_⟩
        unfold Broken
        simp only [length_append, length_replicate, beBytes_length, h₁.w_length] at hfit ⊢
        omega
    · rw [put_fails (by rw [h₁.dt_length]; omega), if_neg (by omega)]
      exact .inl rfl

/-- The end of a node. -/
theorem Holds.closeNode :
    Fares heap w sw r.strNext .closeNode (flattenEnd heap fdt) (r.step .closeNode) := by
  have hlen : (beBytes 4 2).length = 4 := beBytes_length 4 2
  have hround : roundup 4 4 = 4 := rfl
  unfold flattenEnd
  rw [Room.step, Room.fill, show Item.closeNode.size = 4 from rfl,
    show r.strNext + Item.closeNode.nameSize = r.strNext from rfl]
  split
  · next hroom =>
    have hlt : r.dtNext + 4 < 2 ^ 32 := Nat.lt_of_le_of_lt hroom h.ok.dt_lt
    have h₁ := h.tag 4 (Nat.le_of_eq hlen) hroom rfl
    rw [h.put_dt (by rw [hlen]; exact hroom), ok_bind, h.dtNext,
      dtNextOfs_eq h.ok.next_mod (by rw [hround]; exact hlt), Option.bind_some]
    have hens := @Holds.ensure _ _ _ _ _ 0 h₁ (by decide)
    cases he : Room.ensure _ 0 with
    | none =>
      rw [he] at hens
      exact .inl hens
    | some r' =>
      rw [he] at hens
      obtain ⟨fdt₂, hfdt₂, h₂⟩ := hens
      exact ⟨fdt₂, hfdt₂, (append_nil sw).symm ▸ h₂⟩
  · next hroom =>
    rw [put_fails (by rw [h.dt_length, h.dtNext]; omega)]
    exact .inl rfl

end

theorem fdtEnsureSpace_ample (hs : 1024 ≤ sub32 fdt.strings.length fdt.strNextofs)
    (hd : 1024 ≤ sub32 fdt.dt.length fdt.dtNextofs) : fdtEnsureSpace heap fdt 0 = .ok fdt := by
  unfold fdtEnsureSpace ensureStrings ensureDt
  rw [if_neg (Nat.not_lt_of_le hs), if_neg (show ¬ _ < (1024 + 0) % 2 ^ 32 from Nat.not_lt_of_le hd)]
  rfl

/-- A property's name goes to the end of the strings block. -/
theorem dtAddString_eq (heap : Nat → UInt8) (fdt : Fdt) {strings : Bytes} (hname : name.length ≤ 1023)
    (hs : 1024 ≤ sub32 fdt.strings.length fdt.strNextofs) (hd : 1024 ≤ sub32 fdt.dt.length fdt.dtNextofs)
    (hput : put fdt.strNextofs name fdt.strings = .ok strings) (hlt : fdt.strNextofs + name.length + 1 < 2 ^ 32) :
    dtAddString heap fdt name
      = .ok ({ fdt with strings := strings, strNextofs := fdt.strNextofs + name.length + 1 },
          fdt.strNextofs) := by
  have hne : ¬ name.length = minusENOSPC := by
    unfold minusENOSPC
    omega
  unfold dtAddString
  rw [fdtEnsureSpace_ample hs hd, lstrcpy_eq hname]
  show (put fdt.strNextofs name fdt.strings >>= _) = _
  rw [hput, ok_bind, if_neg hne, Nat.mod_eq_of_lt hlt]
  rfl

section

variable {value : Bytes} (h : Holds heap fdt r w sw) (hname : name.length ≤ 1023)
  (hvalue : value.length < 2 ^ 31)
include h hname hvalue

/-- Once there is room, a property depends on the last write only. -/
theorem Holds.flattenProp (he : r.ensure value.length = some r₁) : ∃ fdt₁ strings, Holds heap fdt₁ r₁ w sw ∧
      Holds heap { fdt₁ with strings := strings, strNextofs := r₁.strNext + name.length + 1 }
        { r₁ with strNext := r₁.strNext + name.length + 1 } w
        (sw ++ (name ++ [background heap (r₁.strNext + name.length)])) ∧
      flattenProp heap fdt (.owned name value)
        = (put (r₁.dtNext + 8) (beBytes 4 r₁.strNext ++ value)
            (w ++ (beBytes 4 3 ++ beBytes 4 value.length)
              ++ replicate (r₁.dtSize - r₁.dtNext - 8) 0)).map fun dt =>
            ⟨dt, dtNextOfs r₁.dtNext (12 + value.length), strings,
              r₁.strNext + name.length + 1⟩ := by
  have hensure := h.ensure hvalue
  rw [he] at hensure
  obtain ⟨fdt₁, hfdt₁, h₁⟩ := hensure
  have hens := Room.ensured he h.ok
  have hstr := hens.str
  have hdt := hens.dt
  have hstrlt := h₁.ok.str_lt
  obtain ⟨strings, hput, h₂⟩ := h₁.putName name (by omega)
  have hlen : (beBytes 4 3 ++ beBytes 4 value.length).length = 8 := by
    rw [length_append, beBytes_length, beBytes_length]
  have htag := h₁.put_dt (b := beBytes 4 3 ++ beBytes 4 value.length) (by omega)
  rw [hlen] at htag
  have hdtlen : (w ++ (beBytes 4 3 ++ beBytes 4 value.length)
      ++ replicate (r₁.dtSize - r₁.dtNext - 8) 0).length = r₁.dtSize := by
    rw [length_append, length_append, hlen, length_replicate, h₁.w_length]
    omega
  refine ⟨fdt₁, strings, h₁, h₂, ?_⟩
  -- the buffers have just been made large enough for the name
  have hadd := dtAddString_eq heap { fdt₁ with
      dt := w ++ (beBytes 4 3 ++ beBytes 4 value.length)
        ++ replicate (r₁.dtSize - r₁.dtNext - 8) 0 } hname
    (by
      rw [h₁.strings_length, h₁.strNext, sub32_eq h₁.ok.str_le h₁.ok.str_lt]
      exact hstr)
    (by
      rw [hdtlen, h₁.dtNext, sub32_eq h₁.ok.dt_le h₁.ok.dt_lt]
      exact hdt)
    hput
    (by
      rw [h₁.strNext]
      omega)
  have hconst : ¬ ((Property.owned name value).constAt.isSome ∧ value.length ≠ 0) :=
    fun hc => nomatch hc.1
  unfold Of.flattenProp
  rw [show (Property.owned name value).length = value.length from rfl,
    show (Property.owned name value).name = name from rfl,
    show (Property.owned name value).value = value from rfl, hfdt₁, ok_bind, htag, ok_bind, hadd,
    ok_bind]
  dsimp only
  rw [if_neg (not_not_intro rfl), if_neg hconst, if_neg (Nat.lt_irrefl _), take_length,
    h₁.dtNext, h₁.strNext]
  cases put (r₁.dtNext + 8) (beBytes 4 r₁.strNext ++ value) _ with
  | error e => rfl
  | ok dt => rfl

/-- A property. -/
theorem Holds.property :
    Fares heap w sw r.strNext (.property (.owned name value)) (Of.flattenProp heap fdt (.owned name value))
      (r.step (.property (.owned name value))) := by
  rw [Room.step, show (Property.owned name value).value = value from rfl]
  cases he : r.ensure value.length with
  | none =>
    have hens := h.ensure hvalue
    rw [he] at hens
    unfold Of.flattenProp
    rw [show (Property.owned name value).length = value.length from rfl, hens]
    exact .inl rfl
  | some r₁ =>
    have hens := Room.ensured he h.ok
    obtain ⟨fdt₁, strings, h₁, h₂, hprop⟩ := h.flattenProp hname hvalue he
    have hsize : (Item.property (.owned name value)).size = roundup (12 + value.length) 4 := rfl
    have hround := le_roundup (12 + value.length) (show 0 < 4 by decide)
    have hlen₁ : (beBytes 4 3 ++ beBytes 4 value.length).length = 8 := by
      rw [length_append, beBytes_length, beBytes_length]
    have hlen₂ : (beBytes 4 r₁.strNext ++ value).length = 4 + value.length := by
      rw [length_append, beBytes_length]
    rw [hprop, Option.bind_some, Room.fill]
    split
    · next hroom =>
      -- the first two words and the rest are as good as one write
      have hput : put (r₁.dtNext + 8) (beBytes 4 r₁.strNext ++ value)
          (w ++ (beBytes 4 3 ++ beBytes 4 value.length)
            ++ replicate (r₁.dtSize - r₁.dtNext - 8) 0)
          = .ok (w ++ (beBytes 4 3 ++ beBytes 4 value.length) ++ (beBytes 4 r₁.strNext ++ value)
            ++ replicate (r₁.dtSize - r₁.dtNext - 8 - (4 + value.length)) 0) := by
        rw [← hlen₂]
        refine put_zeros ?_ (by omega)
        rw [length_append, hlen₁, h₁.w_length]
      have hlen : (beBytes 4 3 ++ beBytes 4 value.length
          ++ (beBytes 4 r₁.strNext ++ value)).length = 12 + value.length := by
        rw [length_append]
        omega
      have h₃ := h₂.tag (roundup (12 + value.length) 4) (Nat.le_trans (Nat.le_of_eq hlen) hround)
        hroom (Nat.mod_eq_zero_of_dvd (dvd_roundup _ 4))
      have hnext : dtNextOfs r₁.dtNext (12 + value.length)
          = r₁.dtNext + roundup (12 + value.length) 4 :=
        dtNextOfs_eq h₁.ok.next_mod (Nat.lt_of_le_of_lt hroom h₁.ok.dt_lt)
      rw [hlen, ← append_assoc w] at h₃
      rw [hput, hnext, ← hens.strNext]
      refine ⟨_, rfl, ?_⟩
      rw [show r₁.dtSize - r₁.dtNext - 8 - (4 + value.length)
        = r₁.dtSize - r₁.dtNext - (12 + value.length) by omega]
      exact h₃
    · next hover =>
      -- both ends are aligned, so that it is the value that does not fit
      have hmod := h₁.ok.next_mod
      have hdmod := h₁.ok.dt_mod
      rw [put_fails]
      · exact .inl rfl
      · rw [hsize] at hover
        unfold roundup at hover
        simp only [length_append, length_replicate, beBytes_length, h₁.w_length]
        omega

end

/-! ## When there is no room -/

/-- The space that is left has wrapped around, and seems to be plenty. -/
theorem Broken.ensure (h : Broken fdt) (heap : Nat → UInt8) (hn : n < 2 ^ 31) :
    fdtEnsureSpace heap fdt n = .error .EFAULT ∨
      ∃ strings, fdtEnsureSpace heap fdt n = .ok { fdt with strings := strings } := by
  have ⟨hlt, hle⟩ := h
  have hdt : ensureDt fdt n = .ok fdt.dt := by
    unfold ensureDt sub32
    exact if_neg (by omega)
  unfold fdtEnsureSpace
  rw [hdt]
  unfold ensureStrings growStrings
  split
  · split
    · exact .inr ⟨_, rfl⟩
    · exact .inl rfl
  · exact .inr ⟨_, rfl⟩

theorem Broken.put_dt (h : Broken fdt) (b : Bytes) : put fdt.dtNextofs b fdt.dt = .error .EFAULT :=
  put_fails (by have := h.1; omega)

/-- Behind it, nothing can be written any more. -/
theorem Broken.item (h : Broken fdt) (hit : it.Sized) : flattenItem heap fdt it = .error .EFAULT := by
  cases it with
  | openNode name =>
    show flattenBegin heap fdt name = _
    unfold flattenBegin
    obtain he | ⟨strings, he⟩ := h.ensure heap (show 0 < 2 ^ 31 by decide)
    · rw [he, error_bind]
    · rw [he]
      show (put fdt.dtNextofs (beBytes 4 1 ++ (lstrcpy name).1) fdt.dt >>= _) = _
      rw [h.put_dt, error_bind]
  | property p =>
    obtain ⟨hp, -, -, hvalue⟩ := hit
    have hlen : p.length < 2 ^ 31 := by
      rw [hp]
      exact hvalue
    show Of.flattenProp heap fdt p = _
    unfold Of.flattenProp
    obtain he | ⟨strings, he⟩ := h.ensure heap hlen
    · rw [he, error_bind]
    · rw [he, ok_bind]
      rw [h.put_dt, error_bind]
  | closeNode =>
    show flattenEnd heap fdt = _
    unfold flattenEnd
    rw [h.put_dt, error_bind]

/-- The step of an entry. -/
theorem Holds.step (h : Holds heap fdt r w sw) (hit : it.Sized) :
    Fares heap w sw r.strNext it (flattenItem heap fdt it) (r.step it) := by
  cases it with
  | openNode name => exact h.openNode hit.2
  | property p =>
    obtain ⟨hp, -, hname, hvalue⟩ := hit
    rw [hp]
    exact h.property hname hvalue
  | closeNode => exact h.closeNode

/-! ## All entries -/

/-- If there is room, the buffers hold all entries in the end, and if there is none,
nothing is flattened. -/
theorem Holds.items {its : List Item} (hsized : ∀ it ∈ its, it.Sized)
    (hlast : ∀ it, its.getLast? = some it → it = .closeNode) (h : Holds heap fdt r w sw) :
    match its.foldlM Room.step r with
    | some r' => ∃ fdt', its.foldlM (flattenItem heap) fdt = .ok fdt' ∧
        Holds heap fdt' r' (w ++ itemsBytes r.strNext its) (sw ++ itemsNames heap r.strNext its)
    | none => its.foldlM (flattenItem heap) fdt = .error .EFAULT := by
  induction its generalizing fdt r w sw with
  | nil =>
    refine ⟨fdt, rfl, ?_⟩
    rw [itemsBytes, itemsNames, append_nil, append_nil]
    exact h
  | cons it its ih =>
    have hits : ∀ it ∈ its, it.Sized := fun it hit => hsized it (.tail _ hit)
    have hfares := h.step (hsized it (.head _))
    rw [foldlM_cons, foldlM_cons]
    cases hstep : r.step it with
    | some r₁ =>
      rw [hstep] at hfares
      obtain ⟨fdt₁, hitem, h₁⟩ := hfares
      have hnext : r₁.strNext = r.strNext + it.nameSize := by
        rw [← h₁.sw_length, length_append, Item.nameBytes_length, h.sw_length]
      have hlast' : ∀ x, its.getLast? = some x → x = .closeNode := by
        intro x hx
        refine hlast x ?_
        cases its with
        | nil => nomatch hx
        | cons it' its => rw [getLast?_cons_cons, hx]
      rw [hitem, itemsBytes, itemsNames, ← hnext, ← append_assoc, ← append_assoc]
      exact ih hits hlast' h₁
    | none =>
      rw [hstep] at hfares
      obtain herr | ⟨⟨name, rfl⟩, fdt', hok, hbroken⟩ := hfares
      · rw [herr]
        rfl
      -- the beginning of a node is not the last entry
      rw [hok, ok_bind]
      cases its with
      | nil => nomatch hlast _ rfl
      | cons it' its =>
        rw [foldlM_cons, hbroken.item (hits it' (.head _))]
        rfl

end Barebox.Of
