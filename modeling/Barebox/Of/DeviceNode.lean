import Barebox.Of.Node
import Barebox.Lib.Cells

/-!
# Nodes with phandles — `drivers/of/base.c`

`struct device_node` as code sees it that follows phandles and writes into
properties: every node has its phandle, and pointers to nodes and properties
are places in the tree. A node is where a path of child numbers leads, and a
property is a node and its number there (`PropRef`). Names, phandles and
lengths do not change while properties are written to, so that a tree that
is being worked on is the tree and the bytes of its properties (`values`,
`withValues`).

Mirroring notes:
- `parent` and `full_name` are not used here and left out.
- the list all nodes of a tree are in is `listed`: `of_new_node` puts a node
  right behind its parent, so that the children that were added last come
  first. The node it is taken from is not part of it.
-/

namespace Barebox.Of

open Lib List

/-- `struct device_node`. -/
inductive DeviceNode where
  | mk (name : Bytes) (phandle : UInt32) (props : List Property) (children : List DeviceNode)

/-- A node of a tree, by the numbers of children that lead to it. -/
abbrev Path := List Nat

/-- A property of a tree: the node, and the number of the property. -/
abbrev PropRef := Path × Nat

namespace DeviceNode

def name : DeviceNode → Bytes
  | .mk n _ _ _ => n

def phandle : DeviceNode → UInt32
  | .mk _ h _ _ => h

def props : DeviceNode → List Property
  | .mk _ _ p _ => p

def children : DeviceNode → List DeviceNode
  | .mk _ _ _ c => c

/-- The node a path leads to. -/
def get? : DeviceNode → Path → Option DeviceNode
  | n, [] => some n
  | n, i :: p => n.children[i]?.bind (·.get? p)

/-- The property a reference is to. -/
def prop? (t : DeviceNode) (r : PropRef) : Option Property := (t.get? r.1).bind (·.props[r.2]?)

/-- The bytes of all properties. -/
def values (t : DeviceNode) : Store PropRef := fun r => ((t.prop? r).map Property.value).getD []

mutual

/-- The tree with other bytes in its properties. -/
def withValues (s : Store PropRef) : Path → DeviceNode → DeviceNode
  | p, .mk name phandle props children =>
    .mk name phandle (props.zipIdx.map fun (q, i) => .owned q.name (s (p, i)))
      (withValuesAll s p 0 children)

def withValuesAll (s : Store PropRef) : Path → Nat → List DeviceNode → List DeviceNode
  | _, _, [] => []
  | p, k, n :: ns => n.withValues s (p ++ [k]) :: withValuesAll s p (k + 1) ns

end

mutual

/-- The nodes below a node, in the order of the list they are in. -/
def listed : DeviceNode → List (Path × DeviceNode)
  | .mk _ _ _ children => listedFrom 0 children

def listedFrom : Nat → List DeviceNode → List (Path × DeviceNode)
  | _, [] => []
  | k, n :: ns => listedFrom (k + 1) ns ++ ([k], n) :: n.listed.map fun (p, m) => (k :: p, m)

end

/-! ## Looking things up -/

/-- `of_find_property` -/
def findProperty (n : DeviceNode) (name : Bytes) : Option Nat :=
  n.props.findIdx? fun p => p.name = name

/-- `of_get_child_by_name`, which does not look at upper and lower case. -/
def getChildByName (n : DeviceNode) (name : Bytes) : Option Nat :=
  n.children.findIdx? fun c => strcaseeq c.name name

/-- `of_find_node_by_name` -/
def findNodeByName (src : DeviceNode) (name : Bytes) : Option Path :=
  (src.listed.find? fun x => strcaseeq x.2.name name).map Prod.fst

/-- `of_get_tree_max_phandle`, which leaves out the root. -/
def maxPhandle (root : DeviceNode) : UInt32 :=
  root.listed.foldl (fun max x => if x.2.phandle > max then x.2.phandle else max) 0

/-- The names a path is cut into at its slashes; a slash at the end is
ignored. The name so far is `acc`. -/
def pathNames (acc : Bytes) : Bytes → List Bytes
  | [] => if acc = [] then [] else [acc]
  | c :: cs => if c = 47 then acc :: pathNames [] cs else pathNames (acc ++ [c]) cs

/-- From child to child by name. -/
def descend : DeviceNode → List Bytes → Option Path
  | _, [] => some []
  | n, name :: names =>
    (n.getChildByName name).bind fun i =>
      n.children[i]?.bind fun m => (m.descend names).map (i :: ·)

/-- `of_find_node_by_path_from` -/
def findNodeByPath (src : DeviceNode) : Bytes → Option Path
  | [] => none
  | c :: cs => if c = 47 then src.descend (pathNames [] cs) else none

/-- `of_property_read_string` -/
def propertyReadString (n : DeviceNode) (name : Bytes) : Except Errno Bytes :=
  match (n.findProperty name).bind (n.props[·]?) with
  | none => .error .EINVAL
  | some p => stringIn p.value p.length

/-! ## Copies -/

/-- `of_new_property(np, pp->name, pp->value, pp->length)`: `value` is a NULL
pointer if the property borrows its bytes. -/
def copyProp (p : Property) : Property :=
  .owned p.name (if p.constAt.isSome then replicate p.length 0 else p.value.take p.length)

mutual

/-- `of_copy_node` below the root. -/
def copyBelow : DeviceNode → DeviceNode
  | .mk name phandle props children => .mk name phandle (props.map copyProp) (copyAll children)

def copyAll : List DeviceNode → List DeviceNode
  | [] => []
  | n :: ns => n.copyBelow :: copyAll ns

end

/-- `of_copy_node(NULL, other)`: the root has no name. -/
def ofCopyNode : DeviceNode → DeviceNode
  | .mk _ phandle props children => .mk [] phandle (props.map copyProp) (copyAll children)

/-! ## Places -/

theorem get?_append (p q : Path) : ∀ t : DeviceNode, t.get? (p ++ q) = (t.get? p).bind (·.get? q) := by
  induction p with
  | nil => exact fun t => rfl
  | cons i p ih =>
    intro t
    rw [cons_append, get?, get?]
    cases t.children[i]? with
    | none => rfl
    | some n => exact ih n

/-- Storing the values keeps the children at their places, … -/
theorem withValuesAll_getElem? (s : Store PropRef) (p : Path) (ns : List DeviceNode) (k i : Nat) :
    (withValuesAll s p k ns)[i]? = ns[i]?.map (·.withValues s (p ++ [k + i])) := by
  induction ns generalizing k i with
  | nil => rfl
  | cons n ns ih =>
    rw [withValuesAll]
    cases i with
    | zero => rfl
    | succ i =>
      rw [getElem?_cons_succ, getElem?_cons_succ, ih, Nat.add_right_comm, Nat.add_assoc]

/-- … and so does every path. -/
theorem withValues_get? (s : Store PropRef) (q : Path) : ∀ (t : DeviceNode) (p : Path),
    (t.withValues s p).get? q = (t.get? q).map (·.withValues s (p ++ q)) := by
  induction q with
  | nil =>
    intro t p
    rw [append_nil]
    rfl
  | cons i q ih =>
    intro t p
    cases t with
    | mk name phandle props children =>
      show ((withValuesAll s p 0 children)[i]?).bind _ = (children[i]?.bind _).map _
      rw [withValuesAll_getElem?, Nat.zero_add]
      cases children[i]? with
      | none => rfl
      | some n =>
        show (n.withValues s (p ++ [i])).get? q = _
        rw [ih, append_assoc]
        rfl

variable {t : DeviceNode} {r : PropRef} {q : Property} {s : Store PropRef}

/-- The new bytes are what is read. -/
theorem withValues_values
    (h : t.prop? r = some q) : (t.withValues s []).values r = s r := by
  obtain ⟨p, i⟩ := r
  obtain ⟨n, hn, hq⟩ := Option.bind_eq_some_iff.mp h
  have hprop : (t.withValues s []).prop? (p, i) = some (.owned q.name (s (p, i))) := by
    unfold prop?
    rw [withValues_get?, hn]
    cases n with
    | mk name phandle props children =>
      have hq : props[i]? = some q := hq
      show (props.zipIdx.map _)[i]? = _
      rw [getElem?_map, getElem?_zipIdx, hq, Nat.zero_add]
      rfl
  unfold values
  rw [hprop]
  rfl

theorem values_eq (h : t.prop? r = some q) : t.values r = q.value := by
  unfold values
  rw [h]
  rfl

theorem values_eq_nil (h : t.prop? r = none) : t.values r = [] := by
  unfold values
  rw [h]
  rfl

theorem withValues_values_none (h : t.prop? r = none) : (t.withValues s []).values r = [] := by
  obtain ⟨p, i⟩ := r
  refine values_eq_nil ?_
  unfold prop? at h ⊢
  rw [withValues_get?]
  cases hn : t.get? p with
  | none => rfl
  | some n =>
    rw [hn] at h
    cases n with
    | mk name phandle props children =>
      have h : props[i]? = none := h
      show (props.zipIdx.map _)[i]? = _
      rw [getElem?_map, getElem?_zipIdx, h]
      rfl

mutual

/-- The nodes in the list are those below the root. -/
theorem mem_listed : ∀ (t : DeviceNode) {p : Path} {n : DeviceNode},
    (p, n) ∈ t.listed ↔ p ≠ [] ∧ t.get? p = some n
  | .mk name phandle props children, p, n => by
    rw [listed, mem_listedFrom]
    constructor
    · intro ⟨i, q, hp, h⟩
      rw [Nat.zero_add] at hp
      rw [hp]
      exact ⟨cons_ne_nil _ _, h⟩
    · intro ⟨hp, h⟩
      cases p with
      | nil => exact absurd rfl hp
      | cons i q => exact ⟨i, q, by rw [Nat.zero_add], h⟩

/-- The nodes that are listed are those with a path. -/
theorem mem_listedFrom : ∀ (ns : List DeviceNode) {k : Nat} {p : Path} {n : DeviceNode},
    (p, n) ∈ listedFrom k ns ↔ ∃ i q, p = (k + i) :: q ∧ (ns[i]?.bind (·.get? q)) = some n
  | [], k, p, n => by
    rw [listedFrom]
    exact ⟨nofun, (fun ⟨_, _, _, h⟩ => nomatch h)⟩
  | m :: ms, k, p, n => by
    rw [listedFrom, mem_append, mem_listedFrom ms, mem_cons, mem_map]
    constructor
    · intro h
      rcases h with ⟨i, q, hp, h⟩ | h | ⟨⟨q, n'⟩, hq, h⟩
      · exact ⟨i + 1, q, by rw [hp, Nat.add_assoc, Nat.add_comm 1], h⟩
      · cases h
        exact ⟨0, [], rfl, rfl⟩
      · cases h
        exact ⟨0, q, rfl, ((mem_listed m).mp hq).2⟩
    · intro ⟨i, q, hp, h⟩
      cases i with
      | succ i => exact .inl ⟨i, q, by rw [hp, Nat.add_assoc, Nat.add_comm 1], h⟩
      | zero =>
        have h : m.get? q = some n := h
        cases q with
        | nil =>
          cases h
          exact .inr (.inl (by rw [hp]; rfl))
        | cons j q =>
          exact .inr (.inr ⟨(j :: q, n), (mem_listed m).mpr ⟨cons_ne_nil _ _, h⟩, by rw [hp]; rfl⟩)

end

theorem get?_of_findNodeByName {name : Bytes} {p : Path}
    (h : t.findNodeByName name = some p) : ∃ n, t.get? p = some n := by
  obtain ⟨⟨p', n⟩, hfind, rfl⟩ := Option.map_eq_some_iff.mp h
  exact ⟨n, ((mem_listed t).mp (mem_of_find?_eq_some hfind)).2⟩

/-! ## The greatest phandle -/

/-- The loop over all nodes keeps the largest phandle. -/
theorem foldl_max (l : List (Path × DeviceNode)) : ∀ max : UInt32,
    let m := l.foldl (fun max x => if x.2.phandle > max then x.2.phandle else max) max
    max ≤ m ∧ (∀ x ∈ l, x.2.phandle ≤ m) ∧ (m = max ∨ ∃ x ∈ l, x.2.phandle = m) := by
  induction l with
  | nil => exact fun max => ⟨UInt32.le_refl _, nofun, .inl rfl⟩
  | cons y l ih =>
    intro max
    obtain ⟨hle, hall, hmem⟩ := ih (if y.2.phandle > max then y.2.phandle else max)
    rw [foldl_cons]
    by_cases hy : y.2.phandle > max
    · rw [if_pos hy] at hle hall hmem ⊢
      refine ⟨UInt32.le_trans (UInt32.le_of_lt hy) hle, ?_, ?_⟩
      · intro x hx
        cases hx with
        | head => exact hle
        | tail _ hx => exact hall x hx
      · obtain hm | ⟨x, hx, hm⟩ := hmem
        · exact .inr ⟨y, .head _, hm.symm⟩
        · exact .inr ⟨x, .tail _ hx, hm⟩
    · rw [if_neg hy] at hle hall hmem ⊢
      refine ⟨hle, ?_, ?_⟩
      · intro x hx
        cases hx with
        | head => exact UInt32.le_trans (UInt32.not_lt.mp hy) hle
        | tail _ hx => exact hall x hx
      · obtain hm | ⟨x, hx, hm⟩ := hmem
        · exact .inl hm
        · exact .inr ⟨x, .tail _ hx, hm⟩

theorem le_maxPhandle {n : DeviceNode} {p : Path} (hp : p ≠ []) (h : t.get? p = some n) :
    n.phandle ≤ t.maxPhandle := (foldl_max t.listed 0).2.1 (p, n) ((mem_listed t).mpr ⟨hp, h⟩)

theorem maxPhandle_cases (t : DeviceNode) :
    t.maxPhandle = 0 ∨ ∃ p n, t.get? p = some n ∧ n.phandle = t.maxPhandle := by
  obtain h | ⟨⟨p, n⟩, hx, h⟩ := (foldl_max t.listed 0).2.2
  · exact .inl h
  · exact .inr ⟨p, n, ((mem_listed t).mp hx).2, h⟩

end DeviceNode

end Barebox.Of
