import Barebox.Base
import Barebox.Lib.Ranges

/-!
# Resources — `common/resource.c`, `include/linux/ioport.h`

A resource is a range of addresses, in a tree: its children are regions inside
of it, in a list that is kept in order. `__request_region` puts a new region
into the list of a parent, `release_region` takes one out again, and
`__merge_regions` gives the range of a region to another one next to it.

Mirroring notes:
- `resource_size_t` has `w` bits. Addresses are numbers; where the code adds to
  one, the sum is taken modulo `2 ^ w`.
- resources are in memory, and a pointer is a number (`Tree`). `xzalloc` hands
  out a number that was never used, and does not fail.
- a pointer that is not valid is `EFAULT`, and so is releasing a resource that
  is on no list.
- `at_` reads a child. There always is one (`Linked`).
-/

namespace Barebox.Ioport

open Lib

/-- `struct resource`, as far as it is looked at here. -/
structure Resource where
  name : String
  start : Nat
  end_ : Nat
  parent : Option Nat
  children : List Nat
  deriving DecidableEq

/-- Resources in memory. -/
structure Tree where
  nodes : Nat → Option Resource
  /-- no pointer from here on was handed out -/
  next : Nat

namespace Tree

def at_ (t : Tree) (id : Nat) : Resource := (t.nodes id).getD ⟨"", 0, 0, none, []⟩

def start (t : Tree) (id : Nat) : Nat := (t.at_ id).start
def end_ (t : Tree) (id : Nat) : Nat := (t.at_ id).end_

def set (t : Tree) (id : Nat) (r : Option Resource) : Tree :=
  { t with nodes := fun i => if i = id then r else t.nodes i }

end Tree

/-- A new child of `parent`, between two parts of its list. -/
def insert (t : Tree) (parent : Nat) (r : Resource) (pre post : List Nat) (new : Resource) : Tree where
  nodes := ((t.set t.next (some new)).set parent
    (some { r with children := pre ++ t.next :: post })).nodes
  next := t.next + 1

/-- `__request_region` -/
def requestRegion (t : Tree) (parent : Nat) (name : String) (start end_ : Nat) :
    Tree × Except Errno Nat :=
  match t.nodes parent with
  | none => (t, .error .EFAULT)
  | some r =>
    if end_ < start then (t, .error .EINVAL)
    else if start < r.start ∨ end_ > r.end_ then (t, .error .EINVAL)
    else
      match place t.start t.end_ start end_ r.children with
      | none => (t, .error .EBUSY)
      | some (pre, post) =>
        (insert t parent r pre post ⟨name, start, end_, some parent, []⟩, .ok t.next)

/-- `list_del` -/
def Resource.without (r : Resource) (id : Nat) : Resource :=
  { r with children := r.children.filter (· ≠ id) }

/-- A child is taken off its list and freed. -/
def remove (t : Tree) (parent : Nat) (r : Resource) (id : Nat) : Tree :=
  (t.set parent (some (r.without id))).set id none

/-- `release_region` -/
def releaseRegion (t : Tree) (id : Nat) : Tree × Except Errno Unit :=
  match t.nodes id with
  | none => (t, .error .EFAULT)
  | some res =>
    if res.children ≠ [] then (t, .error .EBUSY)
    else
      match res.parent with
      | none => (t, .error .EFAULT)
      | some parent => (remove t parent (t.at_ parent) id, .ok ())

/-- `resource_adjacent` -/
def resourceAdjacent (w : Nat) (r1 r2 : Resource) : Bool :=
  (r1.end_ ≠ 2 ^ w - 1 ∧ (r1.end_ + 1) % 2 ^ w = r2.start)
    ∨ (r2.end_ ≠ 2 ^ w - 1 ∧ (r2.end_ + 1) % 2 ^ w = r1.start)

/-- The range of both. -/
def merged (name : String) (resa resb : Resource) : Resource :=
  if resa.start < resb.start then { resa with name := name, end_ := resb.end_ }
  else { resa with name := name, start := resb.start }

/-- `__merge_regions` -/
def mergeRegions (w : Nat) (t : Tree) (name : String) (resa resb : Nat) : Tree × Except Errno Unit :=
  match t.nodes resa, t.nodes resb with
  | some ra, some rb =>
    if !resourceAdjacent w ra rb then (t, .error .EINVAL)
    else ((releaseRegion (t.set resa (some (merged name ra rb))) resb).1, .ok ())
  | _, _ => (t, .error .EFAULT)

/-! ## Calls -/

inductive Op where
  | request (parent : Nat) (name : String) (start end_ : Nat)
  | release (res : Nat)
  | merge (name : String) (resa resb : Nat)

/-- The tree after a call. -/
def step (w : Nat) (t : Tree) : Op → Tree
  | .request parent name start end_ => (requestRegion t parent name start end_).1
  | .release res => (releaseRegion t res).1
  | .merge name resa resb => (mergeRegions w t name resa resb).1

end Barebox.Ioport
