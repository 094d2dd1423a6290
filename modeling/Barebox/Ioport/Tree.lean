import Barebox.Ioport.Model

/-!
# The tree of resources — `common/resource.c`

`Linked` says that the pointers make a tree: parents and children agree, and
every resource is below the root. Every call keeps it, whatever the ranges are.

`Ordered` is about the ranges: the children of a resource are inside of it and
one behind the other. Then two resources of which none is below the other have
no address in common (`nested_or_apart`).
-/

namespace Barebox.Ioport

open Lib

variable {w root : Nat} {t : Tree}

/-! ## Pointers -/

/-- `id` is `a`, or somewhere below it. -/
inductive Below (t : Tree) : Nat → Nat → Prop where
  | refl (id : Nat) : Below t id id
  | step {id p a : Nat} {r : Resource} : t.nodes id = some r → r.parent = some p → Below t p a →
    Below t id a

structure Linked (t : Tree) (root : Nat) : Prop where
  top : ∃ r, t.nodes root = some r ∧ r.parent = none
  up : ∀ {id r}, t.nodes id = some r → id ≠ root →
    ∃ p pr, r.parent = some p ∧ t.nodes p = some pr ∧ id ∈ pr.children
  down : ∀ {id r c}, t.nodes id = some r → c ∈ r.children →
    ∃ cr, t.nodes c = some cr ∧ cr.parent = some id
  /-- there is no way around -/
  rank : ∃ f : Nat → Nat, ∀ {id r p}, t.nodes id = some r → r.parent = some p → f p < f id
  fresh : ∀ id, t.next ≤ id → t.nodes id = none

namespace Tree

@[simp] theorem set_same (t : Tree) (id : Nat) (r : Option Resource) : (t.set id r).nodes id = r :=
  if_pos rfl

variable {id : Nat} {r : Resource}

theorem set_ne (t : Tree) {i : Nat} (r : Option Resource) (h : i ≠ id) : (t.set id r).nodes i = t.nodes i := if_neg h

theorem at_eq (h : t.nodes id = some r) : t.at_ id = r := by
  unfold at_
  rw [h]
  rfl

theorem start_eq (h : t.nodes id = some r) : t.start id = r.start := by
  rw [start, at_eq h]

theorem end_eq (h : t.nodes id = some r) : t.end_ id = r.end_ := by
  rw [end_, at_eq h]

end Tree

section

variable (h : Linked t root)
include h

variable {id p : Nat} {r : Resource}

section

variable (hid : t.nodes id = some r)
include hid

theorem Linked.root_of_parent (hp : r.parent = none) : id = root := by
  refine Classical.byContradiction fun hne => ?_
  obtain ⟨p, pr, hp', -⟩ := h.up hid hne
  rw [hp] at hp'
  nomatch hp'

theorem Linked.parent (hp : r.parent = some p) : ∃ pr, t.nodes p = some pr ∧ id ∈ pr.children := by
  have hne : id ≠ root := by
    intro heq
    obtain ⟨rr, hroot, hnone⟩ := h.top
    rw [heq, hroot] at hid
    cases hid
    rw [hnone] at hp
    nomatch hp
  obtain ⟨p', pr, hp', hpr, hmem⟩ := h.up hid hne
  rw [hp] at hp'
  cases hp'
  exact ⟨pr, hpr, hmem⟩

omit hid in
/-- A resource is on one list only. -/
theorem Linked.parent_unique {q c : Nat} {pr qr : Resource} (hp : t.nodes p = some pr)
    (hq : t.nodes q = some qr) (hcp : c ∈ pr.children) (hcq : c ∈ qr.children) : p = q := by
  obtain ⟨cr, hc, hparent⟩ := h.down hp hcp
  obtain ⟨cr', hc', hparent'⟩ := h.down hq hcq
  rw [hc] at hc'
  cases hc'
  rw [hparent] at hparent'
  exact Option.some.inj hparent'

theorem Linked.ne_parent (hp : r.parent = some p) : id ≠ p := by
  obtain ⟨f, hf⟩ := h.rank
  have hlt := hf hid hp
  intro heq
  rw [heq] at hlt
  exact Nat.lt_irrefl _ hlt

/-- Every resource is below the root. -/
theorem Linked.below : Below t id root := by
  obtain ⟨f, hf⟩ := h.rank
  -- the rank gets smaller on the way up
  induction hn : f id using Nat.strongRecOn generalizing id r with
  | ind n ih =>
    cases hp : r.parent with
    | none =>
      rw [h.root_of_parent hid hp]
      exact .refl root
    | some p =>
      obtain ⟨pr, hpr, -⟩ := h.parent hid hp
      exact .step hid hp (ih (f p) (hn ▸ hf hid hp) hpr rfl)

end

/-- The way up to `a` goes through a child of it. -/
theorem Linked.below_child {a : Nat} (hb : Below t id a) (hne : id ≠ a) :
    ∃ ar y, t.nodes a = some ar ∧ y ∈ ar.children ∧ Below t id y := by
  induction hb with
  | refl => exact absurd rfl hne
  | @step id p a r hid hp hb ih =>
    by_cases hpa : p = a
    · subst hpa
      obtain ⟨pr, hpr, hmem⟩ := h.parent hid hp
      exact ⟨pr, id, hpr, hmem, .refl id⟩
    · obtain ⟨ar, y, har, hy, hby⟩ := ih hpa
      exact ⟨ar, y, har, hy, .step hid hp hby⟩

end

/-! ## Ranges -/

/-- The children of every resource are inside of it, and one behind the
other. -/
structure Ordered (w : Nat) (t : Tree) (root : Nat) : Prop where
  root_le : t.start root ≤ t.end_ root
  root_lt : t.end_ root < 2 ^ w
  inOrder : ∀ {id r}, t.nodes id = some r → InOrder t.start t.end_ r.children
  le : ∀ {id r c}, t.nodes id = some r → c ∈ r.children → t.start c ≤ t.end_ c
  inside : ∀ {id r c}, t.nodes id = some r → c ∈ r.children →
    r.start ≤ t.start c ∧ t.end_ c ≤ r.end_

section

variable (h : Linked t root) (ho : Ordered w t root)
include h ho

variable {id : Nat}

theorem Ordered.below_inside {a : Nat} (hb : Below t id a) : t.start a ≤ t.start id ∧ t.end_ id ≤ t.end_ a := by
  induction hb with
  | refl => exact ⟨Nat.le_refl _, Nat.le_refl _⟩
  | step hid hp _ ih =>
    obtain ⟨pr, hpr, hmem⟩ := h.parent hid hp
    have hin := ho.inside hpr hmem
    rw [Tree.start_eq hpr, Tree.end_eq hpr] at ih
    omega

variable {r : Resource} {p : Nat}

theorem Ordered.start_le_end (hid : t.nodes id = some r) : t.start id ≤ t.end_ id := by
  by_cases hroot : id = root
  · rw [hroot]
    exact ho.root_le
  · obtain ⟨p, pr, -, hpr, hmem⟩ := h.up hid hroot
    exact ho.le hpr hmem

theorem Ordered.end_lt (hid : t.nodes id = some r) : t.end_ id < 2 ^ w :=
  Nat.lt_of_le_of_lt (ho.below_inside h (h.below hid)).2 ho.root_lt

omit h in
/-- Of two children one is behind the other. -/
theorem Ordered.siblings {x y : Nat} {pr : Resource} (hp : t.nodes p = some pr)
    (hx : x ∈ pr.children) (hy : y ∈ pr.children) (hne : x ≠ y) :
    t.end_ x < t.start y ∨ t.end_ y < t.start x :=
  (ho.inOrder hp).apart hx hy hne

/-- Two resources are one below the other, or have no address in common. -/
theorem nested_or_apart {x y : Nat} (hx : Below t x root) {yr : Resource} (hy : t.nodes y = some yr) :
    Below t x y ∨ Below t y x ∨ t.end_ x < t.start y ∨ t.end_ y < t.start x := by
  generalize hr : root = r at hx
  induction hx with
  | refl id =>
    subst hr
    exact Or.inr (Or.inl (h.below hy))
  | @step id p a r' hid hp hb ih =>
    subst hr
    obtain ⟨pr, hpr, hmem⟩ := h.parent hid hp
    have hin := ho.below_inside h (Below.step hid hp (.refl p))
    rcases ih rfl with hpy | hyp | hapart
    · exact Or.inl (.step hid hp hpy)
    · by_cases heq : y = p
      · rw [heq]
        exact Or.inl (.step hid hp (.refl p))
      -- `y` is below a child of `p`, which is `id` or next to it
      obtain ⟨ar, z, har, hz, hyz⟩ := h.below_child hyp heq
      rw [hpr] at har
      cases har
      by_cases hzid : z = id
      · rw [← hzid]
        exact Or.inr (Or.inl hyz)
      · have hsib := ho.siblings hpr hmem hz (Ne.symm hzid)
        have hyin := ho.below_inside h hyz
        exact Or.inr (Or.inr (by omega))
    · exact Or.inr (Or.inr (by omega))

end

end Barebox.Ioport
