import Barebox.Ioport.Tree

/-!
# What the calls do — `common/resource.c`

Every call leaves the tree alone or changes it in one of three ways: a region
is put into a list (`insert`), taken out of one (`remove`), or gets another
range. Here is what each of these does to the pointers and to the ranges.
-/

namespace Barebox.Ioport

open Lib

variable {w root : Nat} {t : Tree}

/-! ## A new region -/

section

variable {parent : Nat} {r new : Resource} {pre post : List Nat}

theorem insert_parent : (insert t parent r pre post new).nodes parent
    = some { r with children := pre ++ t.next :: post } := Tree.set_same _ _ _

theorem insert_new (h : t.next ≠ parent) :
    (insert t parent r pre post new).nodes t.next = some new := by
  unfold insert
  rw [Tree.set_ne _ _ h, Tree.set_same]

variable {i : Nat}

theorem insert_other (hp : i ≠ parent) (hn : i ≠ t.next) :
    (insert t parent r pre post new).nodes i = t.nodes i := by
  unfold insert
  rw [Tree.set_ne _ _ hp, Tree.set_ne _ _ hn]

end

/-- Where a region is put. -/
structure Places (t : Tree) (parent : Nat) (start end_ : Nat) (r : Resource) (pre post : List Nat) :
    Prop where
  parent : t.nodes parent = some r
  le : start ≤ end_
  inside : r.start ≤ start ∧ end_ ≤ r.end_
  place : place t.start t.end_ start end_ r.children = some (pre, post)

/-- A request finds a place between two children, or leaves the tree alone. -/
theorem requestRegion_cases (t : Tree) (parent : Nat) (name : String) (start end_ : Nat) :
    (∃ r pre post, Places t parent start end_ r pre post
      ∧ requestRegion t parent name start end_
        = (insert t parent r pre post ⟨name, start, end_, some parent, []⟩, .ok t.next))
    ∨ ∃ e, requestRegion t parent name start end_ = (t, .error e) := by
  unfold requestRegion
  cases hp : t.nodes parent with
  | none => exact Or.inr ⟨_, rfl⟩
  | some r =>
    dsimp only
    by_cases hle : end_ < start
    · rw [if_pos hle]
      exact Or.inr ⟨_, rfl⟩
    rw [if_neg hle]
    split
    next hout => exact Or.inr ⟨_, rfl⟩
    next hout =>
    cases hplace : place t.start t.end_ start end_ r.children with
    | none => exact Or.inr ⟨_, rfl⟩
    | some x => exact Or.inl ⟨r, x.1, x.2, ⟨hp, by omega, by omega, hplace⟩, rfl⟩

section

variable {parent start end_ : Nat} {r : Resource} {pre post : List Nat}

theorem Places.children (h : Places t parent start end_ r pre post) : r.children = pre ++ post :=
  (place_some h.place).1

variable {id c i : Nat}

theorem Linked.next_ne (hl : Linked t root) (h : t.nodes id = some r) :
    id ≠ t.next := by
  intro heq
  rw [heq, hl.fresh t.next (Nat.le_refl _)] at h
  nomatch h

variable (hl : Linked t root) (h : Places t parent start end_ r pre post)
include hl h

omit hl in
theorem Places.mem_iff : c ∈ pre ++ t.next :: post ↔ c = t.next ∨ c ∈ r.children := by
  rw [h.children, List.mem_append, List.mem_append, List.mem_cons]
  exact or_left_comm

variable {x : Resource}

omit h in
theorem Linked.child_ne_next (hid : t.nodes id = some x) (hc : c ∈ x.children) : c ≠ t.next := by
  obtain ⟨cr, hcr, -⟩ := hl.down hid hc
  exact hl.next_ne hcr

/-- Resources that were there keep their range, parent and children. -/
theorem Places.old (name : String) (hi : t.nodes i = some x) :
    ∃ x', (insert t parent r pre post ⟨name, start, end_, some parent, []⟩).nodes i = some x'
      ∧ x'.parent = x.parent ∧ x'.start = x.start ∧ x'.end_ = x.end_
      ∧ ∀ c ∈ x.children, c ∈ x'.children := by
  by_cases hp : i = parent
  · subst hp
    have hx := h.parent
    rw [hi] at hx
    cases hx
    exact ⟨_, insert_parent, rfl, rfl, rfl, fun c hc => h.mem_iff.mpr (Or.inr hc)⟩
  · exact ⟨x, (insert_other hp (hl.next_ne hi)).trans hi, rfl, rfl, rfl, fun c hc => hc⟩

variable {name : String}

/-- What is found in the new tree. -/
theorem Places.found
    (hi : (insert t parent r pre post ⟨name, start, end_, some parent, []⟩).nodes i = some x) :
    (i = t.next ∧ x = ⟨name, start, end_, some parent, []⟩)
      ∨ ∃ y, t.nodes i = some y ∧ x.parent = y.parent ∧ x.start = y.start ∧ x.end_ = y.end_
        ∧ ∀ c ∈ x.children, c ∈ y.children ∨ (i = parent ∧ c = t.next) := by
  by_cases hp : i = parent
  · subst hp
    rw [insert_parent] at hi
    cases hi
    refine Or.inr ⟨r, h.parent, rfl, rfl, rfl, fun c hc => ?_⟩
    rcases h.mem_iff.mp hc with hc | hc
    · exact Or.inr ⟨rfl, hc⟩
    · exact Or.inl hc
  · by_cases hn : i = t.next
    · rw [hn, insert_new (Ne.symm (hl.next_ne h.parent))] at hi
      cases hi
      exact Or.inl ⟨hn, rfl⟩
    · rw [insert_other hp hn] at hi
      exact Or.inr ⟨x, hi, rfl, rfl, rfl, fun c hc => Or.inl hc⟩

/-- A request keeps the tree linked. -/
theorem Linked.insert (name : String) :
    Linked (insert t parent r pre post ⟨name, start, end_, some parent, []⟩) root where
  top := by
    obtain ⟨rr, hroot, hnone⟩ := hl.top
    obtain ⟨x, hx, hparent, -⟩ := h.old hl name hroot
    exact ⟨x, hx, hparent.trans hnone⟩
  up := by
    intro i x hi hne
    rcases h.found hl hi with ⟨rfl, rfl⟩ | ⟨y, hy, hparent, -⟩
    · exact ⟨parent, _, rfl, insert_parent, h.mem_iff.mpr (Or.inl rfl)⟩
    · obtain ⟨p, pr, hp, hpr, hmem⟩ := hl.up hy hne
      obtain ⟨pr', hpr', -, -, -, hchildren⟩ := h.old hl name hpr
      exact ⟨p, pr', hparent.trans hp, hpr', hchildren i hmem⟩
  down := by
    intro i x c hi hc
    rcases h.found hl hi with ⟨rfl, rfl⟩ | ⟨y, hy, -, -, -, hchildren⟩
    · nomatch hc
    rcases hchildren c hc with hc | ⟨rfl, rfl⟩
    · obtain ⟨cr, hcr, hparent⟩ := hl.down hy hc
      obtain ⟨cr', hcr', hparent', -⟩ := h.old hl name hcr
      exact ⟨cr', hcr', hparent'.trans hparent⟩
    · exact ⟨_, insert_new (Ne.symm (hl.next_ne h.parent)), rfl⟩
  rank := by
    obtain ⟨f, hf⟩ := hl.rank
    -- the new region is one below its parent
    refine ⟨fun i => if i = t.next then f parent + 1 else f i, ?_⟩
    intro i x p hi hp
    rcases h.found hl hi with ⟨rfl, rfl⟩ | ⟨y, hy, hparent, -⟩
    · cases hp
      dsimp only
      rw [if_pos rfl, if_neg (hl.next_ne h.parent)]
      exact Nat.lt_succ_self _
    · obtain ⟨pr, hpr, -⟩ := hl.parent hy (hparent.symm.trans hp)
      dsimp only
      rw [if_neg (hl.next_ne hy), if_neg (hl.next_ne hpr)]
      exact hf hy (hparent.symm.trans hp)
  fresh := by
    intro i hi
    have hi : t.next + 1 ≤ i := hi
    cases hx : (Ioport.insert t parent r pre post ⟨name, start, end_, some parent, []⟩).nodes i with
    | none => rfl
    | some x =>
      rcases h.found hl hx with ⟨rfl, -⟩ | ⟨y, hy, -⟩
      · exact absurd hi (Nat.not_succ_le_self _)
      · rw [hl.fresh i (by omega)] at hy
        nomatch hy

section

variable {t' : Tree} (ht : t' = Ioport.insert t parent r pre post ⟨name, start, end_, some parent, []⟩)
include ht

variable {i : Nat} {x : Resource}

theorem Places.range_old (hi : t.nodes i = some x) : t'.start i = t.start i ∧ t'.end_ i = t.end_ i := by
  obtain ⟨x', hx', -, hstart, hend, -⟩ := h.old hl name hi
  rw [← ht] at hx'
  rw [Tree.start_eq hx', Tree.end_eq hx', Tree.start_eq hi, Tree.end_eq hi]
  exact ⟨hstart, hend⟩

theorem Places.range_new : t'.start t.next = start ∧ t'.end_ t.next = end_ := by
  have hnew : t'.nodes t.next = some ⟨name, start, end_, some parent, []⟩ := by
    rw [ht]
    exact insert_new (Ne.symm (hl.next_ne h.parent))
  exact ⟨Tree.start_eq hnew, Tree.end_eq hnew⟩

theorem Places.range_child (hi : t.nodes i = some x) (hc : c ∈ x.children) :
    t'.start c = t.start c ∧ t'.end_ c = t.end_ c := by
  obtain ⟨cr, hcr, -⟩ := hl.down hi hc
  exact h.range_old hl ht hcr

theorem Places.inOrder_old (ho : Ordered w t root) (hi : t.nodes i = some x) : InOrder t'.start t'.end_ x.children :=
  (ho.inOrder hi).congr (fun _ hc => (h.range_child hl ht hi hc).1)
    fun _ hc => (h.range_child hl ht hi hc).2

/-- The list is in order again. -/
theorem Places.inOrder_new (ho : Ordered w t root) :
    InOrder t'.start t'.end_ (pre ++ t.next :: post) := by
  obtain ⟨hlist, hpre, -⟩ := place_some h.place
  have hpost := place_behind (fun c hc => ho.le h.parent hc) (ho.inOrder h.parent) h.place
  have horder := h.inOrder_old hl ht ho h.parent
  have hrange := fun c hc => h.range_child hl ht (c := c) h.parent hc
  obtain ⟨hstart, hend⟩ := h.range_new hl ht
  rw [hlist] at horder hrange
  refine horder.insert (fun x hx => ?_) fun x hx => ?_
  · rw [hstart, (hrange x (List.mem_append_left _ hx)).2]
    exact hpre x hx
  · rw [hend, (hrange x (List.mem_append_right _ hx)).1]
    exact hpost x hx

/-- A request keeps the tree ordered: the place was found between two children. -/
theorem Ordered.insert (ho : Ordered w t root) : Ordered w t' root := by
  obtain ⟨rr, hroot, -⟩ := hl.top
  obtain ⟨hrootStart, hrootEnd⟩ := h.range_old hl ht hroot
  obtain ⟨hstart, hend⟩ := h.range_new hl ht
  have hle := h.le
  have hinside := h.inside
  -- the children of a resource of the new tree
  have hcases : ∀ {i x c}, t'.nodes i = some x → c ∈ x.children →
      (i = parent ∧ x.start = r.start ∧ x.end_ = r.end_ ∧ c = t.next)
        ∨ ∃ y, t.nodes i = some y ∧ x.start = y.start ∧ x.end_ = y.end_ ∧ c ∈ y.children := by
    intro i x c hi hc
    rw [ht] at hi
    rcases h.found hl hi with ⟨-, rfl⟩ | ⟨y, hy, -, hs, he, hchildren⟩
    · nomatch hc
    rcases hchildren c hc with hc | ⟨rfl, hc⟩
    · exact Or.inr ⟨y, hy, hs, he, hc⟩
    · rw [h.parent] at hy
      cases hy
      exact Or.inl ⟨rfl, hs, he, hc⟩
  refine ⟨?_, ?_, ?_, ?_, ?_⟩
  · rw [hrootStart, hrootEnd]
    exact ho.root_le
  · rw [hrootEnd]
    exact ho.root_lt
  · intro i x hi
    rw [ht] at hi
    by_cases hp : i = parent
    · rw [hp, insert_parent] at hi
      cases hi
      exact h.inOrder_new hl ht ho
    · by_cases hn : i = t.next
      · rw [hn, insert_new (Ne.symm (hl.next_ne h.parent))] at hi
        cases hi
        exact List.Pairwise.nil
      · rw [insert_other hp hn] at hi
        exact h.inOrder_old hl ht ho hi
  · intro i x c hi hc
    rcases hcases hi hc with ⟨-, -, -, rfl⟩ | ⟨y, hy, -, -, hcy⟩
    · rw [hstart, hend]
      exact hle
    · obtain ⟨hs, he⟩ := h.range_child hl ht hy hcy
      rw [hs, he]
      exact ho.le hy hcy
  · intro i x c hi hc
    rcases hcases hi hc with ⟨-, hxs, hxe, rfl⟩ | ⟨y, hy, hxs, hxe, hcy⟩
    · rw [hstart, hend, hxs, hxe]
      exact hinside
    · obtain ⟨hs, he⟩ := h.range_child hl ht hy hcy
      rw [hs, he, hxs, hxe]
      exact ho.inside hy hcy

end

end

/-! ## A region that is released -/

theorem Resource.mem_without {r : Resource} {id c : Nat} :
    c ∈ (r.without id).children ↔ c ∈ r.children ∧ c ≠ id := by
  show c ∈ r.children.filter (· ≠ id) ↔ _
  rw [List.mem_filter, decide_eq_true_iff]

/-- A region without children, and its parent. -/
structure Releases (t : Tree) (id parent : Nat) (res r : Resource) : Prop where
  node : t.nodes id = some res
  childless : res.children = []
  up : res.parent = some parent
  parent : t.nodes parent = some r
  mem : id ∈ r.children

/-- A release takes out a resource without children, unless it is the root. -/
theorem releaseRegion_cases (hl : Linked t root) (id : Nat) :
    (∃ parent res r, Releases t id parent res r
      ∧ releaseRegion t id = (remove t parent r id, .ok ()))
    ∨ ((∀ res, t.nodes id = some res → res.children = [] → id = root)
      ∧ ∃ e, releaseRegion t id = (t, .error e)) := by
  unfold releaseRegion
  cases hid : t.nodes id with
  | none => exact Or.inr ⟨nofun, _, rfl⟩
  | some res =>
    dsimp only
    split
    next hchildren =>
      refine Or.inr ⟨fun res' h hnil => ?_, _, rfl⟩
      cases h
      exact absurd hnil hchildren
    next hchildren =>
    cases hp : res.parent with
    | none => exact Or.inr ⟨fun _ _ _ => hl.root_of_parent hid hp, _, rfl⟩
    | some parent =>
      obtain ⟨r, hr, hmem⟩ := hl.parent hid hp
      refine Or.inl ⟨parent, res, r, ⟨hid, Classical.not_not.mp hchildren, hp, hr, hmem⟩, ?_⟩
      dsimp only
      rw [Tree.at_eq hr]

section

variable {id parent : Nat} {res r : Resource} (hl : Linked t root) (h : Releases t id parent res r)
include hl h

omit hl h in
theorem remove_self : (remove t parent r id).nodes id = none := Tree.set_same _ _ _

variable {i : Nat}

/-- It is gone from every list. -/
theorem Releases.nodes (hi : i ≠ id) : (remove t parent r id).nodes i = (t.nodes i).map (·.without id) := by
  unfold remove
  rw [Tree.set_ne _ _ hi]
  by_cases hp : i = parent
  · rw [hp, Tree.set_same, h.parent]
    rfl
  rw [Tree.set_ne _ _ hp]
  cases hy : t.nodes i with
  | none => rfl
  | some y =>
    -- it was on no other list
    have hfilter : y.children.filter (· ≠ id) = y.children := by
      refine List.filter_eq_self.mpr fun c hc => decide_eq_true fun heq => ?_
      rw [heq] at hc
      exact hp (hl.parent_unique hy h.parent hc h.mem)
    rw [Option.map_some, Resource.without, hfilter]

variable {x : Resource}

theorem Releases.found (hi : (remove t parent r id).nodes i = some x) :
    i ≠ id ∧ ∃ y, t.nodes i = some y ∧ x = y.without id := by
  have hne : i ≠ id := by
    intro heq
    rw [heq, remove_self] at hi
    nomatch hi
  rw [h.nodes hl hne, Option.map_eq_some_iff] at hi
  obtain ⟨y, hy, hx⟩ := hi
  exact ⟨hne, y, hy, hx.symm⟩

theorem Releases.ne_root : root ≠ id := by
  intro heq
  obtain ⟨rr, hrr, hnone⟩ := hl.top
  rw [heq, h.node] at hrr
  cases hrr
  rw [h.up] at hnone
  nomatch hnone

/-- A release keeps the tree linked, … -/
theorem Linked.remove : Linked (remove t parent r id) root where
  top := by
    obtain ⟨rr, hroot, hnone⟩ := hl.top
    rw [h.nodes hl (h.ne_root hl), hroot]
    exact ⟨_, rfl, hnone⟩
  up := by
    intro i x hi hroot
    obtain ⟨hne, y, hy, rfl⟩ := h.found hl hi
    obtain ⟨p, pr, hp, hpr, hmem⟩ := hl.up hy hroot
    have hpid : p ≠ id := by
      -- a parent has a child, and what is removed has none
      intro heq
      rw [heq, h.node] at hpr
      cases hpr
      rw [h.childless] at hmem
      nomatch hmem
    refine ⟨p, pr.without id, hp, ?_, Resource.mem_without.mpr ⟨hmem, hne⟩⟩
    rw [h.nodes hl hpid, hpr]
    rfl
  down := by
    intro i x c hi hc
    obtain ⟨hne, y, hy, rfl⟩ := h.found hl hi
    obtain ⟨hcy, hcid⟩ := Resource.mem_without.mp hc
    obtain ⟨cr, hcr, hparent⟩ := hl.down hy hcy
    refine ⟨cr.without id, ?_, hparent⟩
    rw [h.nodes hl hcid, hcr]
    rfl
  rank := by
    obtain ⟨f, hf⟩ := hl.rank
    refine ⟨f, fun {i x p} hi hp => ?_⟩
    obtain ⟨-, y, hy, rfl⟩ := h.found hl hi
    exact hf hy hp
  fresh := by
    intro i hi
    have hnone : t.nodes i = none := hl.fresh i hi
    by_cases hid : i = id
    · rw [hid]
      exact remove_self
    · rw [h.nodes hl hid, hnone]
      rfl

/-- … does not change ranges, … -/
theorem Releases.range (hi : i ≠ id) : (Ioport.remove t parent r id).start i = t.start i
      ∧ (Ioport.remove t parent r id).end_ i = t.end_ i := by
  unfold Tree.start Tree.end_ Tree.at_
  rw [h.nodes hl hi]
  cases t.nodes i with
  | none => exact ⟨rfl, rfl⟩
  | some y => exact ⟨rfl, rfl⟩

/-- … and keeps it ordered. -/
theorem Ordered.remove (ho : Ordered w t root) : Ordered w (Ioport.remove t parent r id) root := by
  obtain ⟨hrootStart, hrootEnd⟩ := h.range hl (h.ne_root hl)
  refine ⟨?_, ?_, ?_, ?_, ?_⟩
  · rw [hrootStart, hrootEnd]
    exact ho.root_le
  · rw [hrootEnd]
    exact ho.root_lt
  · intro i x hi
    obtain ⟨-, y, hy, rfl⟩ := h.found hl hi
    have hrange := fun c (hc : c ∈ (y.without id).children) =>
      h.range hl (Resource.mem_without.mp hc).2
    have hfilter : InOrder t.start t.end_ (y.without id).children :=
      List.Pairwise.filter _ (ho.inOrder hy)
    exact hfilter.congr (fun c hc => (hrange c hc).1) fun c hc => (hrange c hc).2
  · intro i x c hi hc
    obtain ⟨-, y, hy, rfl⟩ := h.found hl hi
    obtain ⟨hcy, hcid⟩ := Resource.mem_without.mp hc
    rw [(h.range hl hcid).1, (h.range hl hcid).2]
    exact ho.le hy hcy
  · intro i x c hi hc
    obtain ⟨-, y, hy, rfl⟩ := h.found hl hi
    obtain ⟨hcy, hcid⟩ := Resource.mem_without.mp hc
    rw [(h.range hl hcid).1, (h.range hl hcid).2]
    have hinside := ho.inside hy hcy
    exact hinside

end

end Barebox.Ioport
