import Barebox.Memory.Model

/-!
# Growing a bank — `common/memory.c`

Requesting a region next to that of a bank and merging the two comes down to a
new range for the bank's region, with everything else as it was (`Extended`).
-/

namespace Barebox.Memory

open Lib Ioport

variable {w root : Nat} {t : Tree} {id b a : Nat}

theorem without_of_not_mem {r : Resource} (h : id ∉ r.children) : r.without id = r := by
  have hfilter : r.children.filter (· ≠ id) = r.children :=
    List.filter_eq_self.mpr fun c hc => decide_eq_true fun heq => h (heq ▸ hc)
  unfold Resource.without
  rw [hfilter]

theorem without_cons {pre post : List Nat} (h : id ∉ pre ++ post) :
    (pre ++ id :: post).filter (· ≠ id) = pre ++ post := by
  have hfilter : (pre ++ post).filter (· ≠ id) = pre ++ post :=
    List.filter_eq_self.mpr fun c hc => decide_eq_true fun heq => h (heq ▸ hc)
  rw [List.filter_append] at hfilter ⊢
  rw [List.filter_cons_of_neg (by simp), hfilter]

/-- Where there is no room, nothing is changed. -/
theorem requestRegion_free (ho : Ordered w t root) (parent : Nat) (name : String) (start end_ : Nat) :
    (Free t parent start end_ ∧ ∃ r pre post, Places t parent start end_ r pre post
      ∧ requestRegion t parent name start end_
        = (Ioport.insert t parent r pre post ⟨name, start, end_, some parent, []⟩, .ok t.next))
    ∨ ¬ Free t parent start end_ ∧ ∃ e, requestRegion t parent name start end_ = (t, .error e) := by
  have hiff := requestRegion_ok_iff ho parent name start end_
  rcases requestRegion_cases t parent name start end_ with ⟨r, pre, post, hplaces, heq⟩ | ⟨e, heq⟩
  · exact Or.inl ⟨hiff.mp ⟨t.next, by rw [heq]⟩, r, pre, post, hplaces, heq⟩
  · refine Or.inr ⟨fun h => ?_, e, heq⟩
    obtain ⟨id, hid⟩ := hiff.mpr h
    rw [heq] at hid
    nomatch hid

/-- A child of the root has the range from `start` to `end_` as well. -/
structure Extended (w root : Nat) (t : Tree) (res start end_ : Nat) (t' : Tree) : Prop where
  linked : Linked t' root
  ordered : Ordered w t' root
  other : ∀ i, i ≠ res → t'.nodes i = t.nodes i
  node : ∃ r', t'.nodes res = some r' ∧ r'.parent = some root
  range : t'.start res = min (t.start res) start ∧ t'.end_ res = max (t.end_ res) end_

section

variable {res start end_ : Nat} {r : Resource} (hl : Linked t root) (ho : Ordered w t root)
  (hres : t.nodes res = some r) (hparent : r.parent = some root)
include hl ho hres hparent

omit hparent in
/-- What is requested next to a bank is adjacent to it. -/
theorem adjacent_of_next (hfree : Free t root start end_) (hnext : r.end_ + 1 = start ∨ end_ + 1 = r.start) (name : String) :
    resourceAdjacent w r ⟨name, start, end_, some root, []⟩ = true := by
  obtain ⟨rr, hroot, hle, hs, he, -⟩ := hfree
  have hrlt := ho.end_lt hl hres
  have hrle := ho.start_le_end hl hres
  have hlt := ho.root_lt
  rw [Tree.start_eq hres, Tree.end_eq hres] at hrle
  rw [Tree.end_eq hres] at hrlt
  rw [Tree.end_eq hroot] at hlt
  unfold resourceAdjacent
  rw [decide_eq_true_iff]
  dsimp only
  rcases hnext with heq | heq
  · exact Or.inl ⟨by omega, by rw [heq]; exact Nat.mod_eq_of_lt (by omega)⟩
  · exact Or.inr ⟨by omega, by rw [heq]; exact Nat.mod_eq_of_lt (by omega)⟩

/-- A side that is free is added. -/
theorem growSide_cases (hnext : r.end_ + 1 = start ∨ end_ + 1 = r.start) (name : String) :
    (Free t root start end_ ∧ ∃ t', growSide w root t res name start end_ = (t', .ok ())
      ∧ Extended w root t res start end_ t')
    ∨ ¬ Free t root start end_ ∧ ∃ e, growSide w root t res name start end_ = (t, .error e) := by
  unfold growSide
  rcases requestRegion_free ho root name start end_ with ⟨hfree, rr, pre, post, hplaces, hreq⟩ | ⟨hno, e, hreq⟩
  case inr =>
    rw [hreq]
    exact Or.inr ⟨hno, e, rfl⟩
  refine Or.inl ⟨hfree, ?_⟩
  have hne : res ≠ root := hl.ne_parent hres hparent
  have hadj := adjacent_of_next hl ho hres hfree hnext name
  have hchildren := hplaces.children
  have hfresh : ∀ {i y}, t.nodes i = some y → t.next ∉ y.children := fun hy hmem =>
    hl.child_ne_next hy hmem rfl
  generalize hnewres : (⟨name, start, end_, some root, []⟩ : Resource) = new at *
  have hnewParent : new.parent = some root := by rw [← hnewres]
  have hnewChildren : new.children = [] := by rw [← hnewres]
  have hnewStart : new.start = start := by rw [← hnewres]
  have hnewEnd : new.end_ = end_ := by rw [← hnewres]
  -- the tree with the new region in it
  have hl' : Linked (Ioport.insert t root rr pre post new) root := hnewres ▸ hl.insert hplaces name
  have ho' : Ordered w (Ioport.insert t root rr pre post new) root :=
    Ordered.insert hl hplaces (by rw [hnewres]) ho
  have hnew : (Ioport.insert t root rr pre post new).nodes t.next = some new :=
    insert_new (Ne.symm (hl.next_ne hplaces.parent))
  have hroot : (Ioport.insert t root rr pre post new).nodes root = _ := insert_parent
  have hother : ∀ i, i ≠ root → i ≠ t.next →
      (Ioport.insert t root rr pre post new).nodes i = t.nodes i := fun i => insert_other
  have hres' := hother res hne (hl.next_ne hres)
  rw [hres] at hres'
  rw [hreq]
  dsimp only
  generalize Ioport.insert t root rr pre post new = ti at *
  -- and without it again
  have hm : Merges w ti res t.next r new := ⟨hres', hnew, hadj⟩
  have hlm := hm.linked hl' name
  have hordered := hm.ordered hl' ho' (Eq.refl (releaseRegion (ti.set res (some (merged name r new)))
    t.next).1) (hparent.trans hnewParent.symm) hnewChildren
  have hrange := hm.range_merged hl' ho' (Eq.refl (releaseRegion (ti.set res (some (merged name r new)))
    t.next).1)
  rw [hm.merge_eq name]
  refine ⟨_, rfl, ?_⟩
  rcases hm.released hl' ho' name with ⟨-, q, qr, hrel, hremove⟩ | ⟨hkids, -⟩
  · rw [hremove] at hordered hrange ⊢
    refine ⟨hlm.remove hrel, hordered, ?_, ?_, ?_⟩
    · intro i hi
      by_cases hin : i = t.next
      · rw [hin, remove_self, hl.fresh t.next (Nat.le_refl _)]
      rw [hrel.nodes hlm hin, Tree.set_ne _ _ hi]
      by_cases hir : i = root
      · -- the list of the root is the one that it had
        have hlist := without_cons (hchildren ▸ hfresh hplaces.parent)
        rw [hir, hroot, hplaces.parent, Option.map_some, Resource.without]
        rw [hlist, ← hchildren]
      · rw [hother i hir hin]
        cases hy : t.nodes i with
        | none => rfl
        | some y => rw [Option.map_some, without_of_not_mem (hfresh hy)]
    · rw [hrel.nodes hlm (hl.next_ne hres), Tree.set_same]
      exact ⟨_, rfl, (merged_parent name r new).trans hparent⟩
    · rw [Tree.start_eq hres, Tree.end_eq hres, ← hnewStart, ← hnewEnd]
      exact hrange
  · exact absurd hnewChildren hkids

end

/-! ## Both sides -/

variable {start end_ res : Nat}

theorem Extended.other_range {t' : Tree} (h : Extended w root t res start end_ t')
    {i : Nat} (hi : i ≠ res) : t'.start i = t.start i ∧ t'.end_ i = t.end_ i := by
  unfold Tree.start Tree.end_ Tree.at_
  rw [h.other i hi]
  exact ⟨rfl, rfl⟩

/-- What is free above a region is so when it has grown below. -/
theorem Extended.free_above {t' : Tree}
    (h : Extended w root t res start end_ t') (hroot : root ≠ res) (hend : end_ ≤ t.end_ res)
    (ha : t.end_ res < a) : Free t' root a b ↔ Free t root a b := by
  have hrange := h.range
  have hchild : ∀ c, (t'.end_ c < a ∨ b < t'.start c) ↔ (t.end_ c < a ∨ b < t.start c) := by
    intro c
    by_cases hc : c = res
    · rw [hc]
      omega
    · rw [(h.other_range hc).1, (h.other_range hc).2]
  unfold Free
  rw [h.other root hroot]
  simp only [hchild]

theorem Extended.trans {a' b' : Nat} {t' t'' : Tree} (h : Extended w root t res a b t')
    (h' : Extended w root t' res a' b' t'') : Extended w root t res (min a a') (max b b') t'' where
  linked := h'.linked
  ordered := h'.ordered
  other := fun i hi => (h'.other i hi).trans (h.other i hi)
  node := h'.node
  range := by
    have hrange := h.range
    have hrange' := h'.range
    omega

/-- There is room below the bank but not above it. -/
def Half (root : Nat) (t : Tree) (res start end_ : Nat) : Prop :=
  start < t.start res ∧ Free t root start (t.start res - 1)
    ∧ t.end_ res < end_ ∧ ¬ Free t root (t.end_ res + 1) end_

section

variable {bank : Bank} {r : Resource} (hl : Linked t root) (ho : Ordered w t root)
  (hres : t.nodes bank.res = some r) (hparent : r.parent = some root)
include hl ho hres hparent

/-- One of the sides, from `a` to `b`, if it is needed. -/
theorem growNeeded {a b : Nat} (needed : Prop) [Decidable needed]
    (hyes : needed → (r.end_ + 1 = a ∨ b + 1 = r.start) ∧ min (t.start bank.res) a = min (t.start bank.res) start
      ∧ max (t.end_ bank.res) b = max (t.end_ bank.res) end_)
    (hno : ¬ needed → t.start bank.res = min (t.start bank.res) start ∧ t.end_ bank.res = max (t.end_ bank.res) end_)
    (name : String) : (needed ∧ ¬ Free t root a b ∧ ∃ e, growSide w root t bank.res name a b = (t, .error e))
    ∨ ∃ t', (if needed then growSide w root t bank.res name a b else (t, .ok ())) = (t', .ok ())
      ∧ (needed → Free t root a b) ∧ Extended w root t bank.res start end_ t' := by
  by_cases hneeded : needed
  · obtain ⟨hnext, hmin, hmax⟩ := hyes hneeded
    rw [if_pos hneeded]
    rcases growSide_cases hl ho hres hparent hnext name with ⟨hfree, t', heq, hext⟩ | hfull
    · refine Or.inr ⟨t', heq, fun _ => hfree, hext.linked, hext.ordered, hext.other, hext.node, ?_⟩
      rw [← hmin, ← hmax]
      exact hext.range
    · exact Or.inl ⟨hneeded, hfull⟩
  · rw [if_neg hneeded]
    exact Or.inr ⟨t, rfl, fun h => absurd h hneeded, hl, ho, fun _ _ => rfl, ⟨r, hres, hparent⟩, hno hneeded⟩

/-- The bank gets the new range, or nothing is changed, or the call fails with
the lower side added. -/
theorem growMemoryBank_cases (hstart : bank.start = t.start bank.res) (hs : start ≤ t.start bank.res)
    (he : t.end_ bank.res ≤ end_) (name : String) :
    (¬ Half root t bank.res start end_ ∧ ∃ t', growMemoryBank w root t bank name start end_
        = (t', { bank with start := start, size := resourceSize w (t'.at_ bank.res) }, .ok ())
      ∧ Extended w root t bank.res start end_ t')
    ∨ (¬ Half root t bank.res start end_
      ∧ ∃ e, growMemoryBank w root t bank name start end_ = (t, bank, .error e))
    ∨ (Half root t bank.res start end_
      ∧ ∃ t' e, growMemoryBank w root t bank name start end_ = (t', bank, .error e)
        ∧ t'.start bank.res < t.start bank.res) := by
  have hroot : root ≠ bank.res := Ne.symm (hl.ne_parent hres hparent)
  have hle := ho.start_le_end hl hres
  unfold growMemoryBank
  rw [hstart]
  -- first the lower side
  rcases @growNeeded w root t start (t.end_ bank.res) bank r hl ho hres hparent start (t.start bank.res - 1)
    (start < t.start bank.res) _ (fun hlt => ⟨Or.inr (by rw [← Tree.start_eq hres]; omega), rfl, by omega⟩)
    (fun hlt => by omega) name with ⟨hlt, hno, e, heq⟩ | ⟨t1, heq, hbelow, h1⟩
  · rw [if_pos hlt, heq]
    exact Or.inr (Or.inl ⟨fun hhalf => hno hhalf.2.1, e, rfl⟩)
  rw [heq]
  dsimp only
  obtain ⟨r1, hres1, hparent1⟩ := h1.node
  have hrange := h1.range
  -- then the upper one, where the lower one has changed nothing
  have hend : t1.end_ bank.res = t.end_ bank.res := by omega
  have hfree : Free t1 root (t.end_ bank.res + 1) end_ ↔ Free t root (t.end_ bank.res + 1) end_ :=
    h1.free_above hroot (Nat.le_refl _) (Nat.lt_succ_self _)
  rcases @growNeeded w root t1 (t1.start bank.res) end_ bank r1 h1.linked h1.ordered hres1 hparent1
    (t.end_ bank.res + 1) end_ (t.end_ bank.res < end_) _
    (fun _ => ⟨Or.inl (by rw [← Tree.end_eq hres1, hend]), by omega, rfl⟩) (fun _ => by omega) name with
    ⟨hlt, hno, e, heq'⟩ | ⟨t2, heq', habove, h2⟩
  · rw [if_pos hlt, heq']
    by_cases hlow : start < t.start bank.res
    · -- the lower side is already merged, and stays
      exact Or.inr (Or.inr ⟨⟨hlow, hbelow hlow, hlt, mt hfree.mpr hno⟩, t1, e, rfl, by omega⟩)
    · -- the lower side was not needed
      rw [if_neg hlow] at heq
      cases heq
      exact Or.inr (Or.inl ⟨fun hhalf => hlow hhalf.1, e, rfl⟩)
  · rw [heq']
    have hext := h1.trans h2
    have hmin : min start (t1.start bank.res) = start := by omega
    rw [hmin, Nat.max_eq_right he] at hext
    exact Or.inl ⟨fun hhalf => hhalf.2.2.2 (hfree.mp (habove hhalf.2.2.1)), t2, rfl, hext⟩

end

end Barebox.Memory
