import Barebox.Ioport.Calls

/-!
# Merging regions — `common/resource.c`

`__merge_regions` gives a region the range of the one next to it, and releases
that one. It does not look at whose children the two are, nor at what
`release_region` returns. When the two are siblings and the other one has no
children, the list stays in order (`Merges.ordered`); in any other case it does
not (`Merges.not_ordered`): a region reaches out of its parent, or covers
another one that is still there.
-/

namespace Barebox.Ioport

open Lib

variable {w root : Nat} {t : Tree}

/-! ## Another range -/

section

variable {id : Nat} {r r' : Resource} (hl : Linked t root) (hid : t.nodes id = some r)
  (hparent : r'.parent = r.parent) (hchildren : r'.children = r.children)
include hl hid hparent hchildren

/-- The pointers are as they were. -/
theorem Linked.set_range : Linked (t.set id (some r')) root := by
  -- a resource has the parent and the children that it had
  have hlook : ∀ {i x}, (t.set id (some r')).nodes i = some x →
      ∃ y, t.nodes i = some y ∧ x.parent = y.parent ∧ x.children = y.children := by
    intro i x hi
    by_cases heq : i = id
    · rw [heq, Tree.set_same] at hi
      cases hi
      exact ⟨r, heq ▸ hid, hparent, hchildren⟩
    · rw [Tree.set_ne _ _ heq] at hi
      exact ⟨x, hi, rfl, rfl⟩
  have hkeep : ∀ {i y}, t.nodes i = some y →
      ∃ x, (t.set id (some r')).nodes i = some x ∧ x.parent = y.parent ∧ x.children = y.children := by
    intro i y hy
    by_cases heq : i = id
    · rw [heq, hid] at hy
      cases hy
      exact ⟨r', by rw [heq, Tree.set_same], hparent, hchildren⟩
    · exact ⟨y, by rw [Tree.set_ne _ _ heq, hy], rfl, rfl⟩
  refine ⟨?_, ?_, ?_, ?_, ?_⟩
  · obtain ⟨rr, hroot, hnone⟩ := hl.top
    obtain ⟨x, hx, hp, -⟩ := hkeep hroot
    exact ⟨x, hx, hp.trans hnone⟩
  · intro i x hi hroot
    obtain ⟨y, hy, hxp, -⟩ := hlook hi
    obtain ⟨p, pr, hp, hpr, hmem⟩ := hl.up hy hroot
    obtain ⟨pr', hpr', -, hch⟩ := hkeep hpr
    exact ⟨p, pr', hxp.trans hp, hpr', hch ▸ hmem⟩
  · intro i x c hi hc
    obtain ⟨y, hy, -, hxc⟩ := hlook hi
    rw [hxc] at hc
    obtain ⟨cr, hcr, hp⟩ := hl.down hy hc
    obtain ⟨cr', hcr', hp', -⟩ := hkeep hcr
    exact ⟨cr', hcr', hp'.trans hp⟩
  · obtain ⟨f, hf⟩ := hl.rank
    refine ⟨f, fun {i x p} hi hp => ?_⟩
    obtain ⟨y, hy, hxp, -⟩ := hlook hi
    exact hf hy (hxp.symm.trans hp)
  · intro i hi
    have hne : i ≠ id := by
      intro heq
      rw [heq] at hi
      rw [hl.fresh id hi] at hid
      nomatch hid
    rw [Tree.set_ne _ _ hne]
    exact hl.fresh i hi

end

/-! ## Two regions next to each other -/

theorem merged_parent (name : String) (ra rb : Resource) : (merged name ra rb).parent = ra.parent := by
  unfold merged
  split <;> rfl

theorem merged_children (name : String) (ra rb : Resource) :
    (merged name ra rb).children = ra.children := by
  unfold merged
  split <;> rfl

/-- The tree after the first of the two has its new range. -/
abbrev widened (t : Tree) (name : String) (a : Nat) (ra rb : Resource) : Tree := t.set a (some (merged name ra rb))

/-- A merge widens the first resource and releases the second, if the two are next to each other.
-/
theorem mergeRegions_cases (w : Nat) (t : Tree) (name : String) (a b : Nat) :
    (∃ ra rb, t.nodes a = some ra ∧ t.nodes b = some rb ∧ resourceAdjacent w ra rb = true
      ∧ mergeRegions w t name a b = ((releaseRegion (widened t name a ra rb) b).1, .ok ()))
    ∨ ((∀ ra rb, t.nodes a = some ra → t.nodes b = some rb → resourceAdjacent w ra rb = false)
      ∧ ∃ e, mergeRegions w t name a b = (t, .error e)) := by
  unfold mergeRegions
  cases ha : t.nodes a with
  | none => exact Or.inr ⟨nofun, _, rfl⟩
  | some ra =>
    cases hb : t.nodes b with
    | none => exact Or.inr ⟨nofun, _, rfl⟩
    | some rb =>
      cases hadj : resourceAdjacent w ra rb with
      | false =>
        refine Or.inr ⟨fun ra' rb' hra hrb => ?_, _, by dsimp only; rw [hadj]; rfl⟩
        cases hra
        cases hrb
        exact hadj
      | true => exact Or.inl ⟨ra, rb, rfl, rfl, hadj, by dsimp only; rw [hadj]; rfl⟩

theorem Linked.release (hl : Linked t root) (id : Nat) : Linked (releaseRegion t id).1 root := by
  rcases releaseRegion_cases hl id with ⟨parent, rr, r, h, heq⟩ | ⟨-, e, heq⟩
  · rw [heq]
    exact hl.remove h
  · rw [heq]
    exact hl

/-- The calls keep the tree. -/
theorem step_linked (hl : Linked t root) (op : Op) : Linked (step w t op) root := by
  cases op with
  | request parent name start end_ =>
    rw [step]
    rcases requestRegion_cases t parent name start end_ with ⟨r, pre, post, h, heq⟩ | ⟨e, heq⟩
    · rw [heq]
      exact hl.insert h name
    · rw [heq]
      exact hl
  | release res => exact hl.release res
  | merge name a b =>
    rw [step]
    rcases mergeRegions_cases w t name a b with ⟨ra, rb, ha, hb, -, heq⟩ | ⟨-, e, heq⟩
    · rw [heq]
      exact (hl.set_range ha (merged_parent name ra rb) (merged_children name ra rb)).release b
    · rw [heq]
      exact hl

/-- Two regions that are merged. -/
structure Merges (w : Nat) (t : Tree) (a b : Nat) (ra rb : Resource) : Prop where
  nodeA : t.nodes a = some ra
  nodeB : t.nodes b = some rb
  adjacent : resourceAdjacent w ra rb = true

variable {a b : Nat} {ra rb : Resource}

theorem Merges.merge_eq (h : Merges w t a b ra rb) (name : String) :
    mergeRegions w t name a b = ((releaseRegion (widened t name a ra rb) b).1, .ok ()) := by
  unfold mergeRegions
  rw [h.nodeA, h.nodeB]
  dsimp only
  rw [h.adjacent]
  rfl

section

variable {name : String} (hl : Linked t root) (ho : Ordered w t root) (h : Merges w t a b ra rb)
include hl ho h

/-- One of the two ends where the other starts. -/
theorem Merges.next_to : ra.end_ + 1 = rb.start ∨ rb.end_ + 1 = ra.start := by
  have ha := ho.end_lt hl h.nodeA
  have hb := ho.end_lt hl h.nodeB
  have hadj := h.adjacent
  rw [Tree.end_eq h.nodeA] at ha
  rw [Tree.end_eq h.nodeB] at hb
  unfold resourceAdjacent at hadj
  rw [decide_eq_true_iff] at hadj
  rcases hadj with ⟨hne, heq⟩ | ⟨hne, heq⟩
  · rw [Nat.mod_eq_of_lt (by omega)] at heq
    exact Or.inl heq
  · rw [Nat.mod_eq_of_lt (by omega)] at heq
    exact Or.inr heq

theorem Merges.le : ra.start ≤ ra.end_ ∧ rb.start ≤ rb.end_ := by
  have ha := ho.start_le_end hl h.nodeA
  have hb := ho.start_le_end hl h.nodeB
  rw [Tree.start_eq h.nodeA, Tree.end_eq h.nodeA] at ha
  rw [Tree.start_eq h.nodeB, Tree.end_eq h.nodeB] at hb
  exact ⟨ha, hb⟩

/-- The new range is that of both. -/
theorem Merges.range (name : String) : (merged name ra rb).start = min ra.start rb.start
    ∧ (merged name ra rb).end_ = max ra.end_ rb.end_ := by
  have hnext := h.next_to hl ho
  have hle := h.le hl ho
  unfold merged
  split
  next hlt =>
    dsimp only
    omega
  next hlt =>
  dsimp only
  omega

theorem Merges.ne : a ≠ b := by
  intro heq
  have hnext := h.next_to hl ho
  have hle := h.le hl ho
  have hb := h.nodeB
  rw [← heq, h.nodeA] at hb
  cases hb
  omega

/-- None is below the other. -/
theorem Merges.not_below : ¬ Below t a b ∧ ¬ Below t b a := by
  have hnext := h.next_to hl ho
  have hle := h.le hl ho
  constructor
  all_goals
    intro hb
    have hin := ho.below_inside hl hb
    rw [Tree.start_eq h.nodeA, Tree.end_eq h.nodeA, Tree.start_eq h.nodeB, Tree.end_eq h.nodeB] at hin
    omega

/-- Both have parents. -/
theorem Merges.parents : ∃ p q pr qr, ra.parent = some p ∧ rb.parent = some q
    ∧ t.nodes p = some pr ∧ t.nodes q = some qr ∧ a ∈ pr.children ∧ b ∈ qr.children := by
  obtain ⟨hab, hba⟩ := h.not_below hl ho
  have hra : a ≠ root := fun heq => hba (heq ▸ hl.below h.nodeB)
  have hrb : b ≠ root := fun heq => hab (heq ▸ hl.below h.nodeA)
  obtain ⟨p, pr, hp, hpr, hpmem⟩ := hl.up h.nodeA hra
  obtain ⟨q, qr, hq, hqr, hqmem⟩ := hl.up h.nodeB hrb
  exact ⟨p, q, pr, qr, hp, hq, hpr, hqr, hpmem, hqmem⟩

omit ho in
theorem Merges.linked (name : String) : Linked (widened t name a ra rb) root :=
  hl.set_range h.nodeA (merged_parent name ra rb) (merged_children name ra rb)

theorem Merges.nodeB_set (name : String) : (widened t name a ra rb).nodes b = some rb := by
  rw [Tree.set_ne _ _ (Ne.symm (h.ne hl ho))]
  exact h.nodeB

/-- The other one is gone if it had no children, and is still there if it had. -/
theorem Merges.released (name : String) :
    (rb.children = [] ∧ ∃ q qr, Releases (widened t name a ra rb) b q rb qr
      ∧ (releaseRegion (widened t name a ra rb) b).1
        = remove (widened t name a ra rb) q qr b)
    ∨ (rb.children ≠ [] ∧ (releaseRegion (widened t name a ra rb) b).1
        = widened t name a ra rb) := by
  have hb := h.nodeB_set hl ho name
  have hroot : b ≠ root := fun heq => (h.not_below hl ho).1 (heq ▸ hl.below h.nodeA)
  rcases releaseRegion_cases (h.linked hl name) b with ⟨q, res, qr, hrel, heq⟩ | ⟨hno, e, heq⟩
  · have hres := hrel.node
    rw [hb] at hres
    cases hres
    exact Or.inl ⟨hrel.childless, q, qr, hrel, by rw [heq]⟩
  · exact Or.inr ⟨fun hnil => hroot (hno rb hb hnil), by rw [heq]⟩

section

variable {t' : Tree} (ht : t' = (releaseRegion (widened t name a ra rb) b).1)
include ht

/-- What the tree has, apart from the one that is released. -/
theorem Merges.old {i : Nat} {y : Resource} (hi : i ≠ b) (hy : t.nodes i = some y) :
    ∃ x, t'.nodes i = some x ∧ (∀ c ∈ y.children, c ≠ b → c ∈ x.children)
      ∧ (i ≠ a → x.start = y.start ∧ x.end_ = y.end_) := by
  -- before the release
  obtain ⟨x, hx, hchildren, hrange⟩ : ∃ x, (widened t name a ra rb).nodes i = some x
      ∧ x.children = y.children ∧ (i ≠ a → x.start = y.start ∧ x.end_ = y.end_) := by
    by_cases heq : i = a
    · rw [heq, h.nodeA] at hy
      cases hy
      exact ⟨merged name ra rb, by rw [heq, Tree.set_same], merged_children name ra rb,
        fun hne => absurd heq hne⟩
    · exact ⟨y, by rw [Tree.set_ne _ _ heq, hy], rfl, fun _ => ⟨rfl, rfl⟩⟩
  rcases h.released hl ho name with ⟨-, q, qr, hrel, heq⟩ | ⟨-, heq⟩
  · refine ⟨x.without b, ?_, fun c hc hcb => Resource.mem_without.mpr ⟨hchildren ▸ hc, hcb⟩, hrange⟩
    rw [ht, heq, hrel.nodes (h.linked hl name) hi, hx]
    rfl
  · exact ⟨x, by rw [ht, heq, hx], fun c hc _ => hchildren ▸ hc, hrange⟩

/-- The others keep their range, … -/
theorem Merges.range_other {i : Nat} (hi : i ≠ b) (hia : i ≠ a) :
    t'.start i = t.start i ∧ t'.end_ i = t.end_ i := by
  have hset : (widened t name a ra rb).start i = t.start i
      ∧ (widened t name a ra rb).end_ i = t.end_ i := by
    unfold Tree.start Tree.end_ Tree.at_
    rw [Tree.set_ne _ _ hia]
    exact ⟨rfl, rfl⟩
  rcases h.released hl ho name with ⟨-, q, qr, hrel, heq⟩ | ⟨-, heq⟩
  · obtain ⟨hs, he⟩ := hrel.range (h.linked hl name) hi
    rw [ht, heq, hs, he]
    exact hset
  · rw [ht, heq]
    exact hset

/-- … and the first has both. -/
theorem Merges.range_merged : t'.start a = min ra.start rb.start ∧ t'.end_ a = max ra.end_ rb.end_ := by
  obtain ⟨hstart, hend⟩ := h.range hl ho name
  have ha : (widened t name a ra rb).nodes a = some (merged name ra rb) := Tree.set_same _ _ _
  rcases h.released hl ho name with ⟨-, q, qr, hrel, heq⟩ | ⟨-, heq⟩
  · obtain ⟨hs, he⟩ := hrel.range (h.linked hl name) (h.ne hl ho)
    rw [ht, heq, hs, he, Tree.start_eq ha, Tree.end_eq ha]
    exact ⟨hstart, hend⟩
  · rw [ht, heq, Tree.start_eq ha, Tree.end_eq ha]
    exact ⟨hstart, hend⟩

/-- The region covers a part of another one, or reaches out of its parent. -/
theorem Merges.not_ordered (hbad : ra.parent ≠ rb.parent ∨ rb.children ≠ []) : ¬ Ordered w t' root := by
  intro ho'
  obtain ⟨p, q, pr, qr, hp, hq, hpr, hqr, hpmem, hqmem⟩ := h.parents hl ho
  obtain ⟨hab, hba⟩ := h.not_below hl ho
  obtain ⟨hstart, hend⟩ := h.range_merged hl ho ht
  have hne := h.ne hl ho
  have hle := h.le hl ho
  have hpb : p ≠ b := fun heq => hab (.step h.nodeA hp (heq ▸ .refl p))
  have hpa : p ≠ a := Ne.symm (hl.ne_parent h.nodeA hp)
  obtain ⟨pr', hpr', hchildren, hrange⟩ := h.old hl ho ht hpb hpr
  have hamem := hchildren a hpmem hne
  by_cases hpq : p = q
  · -- siblings: the other one is still there
    have hkids : rb.children ≠ [] := by
      refine hbad.resolve_left fun hneq => hneq ?_
      rw [hp, hq, hpq]
    rcases h.released hl ho name with ⟨hnil, -⟩ | ⟨-, heq⟩
    · exact hkids hnil
    have hb : t'.nodes b = some rb := by
      rw [ht, heq]
      exact h.nodeB_set hl ho name
    have hp' : t'.nodes p = some pr := by rw [ht, heq, Tree.set_ne _ _ hpa, hpr]
    subst hpq
    rw [hpr] at hqr
    cases hqr
    have hsib := ho'.siblings hp' hpmem hqmem hne
    rw [Tree.start_eq hb, Tree.end_eq hb] at hsib
    omega
  · have hin := ho'.inside hpr' hamem
    rcases nested_or_apart hl ho (hl.below h.nodeB) hpr with hbp | hpb' | hapart
    · -- the other one is below a sibling
      obtain ⟨pr'', y, hpr'', hy, hby⟩ := hl.below_child hbp (Ne.symm hpb)
      rw [hpr] at hpr''
      cases hpr''
      have hyb : y ≠ b := fun heq => hpq (hl.parent_unique hpr hqr (heq ▸ hy) hqmem)
      have hya : y ≠ a := fun heq => hba (heq ▸ hby)
      have hsib := ho'.siblings hpr' hamem (hchildren y hy hyb) (Ne.symm hya)
      have hyin := ho.below_inside hl hby
      obtain ⟨hys, hye⟩ := h.range_other hl ho ht hyb hya
      rw [Tree.start_eq h.nodeB, Tree.end_eq h.nodeB] at hyin
      omega
    · -- the parent would lie below the other one
      exact hab (.step h.nodeA hp hpb')
    · rw [Tree.start_eq h.nodeB, Tree.end_eq h.nodeB, Tree.start_eq hpr, Tree.end_eq hpr] at hapart
      omega

/-- Between siblings, the list stays in order. -/
theorem Merges.ordered (hparent : ra.parent = rb.parent) (hnil : rb.children = []) :
    Ordered w t' root := by
  obtain ⟨p, q, pr, qr, hp, hq, hpr, hqr, hpmem, hqmem⟩ := h.parents hl ho
  obtain ⟨hab, hba⟩ := h.not_below hl ho
  obtain ⟨hstart, hend⟩ := h.range_merged hl ho ht
  have hle := h.le hl ho
  have hnext := h.next_to hl ho
  obtain rfl : p = q := by
    rw [hp, hq] at hparent
    exact Option.some.inj hparent
  rw [hpr] at hqr
  cases hqr
  have hother := fun {i} (hib : i ≠ b) (hia : i ≠ a) => h.range_other hl ho ht hib hia
  -- a resource of the new tree
  have hfound : ∀ {i x}, t'.nodes i = some x → ∃ y, t.nodes i = some y
      ∧ x.children = (y.without b).children ∧ (i ≠ a → x.start = y.start ∧ x.end_ = y.end_)
      ∧ (i = a → x.start ≤ y.start ∧ y.end_ ≤ x.end_) := by
    intro i x hi
    rcases h.released hl ho name with ⟨-, q, qr, hrel, heq⟩ | ⟨hkids, -⟩
    · rw [ht, heq] at hi
      obtain ⟨hib, y, hy, rfl⟩ := hrel.found (h.linked hl name) hi
      by_cases hia : i = a
      · rw [hia, Tree.set_same] at hy
        cases hy
        have hrange := h.range hl ho name
        refine ⟨ra, hia ▸ h.nodeA, ?_, fun hne => absurd hia hne, fun _ => ?_⟩
        · unfold Resource.without
          rw [merged_children]
        · unfold Resource.without
          dsimp only
          omega
      · rw [Tree.set_ne _ _ hia] at hy
        exact ⟨y, hy, rfl, fun _ => ⟨rfl, rfl⟩, fun heq => absurd heq hia⟩
    · exact absurd hnil hkids
  -- only one list has the two on it
  have honly : ∀ {i y}, t.nodes i = some y → a ∈ y.children → i = p ∧ y = pr := by
    intro i y hy hay
    have hip := hl.parent_unique hy hpr hay hpmem
    rw [hip, hpr] at hy
    exact ⟨hip, (Option.some.inj hy).symm⟩
  have hsa := Tree.start_eq h.nodeA
  have hea := Tree.end_eq h.nodeA
  have hsb := Tree.start_eq h.nodeB
  have heb := Tree.end_eq h.nodeB
  have hinb := ho.inside hpr hqmem
  obtain ⟨hrs, hre⟩ := hother (fun heq => hab (heq ▸ hl.below h.nodeA))
    (fun heq => hba (heq ▸ hl.below h.nodeB) : root ≠ a)
  refine ⟨by rw [hrs, hre]; exact ho.root_le, by rw [hre]; exact ho.root_lt, ?_, ?_, ?_⟩
  · intro i x hi
    obtain ⟨y, hy, hchildren, -⟩ := hfound hi
    rw [hchildren]
    have horder : InOrder t.start t.end_ (y.without b).children :=
      List.Pairwise.filter _ (ho.inOrder hy)
    refine List.Pairwise.imp_of_mem (fun {c d} hc hd hcd => ?_) horder
    obtain ⟨hcy, hcb⟩ := Resource.mem_without.mp hc
    obtain ⟨hdy, hdb⟩ := Resource.mem_without.mp hd
    have hcle := ho.le hy hcy
    have hdle := ho.le hy hdy
    by_cases hca : c = a
    · subst hca
      obtain ⟨-, rfl⟩ := honly hy hcy
      have hsib := ho.siblings hpr hqmem hdy (Ne.symm hdb)
      by_cases hda : d = c
      · rw [hda] at hcd
        omega
      · rw [(hother hdb hda).1]
        omega
    · by_cases hda : d = a
      · subst hda
        obtain ⟨-, rfl⟩ := honly hy hdy
        have hsib := ho.siblings hpr hqmem hcy (Ne.symm hcb)
        rw [(hother hcb hca).2]
        omega
      · rw [(hother hcb hca).2, (hother hdb hda).1]
        exact hcd
  · intro i x c hi hc
    obtain ⟨y, hy, hchildren, -⟩ := hfound hi
    rw [hchildren] at hc
    obtain ⟨hcy, hcb⟩ := Resource.mem_without.mp hc
    by_cases hca : c = a
    · rw [hca]
      omega
    · rw [(hother hcb hca).1, (hother hcb hca).2]
      exact ho.le hy hcy
  · intro i x c hi hc
    obtain ⟨y, hy, hchildren, hsame, hgrown⟩ := hfound hi
    rw [hchildren] at hc
    obtain ⟨hcy, hcb⟩ := Resource.mem_without.mp hc
    have hinc := ho.inside hy hcy
    by_cases hca : c = a
    · subst hca
      obtain ⟨rfl, rfl⟩ := honly hy hcy
      omega
    · rw [(hother hcb hca).1, (hother hcb hca).2]
      by_cases hia : i = a
      · omega
      · omega

end

end

end Barebox.Ioport
