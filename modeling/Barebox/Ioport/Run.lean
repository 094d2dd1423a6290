import Barebox.Ioport.Merge
import Barebox.Lib.Run

/-!
# Sequences of calls — `common/resource.c`

The resources stay in order along a sequence of calls if and only if every
merge of regions next to each other is one of siblings of which the second has
no children (`resource_tree_iff`). As long as they are in order, a request
succeeds if and only if there is room for it (`requestRegion_ok_iff`), and a
region that was handed out stays its owner's alone (`region_exclusive`).
-/

namespace Barebox.Ioport

open Lib

variable {w root : Nat} {t : Tree}

/-- The range is inside of the parent, and meets none of its children. -/
def Free (t : Tree) (parent start end_ : Nat) : Prop :=
  ∃ r, t.nodes parent = some r ∧ start ≤ end_ ∧ r.start ≤ start ∧ end_ ≤ r.end_
    ∧ ∀ c ∈ r.children, t.end_ c < start ∨ end_ < t.start c

/-- On an ordered tree a request succeeds just if its range is free. -/
theorem requestRegion_ok_iff (ho : Ordered w t root) (parent : Nat) (name : String) (start end_ : Nat) :
    (∃ id, (requestRegion t parent name start end_).2 = .ok id) ↔ Free t parent start end_ := by
  unfold requestRegion Free
  cases hp : t.nodes parent with
  | none =>
    constructor
    · intro ⟨id, h⟩
      nomatch h
    · intro ⟨r, h, _⟩
      nomatch h
  | some r =>
    dsimp only
    by_cases hle : end_ < start
    · rw [if_pos hle]
      constructor
      · intro ⟨id, h⟩
        nomatch h
      · intro ⟨r', _, h, _⟩
        omega
    · rw [if_neg hle]
      split
      next hout =>
        constructor
        · intro ⟨id, h⟩
          nomatch h
        · intro ⟨r', hr', _, hs, he, _⟩
          cases hr'
          omega
      next hout =>
      have hnone := place_eq_none_iff (a := start) (b := end_) (fun c hc => ho.le hp hc) (ho.inOrder hp)
      -- in range: it fits unless a child meets it
      cases hplace : place t.start t.end_ start end_ r.children with
      | none =>
        obtain ⟨c, hc, hmeets⟩ := hnone.mp hplace
        constructor
        · intro ⟨id, h⟩
          nomatch h
        · intro ⟨r', hr', _, _, _, hfree⟩
          cases hr'
          have hfree := hfree c hc
          have hmeets : start ≤ t.end_ c ∧ t.start c ≤ end_ := hmeets
          omega
      | some x =>
        refine ⟨fun _ => ⟨r, rfl, by omega, by omega, by omega, fun c hc => ?_⟩, fun _ => ⟨_, rfl⟩⟩
        have hno : ¬ Meets t.start t.end_ start end_ c := by
          intro hmeets
          rw [hnone.mpr ⟨c, hc, hmeets⟩] at hplace
          nomatch hplace
        unfold Meets at hno
        omega

/-! ## A sequence of calls -/

/-- A request succeeds if and only if there is room. -/
def Requests (t : Tree) : Op → Prop
  | .request parent name start end_ =>
    (∃ id, (requestRegion t parent name start end_).2 = .ok id) ↔ Free t parent start end_
  | _ => True

/-- The resources are in order all the way. -/
def Keeps (w root : Nat) : Tree → List Op → Prop
  | t, [] => Ordered w t root
  | t, op :: ops => Ordered w t root ∧ Requests t op ∧ Keeps w root (step w t op) ops

/-- What is merged are siblings, of which the second has no children. -/
def Safe (w : Nat) (t : Tree) : Op → Prop
  | .merge _ a b => ∀ ra rb, t.nodes a = some ra → t.nodes b = some rb →
    resourceAdjacent w ra rb = true → ra.parent = rb.parent ∧ rb.children = []
  | _ => True

def SafeRun (w : Nat) : Tree → List Op → Prop
  | _, [] => True
  | t, op :: ops => Safe w t op ∧ SafeRun w (step w t op) ops

/-- Of the calls only a merge can break the order: it asks neither for one parent of both, nor for
a second resource without children. -/
theorem step_ordered_iff (hl : Linked t root) (ho : Ordered w t root) (op : Op) :
    Ordered w (step w t op) root ↔ Safe w t op := by
  cases op with
  | request parent name start end_ =>
    refine iff_of_true ?_ trivial
    rw [step]
    rcases requestRegion_cases t parent name start end_ with ⟨r, pre, post, h, heq⟩ | ⟨e, heq⟩
    · rw [heq]
      exact Ordered.insert hl h rfl ho
    · rw [heq]
      exact ho
  | release res =>
    refine iff_of_true ?_ trivial
    rw [step]
    rcases releaseRegion_cases hl res with ⟨parent, rr, r, h, heq⟩ | ⟨-, e, heq⟩
    · rw [heq]
      exact Ordered.remove hl h ho
    · rw [heq]
      exact ho
  | merge name a b =>
    rw [step]
    -- only a merge can break the order
    rcases mergeRegions_cases w t name a b with ⟨ra, rb, ha, hb, hadj, heq⟩ | ⟨hno, e, heq⟩
    · have h : Merges w t a b ra rb := ⟨ha, hb, hadj⟩
      rw [heq]
      constructor
      · intro ho' ra' rb' ha' hb' _
        rw [ha] at ha'
        rw [hb] at hb'
        cases ha'
        cases hb'
        refine Classical.byContradiction fun hbad => h.not_ordered hl ho rfl ?_ ho'
        exact Classical.not_and_iff_not_or_not.mp hbad
      · intro hsafe
        obtain ⟨hparent, hnil⟩ := hsafe ra rb ha hb hadj
        exact h.ordered hl ho rfl hparent hnil
    · rw [heq]
      refine iff_of_true ho fun ra rb ha hb hadj => ?_
      rw [hno ra rb ha hb] at hadj
      cases hadj

theorem requests_of_ordered (ho : Ordered w t root) (op : Op) : Requests t op := by
  cases op with
  | request parent name start end_ => exact requestRegion_ok_iff ho parent name start end_
  | release res => trivial
  | merge name a b => trivial

/-- From any tree of resources, any sequence of calls keeps it in order if and
only if its merges are safe. -/
theorem resource_tree_iff (w root : Nat) (ops : List Op) : ∀ (t : Tree), Linked t root →
    Ordered w t root → (Keeps w root t ops ↔ SafeRun w t ops) := by
  induction ops with
  | nil =>
    intro t _ ho
    exact iff_of_true ho trivial
  | cons op ops ih =>
    intro t hl ho
    have hstep := step_ordered_iff hl ho op
    constructor
    · intro ⟨_, _, hkeeps⟩
      have ho' : Ordered w (step w t op) root := by
        cases ops with
        | nil => exact hkeeps
        | cons op' ops' => exact hkeeps.1
      exact ⟨hstep.mp ho', (ih _ (step_linked hl op) ho').mp hkeeps⟩
    · intro ⟨hsafe, hrun⟩
      exact ⟨ho, requests_of_ordered ho op, (ih _ (step_linked hl op) (hstep.mpr hsafe)).mpr hrun⟩

/-! ## The whole address space -/

/-- `iomem_resource`, without children. -/
def iomemTree (w : Nat) : Tree where
  nodes := fun i => if i = 0 then some ⟨"iomem", 0, 2 ^ w - 1, none, []⟩ else none
  next := 1

theorem iomemTree_cases {i : Nat} {r : Resource} (h : (iomemTree w).nodes i = some r) :
    i = 0 ∧ r = ⟨"iomem", 0, 2 ^ w - 1, none, []⟩ := by
  unfold iomemTree at h
  dsimp only at h
  split at h
  next hi => exact ⟨hi, (Option.some.inj h).symm⟩
  next => nomatch h

theorem iomemTree_linked (w : Nat) : Linked (iomemTree w) 0 where
  top := ⟨_, rfl, rfl⟩
  up := fun h hne => absurd (iomemTree_cases h).1 hne
  down := by
    intro id r c h hc
    obtain ⟨-, rfl⟩ := iomemTree_cases h
    nomatch hc
  rank := by
    refine ⟨id, fun {i r p} h hp => ?_⟩
    obtain ⟨-, rfl⟩ := iomemTree_cases h
    nomatch hp
  fresh := fun i hi => if_neg (by unfold iomemTree at hi; dsimp only at hi; omega)

/-- The run starts with `iomem_resource` alone. -/
theorem iomemTree_ordered (w : Nat) : Ordered w (iomemTree w) 0 where
  root_le := Nat.zero_le _
  root_lt := Nat.sub_lt (Nat.two_pow_pos w) Nat.one_pos
  inOrder := by
    intro id r h
    obtain ⟨-, rfl⟩ := iomemTree_cases h
    exact List.Pairwise.nil
  le := by
    intro id r c h hc
    obtain ⟨-, rfl⟩ := iomemTree_cases h
    nomatch hc
  inside := by
    intro id r c h hc
    obtain ⟨-, rfl⟩ := iomemTree_cases h
    nomatch hc

/-- Two regions are requested and merged. -/
theorem iomemTree_merge : Linked (iomemTree 32) 0 ∧ Ordered 32 (iomemTree 32) 0
    ∧ Keeps 32 0 (iomemTree 32) [.request 0 "a" 0 9, .request 0 "b" 10 19, .merge "ab" 1 2] := by
  refine ⟨iomemTree_linked 32, iomemTree_ordered 32, ?_⟩
  refine (resource_tree_iff 32 0 _ _ (iomemTree_linked 32) (iomemTree_ordered 32)).mpr
    ⟨trivial, trivial, fun ra rb ha hb _ => ?_, trivial⟩
  cases ha
  cases hb
  exact ⟨rfl, rfl⟩

/-- The second of the two has a child, and is covered by the first. -/
theorem iomemTree_merge_child : ¬ Keeps 32 0 (iomemTree 32)
    [.request 0 "a" 0 9, .request 0 "b" 10 19, .request 2 "c" 10 10, .merge "ab" 1 2] := by
  intro ⟨_, _, _, _, _, _, _, _, ho⟩
  have hroot : (step 32 (step 32 (step 32 (step 32 (iomemTree 32) (.request 0 "a" 0 9))
      (.request 0 "b" 10 19)) (.request 2 "c" 10 10)) (.merge "ab" 1 2)).nodes 0
      = some ⟨"iomem", 0, 2 ^ 32 - 1, none, [1, 2]⟩ := rfl
  have hlt := (List.pairwise_cons.mp (ho.inOrder hroot)).1 2 (.head _)
  exact absurd hlt (by decide)

/-! ## Regions of others -/

/-- The call is to release or to merge the region. -/
def Op.Concerns (id : Nat) : Op → Prop
  | .request .. => False
  | .release res => res = id
  | .merge _ a b => a = id ∨ b = id

/-- The region is there, with the range and the parent that it has in `x`. -/
def Has (t : Tree) (id : Nat) (x : Resource) : Prop :=
  ∃ y, t.nodes id = some y ∧ y.start = x.start ∧ y.end_ = x.end_ ∧ y.parent = x.parent

section

variable {id : Nat} {x : Resource}

/-- Another region is released. -/
theorem Has.release {res : Nat} (hl : Linked t root) (h : Has t id x) (hne : id ≠ res) :
    Has (releaseRegion t res).1 id x := by
  obtain ⟨y, hy, hrange⟩ := h
  rcases releaseRegion_cases hl res with ⟨parent, rr, r, hrel, heq⟩ | ⟨-, e, heq⟩
  · rw [heq]
    exact ⟨y.without res, by rw [hrel.nodes hl hne, hy]; rfl, hrange⟩
  · rw [heq]
    exact ⟨y, hy, hrange⟩

/-- A call for others leaves a region alone. -/
theorem Has.step (hl : Linked t root) (h : Has t id x) {op : Op} (hop : ¬ op.Concerns id) :
    Has (step w t op) id x := by
  obtain ⟨y, hy, hrange⟩ := h
  cases op with
  | request parent name start end_ =>
    rw [Ioport.step]
    rcases requestRegion_cases t parent name start end_ with ⟨r, pre, post, hp, heq⟩ | ⟨e, heq⟩
    · obtain ⟨z, hz, hparent, hs, he, -⟩ := hp.old hl name hy
      rw [heq]
      exact ⟨z, hz, hs.trans hrange.1, he.trans hrange.2.1, hparent.trans hrange.2.2⟩
    · rw [heq]
      exact ⟨y, hy, hrange⟩
  | release res => exact Has.release hl ⟨y, hy, hrange⟩ fun heq => hop heq.symm
  | merge name a b =>
    rw [Ioport.step]
    rcases mergeRegions_cases w t name a b with ⟨ra, rb, ha, hb, -, heq⟩ | ⟨-, e, heq⟩
    · have hl' := hl.set_range ha (merged_parent name ra rb) (merged_children name ra rb)
      have hthere : Has (widened t name a ra rb) id x :=
        ⟨y, (Tree.set_ne t _ fun heq => hop (Or.inl heq.symm)).trans hy, hrange⟩
      rw [heq]
      exact hthere.release hl' fun heq => hop (Or.inr heq.symm)
    · rw [heq]
      exact ⟨y, hy, hrange⟩

/-- A resource that no call concerns is still there after a safe run, as it was. -/
theorem Has.run (ops : List Op) : ∀ {t : Tree}, Linked t root → Ordered w t root → Has t id x →
    (∀ op ∈ ops, ¬ op.Concerns id) → SafeRun w t ops →
    Linked (run (Ioport.step w) t ops) root ∧ Ordered w (run (Ioport.step w) t ops) root
      ∧ Has (run (Ioport.step w) t ops) id x := by
  induction ops with
  | nil =>
    intro t hl ho h _ _
    exact ⟨hl, ho, h⟩
  | cons op ops ih =>
    intro t hl ho h hops ⟨hsafe, hrest⟩
    obtain ⟨hop, hops⟩ := List.forall_mem_cons.mp hops
    exact ih (step_linked hl op) ((step_ordered_iff hl ho op).mpr hsafe) (h.step hl hop) hops hrest

end

/-- A region keeps its range and its place until it is released or merged, whatever is done to others.
All that time no other resource has an address of it, but for those above and below. -/
theorem region_exclusive (hl : Linked t root) (ho : Ordered w t root) {id : Nat} {x : Resource}
    (hid : t.nodes id = some x) (ops : List Op) (hops : ∀ op ∈ ops, ¬ op.Concerns id) (hsafe : SafeRun w t ops) :
    let t' := run (step w) t ops
    Has t' id x ∧ ∀ i y, t'.nodes i = some y →
      Below t' i id ∨ Below t' id i ∨ y.end_ < x.start ∨ x.end_ < y.start := by
  intro t'
  obtain ⟨hl', ho', z, hz, hstart, hend, hparent⟩ := Has.run ops hl ho ⟨x, hid, rfl, rfl, rfl⟩ hops hsafe
  refine ⟨⟨z, hz, hstart, hend, hparent⟩, fun i y hi => ?_⟩
  have happart := nested_or_apart hl' ho' (hl'.below hi) hz
  rw [Tree.start_eq hi, Tree.end_eq hi, Tree.start_eq hz, Tree.end_eq hz, hstart, hend] at happart
  exact happart

/-- Three regions, one behind the other -/
def threeRegions : Tree :=
  run (step 32) (iomemTree 32) [.request 0 "a" 0 9, .request 0 "b" 10 19, .request 0 "c" 20 29]

/-- The first is released and its range is given away, the last one gets more: the one between them
keeps its range and shares it with no other. -/
theorem threeRegions_middle :
    let t' := run (step 32) threeRegions [.release 1, .request 0 "d" 5 9, .request 0 "e" 30 39, .merge "ce" 3 5]
    Has t' 2 ⟨"b", 10, 19, some 0, []⟩ ∧ ∀ i y, t'.nodes i = some y →
      Below t' i 2 ∨ Below t' 2 i ∨ y.end_ < 10 ∨ 19 < y.start := by
  have hkeeps : Linked threeRegions 0 ∧ Ordered 32 threeRegions 0 := by
    have hiomem : Has (iomemTree 32) 0 ⟨"iomem", 0, 2 ^ 32 - 1, none, []⟩ := ⟨_, rfl, rfl, rfl, rfl⟩
    obtain ⟨hl, ho, -⟩ := Has.run [.request 0 "a" 0 9, .request 0 "b" 10 19, .request 0 "c" 20 29]
      (iomemTree_linked 32) (iomemTree_ordered 32) hiomem (by simp [Op.Concerns]) ⟨trivial, trivial, trivial, trivial⟩
    exact ⟨hl, ho⟩
  refine region_exclusive hkeeps.1 hkeeps.2 rfl _ (by simp [Op.Concerns]) ⟨trivial, trivial, trivial, ?_, trivial⟩
  intro ra rb ha hb _
  cases ha
  cases hb
  exact ⟨rfl, rfl⟩

end Barebox.Ioport
