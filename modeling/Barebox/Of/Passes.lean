import Barebox.Of.Resolver

/-!
# The passes over an overlay — `drivers/of/resolver.c`

The places the lists of an overlay name are cells of its properties
(`localCells`, `fixupCells`), and the passes of `of_resolve_phandles` are
edits of cells: `resolveLocal_ok` and `resolveFixups_ok`. What is searched
for in the copy is where it is in the overlay (`CopyOf`).

The lists are in the copy as well. They are read as they are in the overlay
as long as nothing that is listed lies in a list, which is part of `Tidy`.
-/

namespace Barebox.Of.DeviceNode

open Lib List

variable {p : Property} {fp : Path} {j : Nat}

/-! ## The lists of an overlay -/

/-- The offsets in a property of `__local_fixups__`. -/
def offsets (p : Property) : List Nat :=
  (range' 0 (p.length / 4)).map fun i => beNat (slice (4 * i) 4 p.value)

/-- The cells that a property of `__local_fixups__` lists, for a node of the
overlay at `op`. -/
def localCellsProp (overlay : DeviceNode) (op : Path) (p : Property) : List (Cell PropRef) :=
  if isSkipped p.name then []
  else
    match overlay.findProperty p.name with
    | none => []
    | some i => (offsets p).map fun off => ⟨(op, i), off⟩

mutual

def localCellsAt : DeviceNode → DeviceNode → Path → List (Cell PropRef)
  | .mk _ _ props children, overlay, op =>
    props.flatMap (localCellsProp overlay op) ++ localCellsAll children overlay op

def localCellsAll : List DeviceNode → DeviceNode → Path → List (Cell PropRef)
  | [], _, _ => []
  | child :: children, overlay, op =>
    (match overlay.getChildByName child.name with
    | none => []
    | some i =>
      match overlay.children[i]? with
      | none => []
      | some overlayChild => localCellsAt child overlayChild (op ++ [i]))
      ++ localCellsAll children overlay op

end

/-- The cells that are listed below `__local_fixups__`. -/
def localCells (overlay : DeviceNode) : List (Cell PropRef) :=
  match (overlay.findNodeByName (cstr "__local_fixups__")).bind overlay.get? with
  | none => []
  | some localFixups => localCellsAt localFixups overlay []

/-- The cell that a string in `__fixups__` names. -/
def usageCell (overlay : DeviceNode) : Option Bytes → Option (Cell PropRef)
  | none => none
  | some cur =>
    match parseUsage cur with
    | .error _ => none
    | .ok usage =>
      match findUsage overlay usage with
      | .error _ => none
      | .ok c => c

def usageCells (overlay : DeviceNode) (value : Bytes) : List (Cell PropRef) :=
  (listStrings [] value).flatMap fun cur => (usageCell overlay cur).toList

/-- The cells that a property of `__fixups__` lists, each with the phandle of
the node that has the label. -/
def fixupCellsProp (root symbols overlay : DeviceNode) (p : Property) : List (Cell PropRef × UInt32) :=
  if p.name = cstr "name" then []
  else
    match symbolPhandle root symbols p.name with
    | .error _ => []
    | .ok phandle => (usageCells overlay p.value).map fun c => (c, phandle)

/-- The cells that are listed in `__fixups__`. -/
def fixupCells (root overlay : DeviceNode) : List (Cell PropRef × UInt32) :=
  match (overlay.findNodeByName (cstr "__fixups__")).bind overlay.get?,
      (root.findNodeByPath (cstr "/__symbols__")).bind root.get? with
  | some fixups, some symbols => fixups.props.flatMap (fixupCellsProp root symbols overlay)
  | _, _ => []

/-- All cells that are listed. -/
def listedCells (root overlay : DeviceNode) : List (Cell PropRef) :=
  localCells overlay ++ (fixupCells root overlay).map Prod.fst

/-- A property that is read as a list. -/
def IsList (overlay : DeviceNode) (r : PropRef) : Prop :=
  (∃ fp q p, overlay.findNodeByName (cstr "__local_fixups__") = some fp ∧ r.1 = fp ++ q ∧
      overlay.prop? r = some p ∧ isSkipped p.name = false) ∨
    ∃ fp p, overlay.findNodeByName (cstr "__fixups__") = some fp ∧ r.1 = fp ∧
      overlay.prop? r = some p ∧ p.name ≠ cstr "name"

/-- The properties of a tree own their values. -/
def Owned (t : DeviceNode) : Prop := ∀ r p, t.prop? r = some p → p = .owned p.name p.value

/-- An overlay whose lists name cells that are the same or do not overlap, with
each other and with the phandles, and that are not in a list. -/
structure Tidy (root overlay : DeviceNode) : Prop where
  owned : Owned overlay
  same : ∀ c ∈ listedCells root overlay, ∀ d ∈ listedCells root overlay, c = d ∨ c.Apart d
  phandles : ∀ c ∈ listedCells root overlay, ∀ r p, overlay.prop? r = some p →
    isPhandleProp p → c = ⟨r, 0⟩ ∨ c.Apart ⟨r, 0⟩
  lists : ∀ r, IsList overlay r → (∀ c ∈ listedCells root overlay, c.ref ≠ r) ∧
    ∀ p, overlay.prop? r = some p → isPhandleProp p = false

/-! ## The copy -/

/-- A property in the copy, after the first pass. -/
def renumberProp (delta : UInt32) (p : Property) : Property := adjustProp delta (copyProp p)

def renumberPhandle (delta phandle : UInt32) : UInt32 :=
  if phandle ≠ 0 then phandle + delta else phandle

/-- A node below the root in the copy, after the first pass. -/
def renumber (delta : UInt32) (n : DeviceNode) : DeviceNode := n.copyBelow.adjustOverlayPhandles delta

/-- A node is a copy of another one, but for its name. -/
structure CopyOf (delta : UInt32) (n n' : DeviceNode) : Prop where
  phandle : n'.phandle = renumberPhandle delta n.phandle
  props : n'.props = n.props.map (renumberProp delta)
  children : n'.children = n.children.map (renumber delta)

theorem adjustAll_copyAll (delta : UInt32) : ∀ ns : List DeviceNode,
    adjustAll delta (copyAll ns) = ns.map (renumber delta) := by
  intro ns
  induction ns with
  | nil => rfl
  | cons n ns ih =>
    rw [copyAll, adjustAll, ih]
    rfl

variable {delta : UInt32}

theorem copyOf_mk (name name' : Bytes) (phandle : UInt32) (props : List Property) (children : List DeviceNode) :
    CopyOf delta (.mk name phandle props children) (.mk name' (renumberPhandle delta phandle)
      ((props.map copyProp).map (adjustProp delta)) (adjustAll delta (copyAll children))) :=
  ⟨rfl, map_map, adjustAll_copyAll delta children⟩

theorem copyOf_renumber (n : DeviceNode) : CopyOf delta n (renumber delta n) := by
  cases n with
  | mk name phandle props children => exact copyOf_mk ..

theorem renumber_name (n : DeviceNode) : (renumber delta n).name = n.name := by
  cases n with
  | mk name phandle props children => rfl

theorem copyOf_ofCopyNode (n : DeviceNode) :
    CopyOf delta n ((ofCopyNode n).adjustOverlayPhandles delta) := by
  cases n with
  | mk name phandle props children => exact copyOf_mk ..

variable {n n' : DeviceNode}

theorem CopyOf.child (h : CopyOf delta n n') (i : Nat) :
    n'.children[i]? = n.children[i]?.map (renumber delta) := by
  rw [h.children, getElem?_map]

/-- A path leads to the copy of the node it leads to. -/
theorem CopyOf.get?_cases (p : Path) (h : CopyOf delta n n') : n.get? p = none ∧ n'.get? p = none
      ∨ ∃ m m', n.get? p = some m ∧ n'.get? p = some m' ∧ CopyOf delta m m' := by
  induction p generalizing n n' with
  | nil => exact Or.inr ⟨_, _, rfl, rfl, h⟩
  | cons i p ih =>
    rw [DeviceNode.get?, DeviceNode.get?, h.child]
    cases n.children[i]? with
    | none => exact Or.inl ⟨rfl, rfl⟩
    | some c => exact ih (copyOf_renumber c)

theorem CopyOf.get? {p : Path} {m : DeviceNode} (h : CopyOf delta n n') (hm : n.get? p = some m) :
    ∃ m', n'.get? p = some m' ∧ CopyOf delta m m' := by
  rcases h.get?_cases p with ⟨hnone, -⟩ | ⟨m₁, m', hm₁, hm', hcopy⟩
  · nomatch hnone.symm.trans hm
  · cases hm₁.symm.trans hm
    exact ⟨m', hm', hcopy⟩

/-! ## Looking things up in the copy -/

theorem renumberProp_name (p : Property) : (renumberProp delta p).name = p.name := by
  unfold renumberProp adjustProp
  split <;> rfl

theorem copyProp_owned (h : p = .owned p.name p.value) : copyProp p = p := by
  rw [h]
  show Property.owned p.name (p.value.take p.value.length) = _
  rw [take_length]

theorem renumberProp_length (h : p = .owned p.name p.value) :
    (renumberProp delta p).length = p.length := by
  unfold renumberProp adjustProp
  rw [copyProp_owned h]
  split <;> rfl

section

variable (h : CopyOf delta n n')
include h

theorem CopyOf.findProperty (name : Bytes) : n'.findProperty name = n.findProperty name := by
  unfold DeviceNode.findProperty
  rw [h.props, findIdx?_map]
  congr 1
  funext p
  rw [Function.comp_apply, renumberProp_name]

theorem CopyOf.getChildByName (name : Bytes) : n'.getChildByName name = n.getChildByName name := by
  unfold DeviceNode.getChildByName
  rw [h.children, findIdx?_map]
  congr 1
  funext c
  rw [Function.comp_apply, renumber_name]

theorem CopyOf.prop (i : Nat) : n'.props[i]? = n.props[i]?.map (renumberProp delta) := by
  rw [h.props, getElem?_map]

theorem CopyOf.descend {names : List Bytes} : n'.descend names = n.descend names := by
  induction names generalizing n n' with
  | nil => rfl
  | cons name names ih =>
    rw [DeviceNode.descend, h.getChildByName]
    refine Option.bind_congr fun i _ => ?_
    rw [h.child]
    cases n.children[i]? with
    | none => rfl
    | some c =>
      show ((renumber delta c).descend names).map _ = (c.descend names).map _
      rw [ih (copyOf_renumber c)]

theorem CopyOf.findNodeByPath (path : Bytes) : n'.findNodeByPath path = n.findNodeByPath path := by
  cases path with
  | nil => rfl
  | cons c cs =>
    rw [DeviceNode.findNodeByPath, DeviceNode.findNodeByPath, h.descend]

end

/-- The list of the copy. -/
def renumberListed (delta : UInt32) (x : Path × DeviceNode) : Path × DeviceNode :=
  (x.1, renumber delta x.2)

mutual

theorem renumber_listed : ∀ n : DeviceNode,
    (renumber delta n).listed = n.listed.map (renumberListed delta)
  | .mk name phandle props children => by
    show listedFrom 0 (adjustAll delta (copyAll children)) = (listedFrom 0 children).map _
    rw [adjustAll_copyAll, renumber_listedFrom]

theorem renumber_listedFrom : ∀ (ns : List DeviceNode) (k : Nat),
    listedFrom k (ns.map (renumber delta)) = (listedFrom k ns).map (renumberListed delta)
  | [], _ => rfl
  | n :: ns, k => by
    rw [map_cons, listedFrom, listedFrom, renumber_listedFrom ns, renumber_listed n,
      map_append, map_cons, map_map, map_map]
    rfl

end

theorem CopyOf.findNodeByName (h : CopyOf delta n n') (name : Bytes) :
    n'.findNodeByName name = n.findNodeByName name := by
  have hlisted : n'.listed = n.listed.map (renumberListed delta) := by
    cases n with
    | mk name phandle props children =>
      cases n' with
      | mk name' phandle' props' children' =>
        have hchildren : children' = children.map (renumber delta) := h.children
        rw [listed, listed, hchildren, renumber_listedFrom]
  unfold DeviceNode.findNodeByName
  rw [hlisted, find?_map, Option.map_map]
  have hname : ((fun x : Path × DeviceNode => strcaseeq x.2.name name) ∘ renumberListed delta)
      = fun x => strcaseeq x.2.name name := by
    funext x
    show strcaseeq (renumber delta x.2).name name = _
    rw [renumber_name]
  rw [hname]
  rfl

/-! ## References inside of the overlay -/

def addEdit (delta : UInt32) (c : Cell PropRef) : Edit PropRef := ⟨c, fun w => w + delta.toNat⟩

/-- The lists are as they were in the overlay. -/
def ListsKept (overlay : DeviceNode) (s : Store PropRef) : Prop :=
  ∀ r, IsList overlay r → s r = overlay.values r

variable {overlay : DeviceNode} {s s' : Store PropRef}

theorem ListsKept.run (h : ListsKept overlay s) {es : List (Edit PropRef)}
    (hes : ∀ e ∈ es, ¬ IsList overlay e.cell.ref) : ListsKept overlay (s.run es) := by
  intro r hr
  rw [Store.run_of_ref fun e he heq => hes e he (heq ▸ hr)]
  exact h r hr

/-- The cell lies inside of a property. -/
def Inside (t : DeviceNode) (c : Cell PropRef) : Prop :=
  ∃ p, t.prop? c.ref = some p ∧ c.off + 4 ≤ p.length

/-- One fixup property: a cell is moved for each offset in its list, and all of them are inside.
-/
theorem adjustOffsets_ok {fix ref : PropRef} {length : Nat} (hne : ref ≠ fix) {k i : Nat}
    (h : adjustOffsets delta fix ref length k i s = .ok s') :
      s.Makes (fun c => c.off + 4 ≤ length)
        ((range' i k).map fun j => addEdit delta ⟨ref, s.word ⟨fix, 4 * j⟩⟩) s' := by
  induction k generalizing i s with
  | zero =>
    cases h
    exact .nil
  | succ k ih =>
    rw [adjustOffsets] at h
    split at h
    case isTrue => cases h
    case isFalse hle =>
      have hrest := ih h
      -- the list itself is not written to
      have hword : ∀ j, (addWord delta ⟨ref, s.word ⟨fix, 4 * i⟩⟩ s).word ⟨fix, 4 * j⟩
          = s.word ⟨fix, 4 * j⟩ := by
        intro j
        show beNat (slice (4 * j) 4 (s.setWord _ _ fix)) = _
        rw [Store.setWord_of_ne hne.symm]
        rfl
      simp only [hword] at hrest
      exact ⟨forall_mem_cons.mpr ⟨Nat.le_of_not_lt hle, hrest.cells⟩, hrest.eq⟩

theorem prop?_of_get? {fix : DeviceNode}
    (hfix : overlay.get? fp = some fix) (hp : fix.props[j]? = some p) :
    overlay.prop? (fp, j) = some p := by
  unfold prop?
  rw [hfix]
  exact hp

/-- The same for a property of `__local_fixups__`, which names the property of the overlay it is
for, … -/
theorem adjustLocalProp_ok {op : Path} (hcopy : CopyOf delta n n')
    (hn : overlay.get? op = some n) (howned : Owned overlay) (hp : overlay.prop? (fp, j) = some p)
    (hlist : isSkipped p.name = false → IsList overlay (fp, j)) (hkept : ListsKept overlay s)
    (hcells : ∀ c ∈ localCellsProp n op p, ¬ IsList overlay c.ref)
    (h : adjustLocalProp delta fp n' op s (renumberProp delta p, j) = .ok s') :
    s.Makes (Inside overlay) ((localCellsProp n op p).map (addEdit delta)) s' := by
  have hpowned := howned _ _ hp
  rw [adjustLocalProp, renumberProp_name, renumberProp_length hpowned] at h
  unfold localCellsProp at hcells ⊢
  split at h
  case isTrue hskip =>
    cases h
    rw [if_pos hskip]
    exact .nil
  case isFalse hskip =>
    rw [if_neg hskip] at hcells ⊢
    have hlist := hlist (Bool.eq_false_iff.mpr hskip)
    split at h
    · cases h
    next hlen =>
    rw [hcopy.findProperty] at h
    cases hi : n.findProperty p.name with
    | none =>
      rw [hi] at h
      cases h
    | some i =>
      rw [hi] at h hcells
      dsimp only at h hcells ⊢
      rw [hcopy.prop] at h
      cases hq : n.props[i]? with
      | none =>
        rw [hq] at h
        cases h
      | some q =>
        rw [hq] at h
        have hqref : overlay.prop? (op, i) = some q := prop?_of_get? hn hq
        have h : adjustOffsets delta (fp, j) (op, i) (renumberProp delta q).length (p.length / 4) 0 s
            = .ok s' := h
        rw [renumberProp_length (howned _ _ hqref)] at h
        have hword : ∀ k, s.word ⟨(fp, j), 4 * k⟩ = beNat (slice (4 * k) 4 p.value) := by
          intro k
          show beNat (slice (4 * k) 4 (s (fp, j))) = _
          rw [hkept _ hlist, values_eq hp]
        -- there is an offset, so that the property is not a list itself
        have hne : (op, i) ≠ (fp, j) := by
          intro heq
          refine hcells ⟨(op, i), beNat (slice (4 * 0) 4 p.value)⟩ ?_ (heq ▸ hlist)
          refine mem_map_of_mem (mem_map_of_mem (mem_range'_1.mpr ?_))
          omega
        have hmakes := adjustOffsets_ok hne h
        unfold offsets
        rw [map_map, map_map]
        simp only [hword] at hmakes
        refine ⟨forall_mem_map.mpr fun k hk => ⟨q, hqref, ?_⟩, hmakes.eq⟩
        exact forall_mem_map.mp hmakes.cells k hk

/-- A loop over the properties of a node in the copy. -/
theorem foldlM_props {f : Store PropRef → Property × Nat → Except Errno (Store PropRef)}
    (edits : Property → List (Edit PropRef)) {props : List Property}
    (hstep : ∀ j p, props[j]? = some p → ∀ s s', ListsKept overlay s →
      f s (renumberProp delta p, j) = .ok s' → s.Makes (Inside overlay) (edits p) s')
    (hedits : ∀ e ∈ props.flatMap edits, ¬ IsList overlay e.cell.ref) (hkept : ListsKept overlay s)
    (h : (props.map (renumberProp delta)).zipIdx.foldlM f s = .ok s') :
    s.Makes (Inside overlay) (props.flatMap edits) s' := by
  have hmap : (props.map (renumberProp delta)).zipIdx
      = props.zipIdx.map fun x => (renumberProp delta x.1, x.2) := zipIdx_map ..
  have hmem : ∀ x ∈ props.zipIdx, props[x.2]? = some x.1 :=
    fun x hx => mem_zipIdx_iff_getElem?.mp hx
  rw [hmap, foldlM_map] at h
  have hmakes := Store.foldlM_makes (fun x => edits x.1) (ListsKept overlay)
    (fun x hx s s' hs hf => hstep x.2 x.1 (hmem x hx) s s' hs hf)
    (fun x hx s hs => hs.run fun e he => hedits e (mem_flatMap.mpr ⟨_, mem_of_getElem? (hmem x hx), he⟩)) hkept h
  rwa [← flatMap_map Prod.fst, zipIdx_map_fst] at hmakes

/-- The properties of a node below `__local_fixups__`. -/
theorem adjustLocalProps_ok {op : Path} {fix : DeviceNode} (hcopy : CopyOf delta n n')
    (hn : overlay.get? op = some n) (howned : Owned overlay) (hfix : overlay.get? fp = some fix)
    (hlist : ∀ j p, fix.props[j]? = some p → isSkipped p.name = false → IsList overlay (fp, j))
    (hkept : ListsKept overlay s)
    (hcells : ∀ c ∈ fix.props.flatMap (localCellsProp n op), ¬ IsList overlay c.ref)
    (h : (fix.props.map (renumberProp delta)).zipIdx.foldlM (adjustLocalProp delta fp n' op) s
      = .ok s') :
    s.Makes (Inside overlay) ((fix.props.flatMap (localCellsProp n op)).map (addEdit delta)) s' := by
  have hedits : ∀ e ∈ (fix.props.flatMap (localCellsProp n op)).map (addEdit delta), ¬ IsList overlay e.cell.ref :=
    forall_mem_map.mpr hcells
  rw [map_flatMap] at hedits ⊢
  refine foldlM_props _ (fun j p hp s s' hs hstep => ?_) hedits hkept h
  exact adjustLocalProp_ok hcopy hn howned (prop?_of_get? hfix hp) (hlist j p hp) hs
    (fun c hc => hcells c (mem_flatMap.mpr ⟨p, mem_of_getElem? hp, hc⟩)) hstep

mutual

/-- `adjust_local_phandle_references` adds to the cells that are listed. -/
theorem adjustLocal_ok : ∀ (fix : DeviceNode) {fix' n n' : DeviceNode} {fp op : Path}
    {s s' : Store PropRef}, Owned overlay → CopyOf delta fix fix' → CopyOf delta n n' →
    overlay.get? fp = some fix → overlay.get? op = some n →
    (∀ q j p, overlay.prop? (fp ++ q, j) = some p → isSkipped p.name = false →
      IsList overlay (fp ++ q, j)) →
    ListsKept overlay s → (∀ c ∈ localCellsAt fix n op, ¬ IsList overlay c.ref) →
    adjustLocal delta fix' fp n' op s = .ok s' →
    s.Makes (Inside overlay) ((localCellsAt fix n op).map (addEdit delta)) s'
  | .mk name phandle props children, .mk name' phandle' props' children', n, n', fp, op, s, s',
      howned, hfix', hcopy, hfix, hn, hlist, hkept, hcells, h => by
    have hprops : props' = props.map (renumberProp delta) := hfix'.props
    have hchildren : children' = children.map (renumber delta) := hfix'.children
    rw [adjustLocal, hprops, hchildren] at h
    rw [localCellsAt] at hcells ⊢
    obtain ⟨s₁, hs₁, h⟩ := ok_of_bind h
    have hlist₁ : ∀ j p, props[j]? = some p → isSkipped p.name = false → IsList overlay (fp, j) := by
      intro j p hp hskip
      have hlist := hlist [] j p
      rw [append_nil] at hlist
      exact hlist (prop?_of_get? hfix hp) hskip
    have hcells₁ := fun c hc => hcells c (mem_append_left _ hc)
    have hmakes := adjustLocalProps_ok hcopy hn howned hfix hlist₁ hkept hcells₁ hs₁
    rw [map_append]
    exact hmakes.append (adjustLocalChildren_ok children howned hcopy
      (fun i c hc => by rw [get?_append, hfix, Nat.zero_add]; exact congrArg (Option.bind · _) hc)
      hn hlist (hmakes.eq ▸ hkept.run (forall_mem_map.mpr hcells₁)) (fun c hc => hcells c (mem_append_right _ hc)) h)

/-- … and for the nodes below, by recursion along both trees. -/
theorem adjustLocalChildren_ok : ∀ (fixes : List DeviceNode) {n n' : DeviceNode} {fp op : Path}
    {k : Nat} {s s' : Store PropRef}, Owned overlay → CopyOf delta n n' →
    (∀ i c, fixes[i]? = some c → overlay.get? (fp ++ [k + i]) = some c) → overlay.get? op = some n →
    (∀ q j p, overlay.prop? (fp ++ q, j) = some p → isSkipped p.name = false →
      IsList overlay (fp ++ q, j)) →
    ListsKept overlay s → (∀ c ∈ localCellsAll fixes n op, ¬ IsList overlay c.ref) →
    adjustLocalChildren delta (fixes.map (renumber delta)) k fp n' op s = .ok s' →
    s.Makes (Inside overlay) ((localCellsAll fixes n op).map (addEdit delta)) s'
  | [], n, n', fp, op, k, s, s', _, _, _, _, _, _, _, h => by
    cases h
    exact .nil
  | fix :: fixes, n, n', fp, op, k, s, s', howned, hcopy, hfix, hn, hlist, hkept, hcells, h => by
    rw [map_cons, adjustLocalChildren, renumber_name, hcopy.getChildByName] at h
    rw [localCellsAll] at hcells ⊢
    cases hi : n.getChildByName fix.name with
    | none =>
      rw [hi] at h
      cases h
    | some i =>
      rw [hi] at h hcells
      dsimp only at h hcells ⊢
      rw [hcopy.child] at h
      cases hm : n.children[i]? with
      | none =>
        rw [hm] at h
        cases h
      | some m =>
        rw [hm] at h hcells
        dsimp only [Option.map_some] at h hcells ⊢
        have hget : overlay.get? (op ++ [i]) = some m := by
          rw [get?_append, hn]
          exact congrArg (Option.bind · _) hm
        obtain ⟨s₁, hs₁, h⟩ := ok_of_bind h
        have hcells₁ := fun c hc => hcells c (mem_append_left _ hc)
        have hmakes := adjustLocal_ok fix howned (copyOf_renumber fix) (copyOf_renumber m) (hfix 0 fix rfl) hget
          (fun q j p hp hskip => by
            rw [append_assoc] at hp ⊢
            exact hlist _ j p hp hskip)
          hkept hcells₁ hs₁
        rw [map_append]
        exact hmakes.append (adjustLocalChildren_ok fixes howned hcopy
          (fun i c hc => by
            rw [Nat.add_assoc, Nat.add_comm 1]
            exact hfix (i + 1) c hc)
          hn hlist (hmakes.eq ▸ hkept.run (forall_mem_map.mpr hcells₁))
          (fun c hc => hcells c (mem_append_right _ hc)) h)

end

/-! ## References to the base tree -/

def setEdit (x : Cell PropRef × UInt32) : Edit PropRef := ⟨x.1, fun _ => x.2.toNat⟩

/-- A usage "path:property:offset" means the same cell in the copy, … -/
theorem CopyOf.findUsage (hcopy : CopyOf delta overlay n') (howned : Owned overlay)
    (usage : Bytes × Bytes × Int) : n'.findUsage usage = overlay.findUsage usage := by
  obtain ⟨nodePath, propName, offset⟩ := usage
  rw [DeviceNode.findUsage, DeviceNode.findUsage, hcopy.findNodeByPath]
  cases overlay.findNodeByPath nodePath with
  | none => rfl
  | some p =>
    dsimp only
    rcases hcopy.get?_cases p with ⟨hm, hm'⟩ | ⟨m, m', hm, hm', hmcopy⟩
    · rw [hm, hm']
    rw [hm, hm', Option.bind_some, Option.bind_some, hmcopy.findProperty]
    cases m.findProperty propName with
    | none => rfl
    | some i =>
      rw [Option.bind_some, Option.bind_some, hmcopy.prop]
      cases hq : m.props[i]? with
      | none => rfl
      | some q =>
        have hqref : overlay.prop? (p, i) = some q := prop?_of_get? hm hq
        dsimp only [Option.map_some]
        rw [renumberProp_length (howned _ _ hqref)]

/-- … which is inside of its property. -/
theorem findUsage_inside {usage : Bytes × Bytes × Int} {c : Cell PropRef}
    (h : overlay.findUsage usage = .ok (some c)) : Inside overlay c := by
  obtain ⟨nodePath, propName, offset⟩ := usage
  rw [DeviceNode.findUsage] at h
  split at h
  · cases h
  next p _ =>
  split at h
  · cases h
  next i q hprop =>
  split at h
  · cases h
  next hoff =>
  cases h
  obtain ⟨m, hm, hprop⟩ := Option.bind_eq_some_iff.mp hprop
  obtain ⟨i', -, hprop⟩ := Option.bind_eq_some_iff.mp hprop
  obtain ⟨q', hq', heq⟩ := Option.map_eq_some_iff.mp hprop
  cases heq
  refine ⟨q, prop?_of_get? hm hq', ?_⟩
  · show offset.toNat + 4 ≤ q.length
    omega

section

variable (hcopy : CopyOf delta overlay n') (howned : Owned overlay)
include hcopy howned

/-- A string is one cell that is set, or none. -/
theorem updateUsage_ok {phandle : UInt32} {cur : Option Bytes} (h : updateUsage n' phandle s cur = .ok s') :
    s.Makes (Inside overlay) ((usageCell overlay cur).toList.map fun c => setEdit (c, phandle)) s' := by
  cases cur with
  | none => cases h
  | some cur =>
    obtain ⟨usage, hparse, h⟩ := ok_of_bind h
    rw [hcopy.findUsage howned] at h
    obtain ⟨c, hfind, h⟩ := ok_of_bind h
    rw [usageCell, hparse]
    dsimp only
    rw [hfind]
    cases c with
    | none =>
      cases h
      exact .nil
    | some c =>
      cases h
      refine ⟨forall_mem_singleton.mpr (findUsage_inside hfind), ?_⟩
      show _ = s.setWord c (phandle.toNat % 2 ^ 32)
      rw [Nat.mod_eq_of_lt phandle.toNat_lt]

/-- One external fixup: every usage in its text is set to the phandle of the label. -/
theorem updateUsages_ok {phandle : UInt32} {fixup : PropRef} {value : Bytes} (hvalue : s fixup = value)
    (h : updateUsages n' fixup phandle s = .ok s') :
    s.Makes (Inside overlay) ((usageCells overlay value).map fun c => setEdit (c, phandle)) s' := by
  unfold updateUsages at h
  rw [hvalue] at h
  rw [usageCells, map_flatMap]
  exact Store.foldlM_makes _ (fun _ => True)
    (fun cur _ s s' _ hstep => updateUsage_ok hcopy howned hstep) (fun _ _ _ _ => trivial) trivial h

variable {root : DeviceNode}

/-- A property of `__fixups__`. -/
theorem resolveFixup_ok {symbols : DeviceNode} (hp : overlay.prop? (fp, j) = some p)
    (hlist : p.name ≠ cstr "name" → IsList overlay (fp, j)) (hkept : ListsKept overlay s)
    (h : resolveFixup root symbols n' fp s (renumberProp delta p, j) = .ok s') :
    s.Makes (Inside overlay) ((fixupCellsProp root symbols overlay p).map setEdit) s' := by
  rw [resolveFixup, renumberProp_name] at h
  unfold fixupCellsProp
  split at h
  case isTrue hname =>
    cases h
    rw [if_pos hname]
    exact .nil
  case isFalse hname =>
    obtain ⟨phandle, hsymbol, h⟩ := ok_of_bind h
    have hvalue : s (fp, j) = p.value := (hkept _ (hlist hname)).trans (values_eq hp)
    rw [if_neg hname, hsymbol]
    rw [map_map]
    exact updateUsages_ok hcopy howned hvalue h

end

/-! ## The passes together -/

variable {root result : DeviceNode}

section

variable (hcopy : CopyOf delta overlay n') (htidy : Tidy root overlay) (hkept : ListsKept overlay s)
include hcopy htidy hkept

/-- The second pass. -/
theorem resolveLocal_ok (h : resolveLocal delta n' s = .ok s') :
    s.Makes (Inside overlay) ((localCells overlay).map (addEdit delta)) s' := by
  unfold resolveLocal at h
  unfold localCells
  rw [hcopy.findNodeByName] at h
  cases hfp : overlay.findNodeByName (cstr "__local_fixups__") with
  | none =>
    rw [hfp] at h
    cases h
    exact .nil
  | some fp =>
    rw [hfp] at h
    obtain ⟨fix, hfix⟩ := get?_of_findNodeByName hfp
    obtain ⟨fix', hfix', hfixcopy⟩ := hcopy.get? hfix
    dsimp only at h
    rw [hfix'] at h
    rw [Option.bind_some, hfix]
    refine adjustLocal_ok fix htidy.owned hfixcopy hcopy hfix rfl ?_ hkept ?_ h
    · exact fun q j p hp hskip => .inl ⟨fp, q, p, hfp, rfl, hp, hskip⟩
    · intro c hc hlist
      refine (htidy.lists _ hlist).1 c ?_ rfl
      refine mem_append_left _ ?_
      unfold localCells
      rw [hfp, Option.bind_some, hfix]
      exact hc

/-- The third pass. -/
theorem resolveFixups_ok (h : resolveFixups root n' s = .ok s') :
    s.Makes (Inside overlay) ((fixupCells root overlay).map setEdit) s' := by
  have hoff : ∀ x ∈ fixupCells root overlay, ¬ IsList overlay x.1.ref := by
    intro x hx hlist
    exact (htidy.lists _ hlist).1 x.1 (mem_append_right _ (mem_map_of_mem hx)) rfl
  unfold resolveFixups at h
  unfold fixupCells at hoff ⊢
  rw [hcopy.findNodeByName] at h
  cases hfp : overlay.findNodeByName (cstr "__fixups__") with
  | none =>
    rw [hfp] at h
    cases h
    exact .nil
  | some fp =>
    rw [hfp] at h hoff
    obtain ⟨fix, hfix⟩ := get?_of_findNodeByName hfp
    obtain ⟨fix', hfix', hfixcopy⟩ := hcopy.get? hfix
    rw [Option.bind_some, hfix] at hoff
    rw [Option.bind_some, hfix]
    cases hsymbols : (root.findNodeByPath (cstr "/__symbols__")).bind root.get? with
    | none =>
      rw [hsymbols] at h
      cases h
    | some symbols =>
      rw [hsymbols] at h hoff
      dsimp only at h hoff ⊢
      rw [hfix'] at h
      dsimp only at h
      rw [hfixcopy.props] at h
      have hedits : ∀ e ∈ (fix.props.flatMap (fixupCellsProp root symbols overlay)).map setEdit,
          ¬ IsList overlay e.cell.ref := forall_mem_map.mpr hoff
      rw [map_flatMap] at hedits ⊢
      refine foldlM_props _ (fun j p hp s s' hs hstep => ?_) hedits hkept h
      exact resolveFixup_ok hcopy htidy.owned (prop?_of_get? hfix hp)
        (fun hname => .inr ⟨fp, p, hfp, rfl, prop?_of_get? hfix hp, hname⟩) hs hstep

end

end Barebox.Of.DeviceNode
