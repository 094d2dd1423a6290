import Barebox.Of.Fdt

/-!
# The walk over a flat device tree

What `__of_unflatten_dtb` does turn by turn, in a form that a second walk
over the same blob can be compared with. A turn is a tag, a step of the
cursor (`CursorStep`), and an advance of the offset; `unflattenTurn_next`
says that there is nothing else.

Names, paths and properties of all nodes are listed by `Node.flat`. A step
adds a node or a property to that list, and takes nothing away
(`CursorStep.flat`, `CursorStep.keys`).

The offset is a different matter: a length near `2 ^ 32` leads backwards.
`walksForward` is the condition that none does: every tag, `FDT_END`
included, ends inside the structure block and in front of the next one.
-/

namespace Barebox.Of

open Lib List

/-! ## All nodes of a tree -/

/-- A node without its children. -/
structure NodeInfo where
  name : Bytes
  fullName : Bytes
  props : List Property
  deriving DecidableEq

mutual

/-- All nodes of a tree. -/
def Node.flat : Node → List NodeInfo
  | .mk name fullName _ props children => ⟨name, fullName, props⟩ :: flatAll children

def flatAll : List Node → List NodeInfo
  | [] => []
  | node :: nodes => node.flat ++ flatAll nodes

end

def Node.info (np : Node) : NodeInfo := ⟨np.name, np.fullName, np.props⟩

theorem Node.flat_eq (np : Node) : np.flat = np.info :: flatAll np.children := by
  cases np with
  | mk name fullName phandle props children => rfl

theorem flatAll_append (l₁ l₂ : List Node) : flatAll (l₁ ++ l₂) = flatAll l₁ ++ flatAll l₂ := by
  induction l₁ with
  | nil => rfl
  | cons node l₁ ih => rw [cons_append, flatAll, flatAll, ih, append_assoc]

theorem flat_addChild (np child : Node) : (np.addChild child).flat = np.flat ++ child.flat := by
  rw [Node.flat_eq, Node.flat_eq np, Node.addChild_children, flatAll_append]
  show _ :: (flatAll np.children ++ (child.flat ++ flatAll [])) = _
  rw [flatAll, append_nil]
  rfl

theorem info_mem_flat (np : Node) : np.info ∈ np.flat := by
  rw [Node.flat_eq]
  exact mem_cons_self

variable {x : NodeInfo}

theorem mem_flatAll : ∀ {nodes : List Node}, x ∈ flatAll nodes ↔ ∃ np ∈ nodes, x ∈ np.flat
  | [] => by simp [flatAll]
  | node :: nodes => by
    rw [flatAll, mem_append, mem_flatAll]
    simp

/-- A child's nodes are nodes of the tree. -/
theorem flat_of_child {np child : Node} (h : child ∈ np.children)
    (hx : x ∈ child.flat) : x ∈ np.flat := by
  rw [Node.flat_eq np]
  exact mem_cons_of_mem _ (mem_flatAll.mpr ⟨child, h, hx⟩)

/-- Closing the open nodes loses none. -/
theorem mem_flat_closeAll : ∀ {parents : List Node} {np : Node},
    x ∈ (closeAll np parents).flat ↔ x ∈ np.flat ∨ ∃ q ∈ parents, x ∈ q.flat
  | [], np => by simp [closeAll]
  | parent :: parents, np => by
    rw [closeAll, mem_flat_closeAll, flat_addChild, mem_append]
    constructor
    · rintro ((h | h) | ⟨q, hq, h⟩)
      · exact Or.inr ⟨parent, mem_cons_self, h⟩
      · exact Or.inl h
      · exact Or.inr ⟨q, mem_cons_of_mem _ hq, h⟩
    · rintro (h | ⟨q, hq, h⟩)
      · exact Or.inl (Or.inr h)
      · rcases mem_cons.mp hq with rfl | hq
        · exact Or.inl (Or.inl h)
        · exact Or.inr ⟨q, hq, h⟩

/-! ## Tags -/

def tagAt (mem : Bytes) (dt : Nat) : Option Tag := (be32At mem dt).bind Tag.ofNat?

/-- The bytes a tag takes. -/
def tagSize (mem : Bytes) (dt : Nat) : Tag → Option Nat
  | .beginNode => (cstringAt mem (dt + 4)).map fun name => 4 + name.length + 1
  | .prop => (be32At mem (dt + 4)).map fun len => 12 + len
  | _ => some 4

/-- Every tag from `dt` to `FDT_END` ends inside the block, and in front of
the next. -/
def walksForward (mem : Bytes) (f : FdtHeader) : Nat → Nat → Bool
  | 0, _ => false
  | n + 1, dt =>
    match tagAt mem dt with
    | none => false
    | some tag =>
      match tagSize mem dt tag with
      | none => false
      | some size =>
        decide (dt + size ≤ dtStructAdvance f dt size) &&
          (decide (tag = .stop) || walksForward mem f n (dtStructAdvance f dt size))

variable {mem : Bytes} {f : FdtHeader} {n dt size : Nat} {tag : Tag} {s' s : Unflatten} {root : Node}

/-- One step of the walk: a tag of some size, and the rest from the next one. -/
theorem walksForward_cases (h : walksForward mem f (n + 1) dt = true) :
    ∃ tag size, tagAt mem dt = some tag ∧ tagSize mem dt tag = some size ∧
      dt + size ≤ dtStructAdvance f dt size ∧
      (tag = .stop ∨ walksForward mem f n (dtStructAdvance f dt size) = true) := by
  rw [walksForward] at h
  split at h
  · cases h
  next tag htag =>
  split at h
  · cases h
  next size hsize =>
  simp only [Bool.and_eq_true, Bool.or_eq_true, decide_eq_true_eq] at h
  exact ⟨tag, size, htag, hsize, h⟩

theorem dtStructAdvance_le (f : FdtHeader) (dt size : Nat) :
    dtStructAdvance f dt size ≤ f.structEnd := by
  unfold dtStructAdvance
  dsimp only
  split
  · exact Nat.zero_le _
  · omega

theorem tagSize_pos (h : tagSize mem dt tag = some size) : 4 ≤ size := by
  unfold tagSize at h
  split at h
  · obtain ⟨name, -, rfl⟩ := Option.map_eq_some_iff.mp h
    omega
  · obtain ⟨len, -, rfl⟩ := Option.map_eq_some_iff.mp h
    omega
  · cases h
    exact Nat.le_refl _

/-! ## Steps of the cursor -/

/-- The property that starts with its tag at `dt`. -/
structure PropAt (mem : Bytes) (f : FdtHeader) (dt : Nat) (p : Property) : Prop where
  length : be32At mem (dt + 4) = some p.length
  name : ∃ nameoff, be32At mem (dt + 8) = some nameoff ∧ nameoff ≤ f.sizeDtStrings ∧
    cstringAt mem (f.offDtStrings + nameoff) = some p.name
  at_ : p.constAt = some (dt + 12)

/-- What a tag at `dt` does to the current node. -/
inductive CursorStep (mem : Bytes) (f : FdtHeader) (dt : Nat) : Tag → Cursor → Cursor → Prop where
  | openRoot (root : Node) : cstringAt mem (dt + 4) = some [] →
      CursorStep mem f dt .beginNode (.outside root) (.inside root [])
  | openChild (node : Node) (parents : List Node) (name : Bytes) :
      cstringAt mem (dt + 4) = some name → name ≠ [] →
      CursorStep mem f dt .beginNode (.inside node parents)
        (.inside (ofNewNode node name) (node :: parents))
  | closeRoot (node : Node) : CursorStep mem f dt .endNode (.inside node []) (.outside node)
  | closeChild (node parent : Node) (parents : List Node) :
      CursorStep mem f dt .endNode (.inside node (parent :: parents))
        (.inside (parent.addChild node) parents)
  | prop (node : Node) (parents : List Node) (p : Property) : PropAt mem f dt p →
      CursorStep mem f dt .prop (.inside node parents) (.inside (node.addProp p) parents)
  | nop (c : Cursor) : CursorStep mem f dt .nop c c

theorem cstringAt_nil {off : Nat} (h : mem[off]? = some 0) : cstringAt mem off = some [] := by
  obtain ⟨hlt, hget⟩ := List.getElem?_eq_some_iff.mp h
  unfold cstringAt
  rw [drop_eq_getElem_cons hlt, hget]
  exact if_pos hlt

/-- A string that ends within reach is as long as it is. -/
theorem strnlenAt_of_cstringAt {off : Nat} {s : Bytes}
    (h : cstringAt mem off = some s) (hn : s.length < n) : strnlenAt mem off n = some s.length := by
  unfold cstringAt at h
  dsimp only at h
  split at h
  · next hlt =>
    cases h
    unfold strnlenAt
    rw [← take_takeWhile, take_of_length_le (Nat.le_of_lt hn), if_neg]
    rintro ⟨-, hle⟩
    omega
  · cases h

theorem maxlen_eq {name : Nat} (h : name ≤ f.structEnd) : f.maxlen name = f.structEnd - name := by
  unfold FdtHeader.maxlen
  unfold FdtHeader.structEnd at h ⊢
  omega

/-- What is left of the block behind the name of a node that begins at `dt`. -/
theorem maxlen_begin {len : Nat} (h : dt + (4 + len + 1) ≤ dtStructAdvance f dt (4 + len + 1)) :
    f.maxlen (dt + 4) = f.structEnd - (dt + 4) ∧ len < f.structEnd - (dt + 4) := by
  have hle := dtStructAdvance_le f dt (4 + len + 1)
  exact ⟨maxlen_eq (by omega), by omega⟩

/-- A turn over a tag fails, or makes its step; a tag that leads forward leads
behind itself. -/
def Steps (mem : Bytes) (f : FdtHeader) (s : Unflatten) (tag : Tag) (t : UnflattenTurn) : Prop :=
  (∃ e, t = .fail e) ∨ ∃ s', t = .next s' ∧ CursorStep mem f s.dt tag s.node s'.node ∧
    ∀ size, tagSize mem s.dt tag = some size → s.dt + size ≤ dtStructAdvance f s.dt size →
      s'.dt = dtStructAdvance f s.dt size

/-- Moving on with the node that the tag has made, … -/
theorem unflattenAdvance_steps {node : Cursor} (hstep : CursorStep mem f s.dt tag s.node node)
    (hsize : ∀ size', tagSize mem s.dt tag = some size' →
      s.dt + size' ≤ dtStructAdvance f s.dt size' → size = size') :
    Steps mem f s tag (unflattenAdvance f s.dt size node) := by
  unfold unflattenAdvance
  split
  · exact .inl ⟨_, rfl⟩
  · refine .inr ⟨_, rfl, hstep, fun size' hsize' hfwd => ?_⟩
    rw [hsize size' hsize' hfwd]

/-- … for a tag that opens a node, … -/
theorem unflattenBegin_steps (s : Unflatten) : Steps mem f s .beginNode (unflattenBegin mem f s) := by
  unfold unflattenBegin
  split
  · exact .inl ⟨_, rfl⟩
  next len hlen =>
  split
  · exact .inl ⟨_, rfl⟩
  -- the length that `strnlen` finds is that of the whole name
  have hsize : ∀ {name : Bytes}, cstringAt mem (s.dt + 4) = some name →
      ∀ size, tagSize mem s.dt .beginNode = some size →
        s.dt + size ≤ dtStructAdvance f s.dt size → 4 + len + 1 = size := by
    intro name hname size hsize hfwd
    rw [tagSize, hname] at hsize
    cases hsize
    obtain ⟨hmax, hlt⟩ := maxlen_begin hfwd
    have hend : f.structEnd < 2 ^ 32 := Nat.mod_lt _ (by decide)
    unfold nameLen at hlen
    rw [strnlenAt_of_cstringAt hname (by omega)] at hlen
    cases hlen
    rfl
  split
  · next root hnode =>
    split
    · exact .inl ⟨_, rfl⟩
    next c hc =>
    split
    · exact .inl ⟨_, rfl⟩
    next hempty =>
    rw [Decidable.not_not.mp hempty] at hc
    have hpath := cstringAt_nil hc
    exact unflattenAdvance_steps (hnode ▸ .openRoot root hpath) (hsize hpath)
  · next node parents hnode =>
    split
    · exact .inl ⟨_, rfl⟩
    next name hpath =>
    split
    · exact .inl ⟨_, rfl⟩
    next hname =>
    exact unflattenAdvance_steps (hnode ▸ .openChild node parents name hpath hname) (hsize hpath)

/-- … one that closes it, … -/
theorem unflattenEnd_steps (s : Unflatten) : Steps mem f s .endNode (unflattenEnd f s) := by
  unfold unflattenEnd
  split
  · exact .inl ⟨_, rfl⟩
  · next node hnode =>
    exact unflattenAdvance_steps (hnode ▸ .closeRoot node) fun _ h _ => Option.some.inj h
  · next node parent parents hnode =>
    exact unflattenAdvance_steps (hnode ▸ .closeChild node parent parents) fun _ h _ => Option.some.inj h

/-- … and a property. -/
theorem unflattenProp_steps (s : Unflatten) : Steps mem f s .prop (unflattenProp mem true f s) := by
  unfold unflattenProp
  split
  next len nameoff hlen hoff =>
    split
    · exact .inl ⟨_, rfl⟩
    next strings hstrings =>
    split
    · exact .inl ⟨_, rfl⟩
    next name hname =>
    split
    · next p node parents hp hnode =>
      have hlit : p = ⟨name, slice (s.dt + 12) len mem, len, some (s.dt + 12)⟩ := by
        unfold newProperty at hp
        rw [if_pos rfl] at hp
        split at hp
        · cases hp
        · cases hp
          rfl
      have hprop : PropAt mem f s.dt p := by
        rw [hlit]
        refine ⟨hlen, ⟨nameoff, hoff, ?_⟩, rfl⟩
        unfold dtString at hstrings
        split at hstrings
        · cases hstrings
        next hle =>
        cases hstrings
        exact ⟨Nat.le_of_not_lt hle, hname⟩
      refine unflattenAdvance_steps (hnode ▸ .prop node parents p hprop) fun size hsize _ => ?_
      rw [tagSize, hlen] at hsize
      exact Option.some.inj hsize
    · exact .inl ⟨_, rfl⟩
  · exact .inl ⟨_, rfl⟩

/-- A turn, by its tag. -/
theorem unflattenTurn_tag {constprops : Bool} (h : tagAt mem s.dt = some tag) : unflattenTurn mem constprops f s =
      match tag with
      | .beginNode => unflattenBegin mem f s
      | .endNode => unflattenEnd f s
      | .prop => unflattenProp mem constprops f s
      | .nop => unflattenAdvance f s.dt 4 s.node
      | .stop => .done s.node.root := by
  obtain ⟨word, hword, htag⟩ := Option.bind_eq_some_iff.mp h
  unfold unflattenTurn
  rw [hword]
  dsimp only
  rw [htag]
  cases tag <;> rfl

/-- What a turn does. -/
theorem unflattenTurn_cases (mem : Bytes) (f : FdtHeader) (s : Unflatten) :
    (∃ e, unflattenTurn mem true f s = .fail e) ∨
    (tagAt mem s.dt = some .stop ∧ unflattenTurn mem true f s = .done s.node.root) ∨
    ∃ tag, tagAt mem s.dt = some tag ∧ tag ≠ .stop ∧ Steps mem f s tag (unflattenTurn mem true f s) := by
  cases htag : tagAt mem s.dt with
  | none =>
    unfold tagAt at htag
    unfold unflattenTurn
    cases hword : be32At mem s.dt with
    | none => exact .inl ⟨_, rfl⟩
    | some word =>
      rw [hword] at htag
      dsimp only
      rw [show Tag.ofNat? word = none from htag]
      exact .inl ⟨_, rfl⟩
  | some tag =>
    rw [unflattenTurn_tag htag]
    cases tag with
    | beginNode => exact .inr (.inr ⟨_, rfl, by decide, unflattenBegin_steps s⟩)
    | endNode => exact .inr (.inr ⟨_, rfl, by decide, unflattenEnd_steps s⟩)
    | prop => exact .inr (.inr ⟨_, rfl, by decide, unflattenProp_steps s⟩)
    | nop =>
      refine .inr (.inr ⟨_, rfl, by decide, ?_⟩)
      exact unflattenAdvance_steps (.nop _) fun _ h _ => Option.some.inj h
    | stop => exact .inr (.inl ⟨rfl, rfl⟩)

/-- **One turn**: a tag other than `FDT_END`, and its step. A tag that leads forward leads
behind itself. -/
theorem unflattenTurn_next (h : unflattenTurn mem true f s = .next s') :
    ∃ tag, tagAt mem s.dt = some tag ∧ tag ≠ .stop ∧ CursorStep mem f s.dt tag s.node s'.node ∧
      ∀ size, tagSize mem s.dt tag = some size → s.dt + size ≤ dtStructAdvance f s.dt size →
        s'.dt = dtStructAdvance f s.dt size := by
  rcases unflattenTurn_cases mem f s with ⟨e, he⟩ | ⟨-, hdone⟩ | ⟨tag, htag, hne, ⟨e, he⟩ | ⟨_, hs, hstep⟩⟩
  · cases h.symm.trans he
  · cases h.symm.trans hdone
  · cases h.symm.trans he
  · cases h.symm.trans hs
    exact ⟨tag, htag, hne, hstep⟩

theorem unflattenTurn_done (h : unflattenTurn mem true f s = .done root) :
    tagAt mem s.dt = some .stop ∧ root = s.node.root := by
  rcases unflattenTurn_cases mem f s with ⟨e, he⟩ | ⟨htag, hdone⟩ | ⟨tag, -, -, ⟨e, he⟩ | ⟨_, hs, -⟩⟩
  · cases h.symm.trans he
  · cases h.symm.trans hdone
    exact ⟨htag, rfl⟩
  · cases h.symm.trans he
  · cases h.symm.trans hs

/-! ## What a step adds -/

/-- Where a property of the tree comes from: it was there, in a node of the
same path, or the step has added it to the current node. -/
theorem CursorStep.flat {c c' : Cursor}
    (h : CursorStep mem f dt tag c c') (hx : x ∈ c'.root.flat) {p : Property} (hp : p ∈ x.props) :
    (∃ y ∈ c.root.flat, y.fullName = x.fullName ∧ p ∈ y.props) ∨ (tag = .prop ∧ PropAt mem f dt p ∧
      ∃ node parents, c = .inside node parents ∧ x.fullName = node.fullName) := by
  cases h with
  | openRoot root hname => exact Or.inl ⟨x, hx, rfl, hp⟩
  | openChild node parents name hname hne =>
    rcases mem_flat_closeAll.mp hx with hnew | ⟨q, hq, hold⟩
    · -- the new node has no properties yet
      rcases mem_cons.mp hnew with rfl | hnew
      · cases hp
      · cases hnew
    · refine Or.inl ⟨x, mem_flat_closeAll.mpr ?_, rfl, hp⟩
      rcases mem_cons.mp hq with rfl | hq
      · exact Or.inl hold
      · exact Or.inr ⟨q, hq, hold⟩
  | closeRoot node => exact Or.inl ⟨x, hx, rfl, hp⟩
  | closeChild node parent parents => exact Or.inl ⟨x, hx, rfl, hp⟩
  | prop node parents q hq =>
    rcases mem_flat_closeAll.mp hx with hx | ⟨r, hr, hx⟩
    · rcases mem_cons.mp hx with rfl | hx
      · rcases mem_append.mp hp with hp | hp
        · exact Or.inl ⟨node.info, mem_flat_closeAll.mpr (Or.inl (info_mem_flat node)), rfl, hp⟩
        · rw [mem_singleton] at hp
          subst hp
          exact Or.inr ⟨rfl, hq, node, parents, rfl, rfl⟩
      · refine Or.inl ⟨x, mem_flat_closeAll.mpr (Or.inl ?_), rfl, hp⟩
        rw [Node.flat_eq]
        exact mem_cons_of_mem _ hx
    · exact Or.inl ⟨x, mem_flat_closeAll.mpr (Or.inr ⟨r, hr, hx⟩), rfl, hp⟩
  | nop c => exact Or.inl ⟨x, hx, rfl, hp⟩

/-- The names a tree has, with the paths. -/
def Node.keys (np : Node) : List (Bytes × Bytes) := np.flat.map fun x => (x.name, x.fullName)

/-- No node is lost in a step. -/
theorem CursorStep.keys {c c' : Cursor} (h : CursorStep mem f dt tag c c') : c.root.keys ⊆ c'.root.keys := by
  intro k hk
  obtain ⟨x, hx, rfl⟩ := mem_map.mp hk
  cases h with
  | openRoot root hname => exact hk
  | openChild node parents name hname hne =>
    refine mem_map.mpr ⟨x, mem_flat_closeAll.mpr (Or.inr ?_), rfl⟩
    rcases mem_flat_closeAll.mp hx with hx | ⟨q, hq, hx⟩
    · exact ⟨node, mem_cons_self, hx⟩
    · exact ⟨q, mem_cons_of_mem _ hq, hx⟩
  | closeRoot node => exact hk
  | closeChild node parent parents => exact hk
  | prop node parents q hq =>
    rcases mem_flat_closeAll.mp hx with hx | ⟨r, hr, hx⟩
    · rw [Node.flat_eq] at hx
      rcases mem_cons.mp hx with rfl | hx
      · refine mem_map.mpr ⟨(node.addProp q).info, ?_, rfl⟩
        exact mem_flat_closeAll.mpr (Or.inl (info_mem_flat _))
      · refine mem_map.mpr ⟨x, mem_flat_closeAll.mpr (Or.inl ?_), rfl⟩
        exact mem_cons_of_mem _ hx
    · exact mem_map.mpr ⟨x, mem_flat_closeAll.mpr (Or.inr ⟨r, hr, hx⟩), rfl⟩
  | nop c => exact hk

/-- Every node a run of the loop has come across is in its result. -/
theorem unflatten_keys
    (h : loop (unflattenTurn mem true f) .EFAULT n s = .ok root) : s.node.root.keys ⊆ root.keys := by
  refine loop_ok_rel (P := fun (s : Unflatten) (root : Node) => s.node.root.keys ⊆ root.keys)
    ?_ ?_ n h
  · intro s root hturn
    rw [(unflattenTurn_done hturn).2]
    exact List.Subset.refl _
  · intro s s' root hturn hrest
    obtain ⟨tag, -, -, hstep, -⟩ := unflattenTurn_next hturn
    exact List.Subset.trans hstep.keys hrest

/-- A blob that can be unflattened is as large as it says, its structure
block ends inside it, and the loop comes to its end. -/
theorem ofUnflatten_loop (hf : fdtHeader mem = some f) (h : ofUnflattenDtbConst mem size = .ok root) :
    ∃ root₀, f.totalsize ≤ size ∧ f.structEnd ≤ f.totalsize ∧
      ofUnflattenReservemap ofNewRoot mem = .ok root₀ ∧
      loop (unflattenTurn mem true f) .EFAULT (mem.length + 1) ⟨f.offDtStruct, .outside root₀⟩
        = .ok root := by
  unfold ofUnflattenDtbConst ofUnflatten ofUnflattenFor at h
  split at h
  · cases h
  split at h
  · next f' _ _ hf' =>
    cases hf.symm.trans hf'
    split at h
    · cases h
    split at h
    · cases h
    split at h
    · cases h
    next htotal =>
    split at h
    · cases h
    next hstruct =>
    split at h
    · cases h
    split at h
    · cases h
    next root₀ hres =>
    exact ⟨root₀, Nat.le_of_not_lt htotal, Nat.le_of_not_lt hstruct, hres, h⟩
  · cases h

end Barebox.Of
