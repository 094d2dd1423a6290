import Barebox.Of.DeviceNode

/-!
# A phandle for a node — `drivers/of/base.c`

`of_node_create_phandle` gives a node without a phandle the next one behind
the greatest of the tree. The greatest is looked for from the root on, and
not at the root, so the new one may be the one of the root; and behind
`0xffffffff` it is zero. `create_phandle_iff` is that nothing else goes
wrong, but for a node that has two `phandle` properties: the first of them
is replaced, behind the other one.
-/

namespace Barebox.Of

open Lib List

namespace DeviceNode

def isPhandle (p : Property) : Bool := p.name = cstr "phandle"

def phandleProp (phandle : UInt32) : Property := .owned (cstr "phandle") (beBytes 4 phandle.toNat)

/-- `node->phandle = p`, and `of_set_property(node, "phandle", …)`. -/
def setPhandle (phandle : UInt32) : DeviceNode → DeviceNode
  | .mk name _ props children => .mk name phandle (props.eraseP isPhandle ++ [phandleProp phandle]) children

/-- Another node in the place of one. -/
def modifyAt (f : DeviceNode → DeviceNode) : Path → DeviceNode → DeviceNode
  | [], n => f n
  | i :: p, .mk name phandle props children =>
    .mk name phandle props (children.modify i (modifyAt f p))

/-- `of_node_create_phandle` for the node at `p`: what it returns, and the
tree. -/
def createPhandle (root : DeviceNode) (p : Path) (node : DeviceNode) : UInt32 × DeviceNode :=
  if node.phandle ≠ 0 then (node.phandle, root)
  else
    let phandle := root.maxPhandle + 1
    (phandle, root.modifyAt (setPhandle phandle) p)

/-! ## What is kept -/

/-- A node without its children. -/
def info? (t : DeviceNode) (p : Path) : Option (Bytes × UInt32 × List Property) :=
  (t.get? p).map fun n => (n.name, n.phandle, n.props)

/-- No two nodes have a phandle in common. -/
def Distinct (t : DeviceNode) : Prop :=
  ∀ p q n m, t.info? p = some n → t.info? q = some m → n.2.1 = m.2.1 → n.2.1 ≠ 0 → p = q

/-- The phandle of a node is what its property says. -/
def Agrees (n : Bytes × UInt32 × List Property) : Prop :=
  (n.2.2.find? isPhandle).map Property.value = some (beBytes 4 n.2.1.toNat)

/-- What is expected of a phandle for `node`. -/
structure Created (root : DeviceNode) (p : Path) (node : DeviceNode) : Prop where
  nonzero : (root.createPhandle p node).1 ≠ 0
  others : ∀ q, q ≠ p → (root.createPhandle p node).2.info? q = root.info? q
  distinct : (root.createPhandle p node).2.Distinct
  property : ∀ n, root.info? p = some n → n.2.1 = 0 ∨ Agrees n →
    ∀ n', (root.createPhandle p node).2.info? p = some n' → n'.2.1 = (root.createPhandle p node).1 ∧ Agrees n'

variable {t n : DeviceNode} {f : DeviceNode → DeviceNode}

/-- Changing one node leaves the others. -/
theorem info?_modifyAt_ne (hf : ∀ n, (f n).children = n.children) : ∀ {p q : Path} {t : DeviceNode},
    q ≠ p → (t.modifyAt f p).info? q = t.info? q
  | [], [], _, h => absurd rfl h
  | [], j :: q, t, _ => by simp [info?, modifyAt, get?, hf]
  | i :: p, [], .mk _ _ _ _, _ => rfl
  | i :: p, j :: q, .mk name phandle props children, h => by
    simp only [info?, modifyAt, get?, DeviceNode.children, getElem?_modify]
    by_cases hij : i = j
    · -- the same child: on to what is below
      subst hij
      have hq : q ≠ p := fun heq => h (congrArg (i :: ·) heq)
      cases children[i]? with
      | none => rfl
      | some c => simpa [info?] using info?_modifyAt_ne hf hq
    · simp [hij]

theorem get?_modifyAt : ∀ {p : Path} {t : DeviceNode}, t.get? p = some n →
    (t.modifyAt f p).get? p = some (f n)
  | [], t, h => congrArg (Option.map f) h
  | i :: p, .mk name phandle props children, h => by
    obtain ⟨c, hc, hn⟩ := Option.bind_eq_some_iff.mp h
    have hc : children[i]? = some c := hc
    simp only [modifyAt, get?, DeviceNode.children, getElem?_modify, hc]
    simpa using get?_modifyAt hn

theorem setPhandle_children (phandle : UInt32) : ∀ n : DeviceNode, (n.setPhandle phandle).children = n.children
  | .mk _ _ _ _ => rfl

/-- The new node. -/
theorem info?_setPhandle {p : Path} (h : t.get? p = some n) (phandle : UInt32) :
    (t.modifyAt (setPhandle phandle) p).info? p
      = some (n.name, phandle, n.props.eraseP isPhandle ++ [phandleProp phandle]) := by
  rw [info?, get?_modifyAt h]
  cases n with
  | mk name old props children => rfl

/-! ## When it is -/

/-- The phandle of the root is another one, … -/
theorem distinct_modifyAt_iff (hd : t.Distinct) {p : Path} (hn : t.get? p = some n) (hzero : n.phandle = 0)
    (hne : t.maxPhandle + 1 ≠ 0) :
    (t.modifyAt (setPhandle (t.maxPhandle + 1)) p).Distinct ↔ t.maxPhandle + 1 ≠ t.phandle := by
  have hnew := info?_setPhandle hn (t.maxPhandle + 1)
  have hold : ∀ {q}, q ≠ p → (t.modifyAt (setPhandle (t.maxPhandle + 1)) p).info? q = t.info? q :=
    info?_modifyAt_ne (setPhandle_children _)
  -- below the root, it is greater than all others
  have hother : t.maxPhandle + 1 ≠ t.phandle → ∀ q m, t.info? q = some m → m.2.1 ≠ t.maxPhandle + 1 := by
    intro hroot q m hm heq
    obtain ⟨c, hc, rfl⟩ := Option.map_eq_some_iff.mp hm
    cases q with
    | nil =>
      cases hc
      exact hroot heq.symm
    | cons i q =>
      have hle := le_maxPhandle (cons_ne_nil i q) hc
      rw [show c.phandle = t.maxPhandle + 1 from heq] at hle
      have hlt := t.maxPhandle.toNat_lt
      rw [UInt32.le_iff_toNat_le, UInt32.toNat_add] at hle
      rw [ne_eq, ← UInt32.toNat_inj, UInt32.toNat_add] at hne
      simp only [UInt32.toNat_one, UInt32.toNat_zero] at hle hne
      omega
  constructor
  · intro h heq
    by_cases hp : p = []
    · subst hp
      cases hn
      exact hne (heq.trans hzero)
    · have hroot : t.info? [] = some (t.name, t.phandle, t.props) := rfl
      exact hp (h p [] _ _ hnew ((hold fun h => hp h.symm).trans hroot) heq hne)
  · intro hroot q r x y hx hy heq hx0
    by_cases hq : q = p
    · by_cases hr : r = p
      · rw [hq, hr]
      · rw [hq, hnew] at hx
        rw [hold hr] at hy
        cases hx
        exact absurd heq.symm (hother hroot r y hy)
    · rw [hold hq] at hx
      by_cases hr : r = p
      · rw [hr, hnew] at hy
        cases hy
        exact absurd heq (hother hroot q x hx)
      · rw [hold hr] at hy
        exact hd q r x y hx hy heq hx0

/-- … and the new property is found, … -/
theorem agrees_iff (name : Bytes) (phandle : UInt32) (props : List Property) :
    Agrees (name, phandle, props.eraseP isPhandle ++ [phandleProp phandle]) ↔
      ∀ q, (props.eraseP isPhandle).find? isPhandle = some q → q.value = beBytes 4 phandle.toNat := by
  unfold Agrees
  cases h : (props.eraseP isPhandle).find? isPhandle with
  | none => simp [find?_append, h, isPhandle, phandleProp, Property.owned]
  | some q => simp [find?_append, h]

/-- … and then all is as it should be. -/
theorem create_phandle_iff (root : DeviceNode) (p : Path) :
    (root.Distinct → ∀ node, root.get? p = some node → Created root p node) ↔
      (root.Distinct → ∀ node, root.get? p = some node → node.phandle = 0 →
        root.maxPhandle + 1 ≠ 0 ∧ root.maxPhandle + 1 ≠ root.phandle ∧
          ∀ q, (node.props.eraseP isPhandle).find? isPhandle = some q →
            q.value = beBytes 4 (root.maxPhandle + 1).toNat) := by
  refine imp_congr_right fun hd => forall_congr' fun node => imp_congr_right fun hnode => ?_
  by_cases hzero : node.phandle = 0
  case neg =>
    -- the node has one already
    have hcreate : root.createPhandle p node = (node.phandle, root) := if_pos hzero
    refine iff_of_true ?_ fun h => absurd h hzero
    constructor <;> rw [hcreate]
    · exact hzero
    · exact fun _ _ => rfl
    · exact hd
    · intro n hn hagrees n' hn'
      cases hn.symm.trans hn'
      have hinfo : root.info? p = some (node.name, node.phandle, node.props) := by rw [info?, hnode]; rfl
      cases hinfo.symm.trans hn
      exact ⟨rfl, hagrees.resolve_left hzero⟩
  have hcreate : root.createPhandle p node
      = (root.maxPhandle + 1, root.modifyAt (setPhandle (root.maxPhandle + 1)) p) := if_neg (by simpa using hzero)
  have hnew := info?_setPhandle hnode (root.maxPhandle + 1)
  have hold : root.info? p = some (node.name, node.phandle, node.props) := by rw [info?, hnode]; rfl
  constructor
  · intro h _
    have hne := h.nonzero
    have hdist := h.distinct
    have hprop := h.property _ hold (.inl hzero)
    rw [hcreate] at hne hdist hprop
    exact ⟨hne, (distinct_modifyAt_iff hd hnode hzero hne).mp hdist, (agrees_iff ..).mp (hprop _ hnew).2⟩
  · intro h
    obtain ⟨hne, hroot, hsecond⟩ := h hzero
    constructor <;> rw [hcreate]
    · exact hne
    · exact fun q hq => info?_modifyAt_ne (setPhandle_children _) hq
    · exact (distinct_modifyAt_iff hd hnode hzero hne).mpr hroot
    · intro n _ _ n' hn'
      cases hnew.symm.trans hn'
      exact ⟨rfl, (agrees_iff ..).mpr hsecond⟩

/-- The child of a root with phandle 1 gets phandle 1, too. -/
theorem create_phandle_of_root :
    let child := DeviceNode.mk (cstr "a") 0 [] []
    let root := DeviceNode.mk [] 1 [phandleProp 1] [child]
    root.Distinct ∧ (root.createPhandle [0] child).1 = 1 ∧ ¬ (root.createPhandle [0] child).2.Distinct := by
  intro child root
  have hroot : ∀ p n, root.info? p = some n → n.2.1 ≠ 0 → p = []
    | [], _, _, _ => rfl
    | [0], n, h, hne => by
      cases h
      exact absurd rfl hne
    | 0 :: _ :: _, _, h, _ => by nomatch h
    | (_ + 1) :: _, _, h, _ => by nomatch h
  refine ⟨fun p q n m hn hm heq hne => ?_, rfl, fun h => ?_⟩
  · rw [hroot p n hn hne, hroot q m hm (heq ▸ hne)]
  · exact absurd (h [] [0] _ _ rfl rfl rfl (by decide)) (by decide)

end DeviceNode

end Barebox.Of
