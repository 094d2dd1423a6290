import Barebox.Of.Layout
import Barebox.Of.Bounds

/-!
# Reading what was written — `drivers/of/fdt.c`

`__of_unflatten_dtb` on the entries `__of_flatten_dtb` writes. A turn of its
loop reads one entry (`turn_reads`), and only one thing about an entry is
not in its bytes: the name of a property, which is looked up among the
strings. So everything here is for whatever `read` finds there. The entries
of a tree give back that tree with its properties renamed (`readNode`), and
it is the same tree if and only if every name is read as it was
(`renamed_iff`).
-/

namespace Barebox.Of

open Lib List

/-- What an entry does to the current node; the number is the offset of the
next string. -/
def readItem (read : Nat → Option Bytes) : Cursor × Nat → Item → Option (Cursor × Nat)
  | (.outside root, so), .openNode name => if name = [] then some (.inside root [], so) else none
  | (.inside node parents, so), .openNode name =>
    if name = [] then none else some (.inside (ofNewNode node name) (node :: parents), so)
  | (.outside _, _), .property _ => none
  | (.inside node parents, so), .property p =>
    (read so).map fun name =>
      (.inside (node.addProp (.owned name p.value)) parents, so + (p.name.length + 1))
  | (.outside _, _), .closeNode => none
  | (.inside node [], so), .closeNode => some (.outside node, so)
  | (.inside node (parent :: parents), so), .closeNode =>
    some (.inside (parent.addChild node) parents, so)

/-! ## Bytes in memory -/

variable {off : Nat} {it : Item}

variable {pre : Bytes}

/-- A word that stands at an offset is read there, … -/
theorem be32At_append {n : Nat} (post : Bytes) (hoff : pre.length = off)
    (hn : n < 2 ^ 32) : be32At (pre ++ (beBytes 4 n ++ post)) off = some n := by
  have hlen : (beBytes 4 n).length = 4 := beBytes_length 4 n
  unfold be32At
  rw [if_pos (by rw [length_append, length_append]; omega),
    slice_append_right _ (Nat.le_of_eq hoff), hoff, Nat.sub_self, slice_zero,
    take_append_of_le_length (Nat.le_of_eq hlen.symm), take_of_length_le (Nat.le_of_eq hlen),
    beNat_beBytes_of_lt hn]

/-- … and so is a string, up to its zero. -/
theorem cstringAt_append {s : Bytes} (post : Bytes) (hoff : pre.length = off)
    (hs : (0 : UInt8) ∉ s) : cstringAt (pre ++ (s ++ 0 :: post)) off = some s := by
  unfold cstringAt
  rw [← hoff, drop_left, takeWhile_terminated hs]
  refine if_pos ?_
  simp only [length_append, length_cons]
  omega

/-- A string ends where it is said to only if there is a NUL. -/
theorem cstringAt_append_iff {s : Bytes} {c : UInt8} (post : Bytes)
    (hoff : pre.length = off) (hs : (0 : UInt8) ∉ s) : cstringAt (pre ++ (s ++ c :: post)) off = some s ↔ c = 0 := by
  constructor
  · intro h
    refine Classical.byContradiction fun hc => ?_
    unfold cstringAt at h
    dsimp only at h
    rw [← hoff, drop_left] at h
    split at h
    case isFalse => cases h
    case isTrue =>
      have hpos : ∀ b ∈ s, decide (b ≠ 0) = true :=
        fun b hb => decide_eq_true fun h0 => hs (h0 ▸ hb)
      have hlen := congrArg List.length (Option.some.inj h)
      rw [takeWhile_append_of_pos hpos,
        takeWhile_cons_of_pos (p := fun b => decide (b ≠ 0)) (decide_eq_true hc),
        length_append, length_cons] at hlen
      omega
  · intro hc
    rw [hc]
    exact cstringAt_append post hoff hs

/-! ## A turn -/

/-- `dt_string`, and the string. -/
def stringAt (mem : Bytes) (f : FdtHeader) (so : Nat) : Option Bytes :=
  (dtString f so).bind (cstringAt mem)

/-- A turn that ends as it should. -/
def Reads (t : UnflattenTurn) (next : Nat) : Option (Cursor × Nat) → Prop
  | some (c, _) => t = .next ⟨next, c⟩
  | none => ∃ e, t = .fail e

variable {mem post : Bytes} {f : FdtHeader} {dt so : Nat}

/-- Going on to the next tag, while the structure block lasts. -/
theorem unflattenAdvance_eq {n : Nat} (c : Cursor) (hmod : dt % 4 = 0) (hn : 0 < n)
    (hend : dt + roundup n 4 ≤ f.structEnd) :
    unflattenAdvance f dt n c = .next ⟨dt + roundup n 4, c⟩ := by
  have hlt : f.structEnd < 2 ^ 32 := Nat.mod_lt _ (by decide)
  have hle := le_roundup n (show 0 < 4 by decide)
  have hadvance : dtStructAdvance f dt n = dt + roundup n 4 := by
    unfold dtStructAdvance
    have halign : align4 ((dt + n) % 2 ^ 32) = dt + roundup n 4 := dtNextOfs_eq hmod (by omega)
    rw [halign]
    exact if_neg (by omega)
  unfold unflattenAdvance
  rw [hadvance]
  split
  · omega
  · rfl

/-- An entry lies in the block of tags. -/
structure EntryAt (mem : Bytes) (f : FdtHeader) (dt so : Nat) (it : Item) : Prop where
  bytes : ∃ pre post, mem = pre ++ (it.bytes so ++ post) ∧ pre.length = dt
  aligned : dt % 4 = 0
  inside : dt + it.size ≤ f.structEnd
  so_lt : so < 2 ^ 32
  sized : it.Sized

/-- A tag that opens a node is read as its entry, … -/
theorem begin_reads {name : Bytes} (h : EntryAt mem f dt so (.openNode name)) (c : Cursor) :
    Reads (unflattenTurn mem false f ⟨dt, c⟩) (dt + (Item.openNode name).size)
      (readItem (stringAt mem f) (c, so) (.openNode name)) := by
  obtain ⟨pre, post, hmem, hpre⟩ := h.bytes
  obtain ⟨hzero, -⟩ := h.sized
  have hround := le_roundup (4 + name.length + 1) (show 0 < 4 by decide)
  have hinside : dt + roundup (4 + name.length + 1) 4 ≤ f.structEnd := h.inside
  have hlt : f.structEnd < 2 ^ 32 := Nat.mod_lt _ (by decide)
  obtain ⟨k, hk⟩ := Nat.exists_eq_add_of_lt
    (show 4 + name.length < roundup (4 + name.length + 1) 4 by omega)
  -- the tag, and the name behind it
  have htag : tagAt mem dt = some .beginNode := by
    unfold tagAt
    rw [hmem, Item.bytes, append_assoc, append_assoc, be32At_append _ hpre (by decide)]
    rfl
  have hname : cstringAt mem (dt + 4) = some name := by
    have hzeros : replicate (roundup (4 + name.length + 1) 4 - (4 + name.length)) (0 : UInt8)
        = 0 :: replicate k 0 := by
      rw [hk, Nat.add_assoc, Nat.add_sub_cancel_left, replicate_succ]
    rw [hmem, Item.bytes, hzeros, append_assoc, append_assoc, ← append_assoc pre]
    refine cstringAt_append _ ?_ hzero
    rw [length_append, beBytes_length, hpre]
  have hmax : f.maxlen (dt + 4) = f.structEnd - (dt + 4) := maxlen_eq (by omega)
  have hlen : nameLen mem f (dt + 4) = some name.length := by
    refine strnlenAt_of_cstringAt hname ?_
    omega
  rw [unflattenTurn_tag htag]
  unfold unflattenBegin
  rw [hlen]
  dsimp only
  rw [if_neg (by rw [hmax]; omega)]
  cases c with
  | outside root =>
    dsimp only
    by_cases hnil : name = []
    · rw [readItem, if_pos hnil]
      rw [hnil] at hname
      rw [cstringAt_eq_nil hname]
      exact unflattenAdvance_eq _ h.aligned (by omega) h.inside
    · rw [readItem, if_neg hnil]
      split
      · exact ⟨_, rfl⟩
      next c hc =>
      split
      · exact ⟨_, rfl⟩
      next hc0 =>
      rw [Classical.not_not.mp hc0] at hc
      rw [cstringAt_nil hc] at hname
      exact absurd (Option.some.inj hname).symm hnil
  | inside node parents =>
    rw [hname]
    dsimp only
    by_cases hnil : name = []
    · rw [readItem, if_pos hnil, if_pos hnil]
      exact ⟨_, rfl⟩
    · rw [readItem, if_neg hnil, if_neg hnil]
      exact unflattenAdvance_eq _ h.aligned (by omega) h.inside

/-- … a property too, with its name from the strings block, … -/
theorem prop_reads {p : Property} (h : EntryAt mem f dt so (.property p)) (c : Cursor) :
    Reads (unflattenTurn mem false f ⟨dt, c⟩) (dt + (Item.property p).size)
      (readItem (stringAt mem f) (c, so) (.property p)) := by
  obtain ⟨pre, post, hmem, hpre⟩ := h.bytes
  obtain ⟨-, -, -, hvalue⟩ := h.sized
  simp only [Item.bytes, append_assoc] at hmem
  -- the words, and the value behind them
  have htag : tagAt mem dt = some .prop := by
    unfold tagAt
    rw [hmem, be32At_append _ hpre (by decide)]
    rfl
  have hlen : be32At mem (dt + 4) = some p.value.length := by
    rw [hmem, ← append_assoc pre]
    refine be32At_append _ ?_ (by omega)
    rw [length_append, beBytes_length, hpre]
  have hoff : be32At mem (dt + 8) = some so := by
    rw [hmem, ← append_assoc pre, ← append_assoc (pre ++ _)]
    refine be32At_append _ ?_ h.so_lt
    rw [length_append, length_append, beBytes_length, beBytes_length, hpre]
  have hnew : ∀ name, newProperty mem false name (dt + 12) p.value.length
      = some (.owned name p.value) := by
    intro name
    have hhead : (pre ++ (beBytes 4 3 ++ (beBytes 4 p.value.length ++ beBytes 4 so))).length
        = dt + 12 := by
      simp only [length_append, beBytes_length, hpre]
    have hmem' : mem = pre ++ (beBytes 4 3 ++ (beBytes 4 p.value.length ++ beBytes 4 so))
        ++ (p.value ++ (replicate (roundup (12 + p.value.length) 4 - (12 + p.value.length)) 0
          ++ post)) := by
      rw [hmem]
      simp only [append_assoc]
    have hin : dt + 12 + p.value.length ≤ mem.length := by
      rw [hmem', length_append, hhead, length_append]
      omega
    unfold newProperty
    rw [if_neg Bool.false_ne_true, if_pos ⟨hvalue, hin⟩, hmem',
      slice_append_right _ (Nat.le_of_eq hhead), hhead, Nat.sub_self, slice_append_exact _ rfl]
  rw [unflattenTurn_tag htag]
  unfold unflattenProp
  rw [hlen, hoff]
  dsimp only
  cases hofs : dtString f so with
  | none => cases c <;> simp [readItem, stringAt, hofs, Reads]
  | some ofs =>
    dsimp only
    cases hname : cstringAt mem ofs with
    | none => cases c <;> simp [readItem, stringAt, hofs, hname, Reads]
    | some name =>
      dsimp only
      rw [hnew]
      cases c with
      | outside root => exact ⟨_, rfl⟩
      | inside node parents =>
        rw [readItem, stringAt, hofs, Option.bind_some, hname]
        exact unflattenAdvance_eq _ h.aligned (by omega) h.inside

/-- … and the tag that closes a node. -/
theorem end_reads (h : EntryAt mem f dt so .closeNode) (c : Cursor) :
    Reads (unflattenTurn mem false f ⟨dt, c⟩) (dt + Item.closeNode.size)
      (readItem (stringAt mem f) (c, so) .closeNode) := by
  obtain ⟨pre, post, hmem, hpre⟩ := h.bytes
  have htag : tagAt mem dt = some .endNode := by
    unfold tagAt
    rw [hmem, Item.bytes, be32At_append _ hpre (by decide)]
    rfl
  rw [unflattenTurn_tag htag]
  cases c with
  | outside root => exact ⟨_, rfl⟩
  | inside node parents =>
    cases parents with
    | nil => exact unflattenAdvance_eq _ h.aligned (by decide) h.inside
    | cons parent parents => exact unflattenAdvance_eq _ h.aligned (by decide) h.inside

/-- A turn reads an entry. -/
theorem turn_reads (h : EntryAt mem f dt so it) (c : Cursor) :
    Reads (unflattenTurn mem false f ⟨dt, c⟩) (dt + it.size)
      (readItem (stringAt mem f) (c, so) it) := by
  cases it with
  | openNode name => exact begin_reads h c
  | property p => exact prop_reads h c
  | closeNode => exact end_reads h c

/-! ## The loop -/

def namesSize (its : List Item) : Nat := (its.map Item.nameSize).sum

theorem namesSize_cons (its : List Item) :
    namesSize (it :: its) = it.nameSize + namesSize its := sum_cons

theorem namesSize_append (l₁ l₂ : List Item) : namesSize (l₁ ++ l₂) = namesSize l₁ + namesSize l₂ := by
  unfold namesSize
  rw [map_append, sum_append]

theorem namesSize_node (name : Bytes) (props : List Property) (children : List Node) :
    namesSize (.openNode name :: (props.map .property ++ (itemsAll children ++ [.closeNode])))
      = namesSize (props.map .property) + namesSize (itemsAll children) := by
  rw [namesSize_cons, namesSize_append, namesSize_append]
  exact Nat.zero_add _

/-- Entries lie in the block of tags, one after the other. -/
structure EntriesAt (mem : Bytes) (f : FdtHeader) (dt so : Nat) (its : List Item) : Prop where
  bytes : ∃ pre post, mem = pre ++ (itemsBytes so its ++ post) ∧ pre.length = dt
  aligned : dt % 4 = 0
  inside : dt + (itemsBytes so its).length ≤ f.structEnd
  so_lt : so + namesSize its < 2 ^ 32
  sized : ∀ it ∈ its, it.Sized

theorem Item.size_mod : it.size % 4 = 0 := by
  cases it with
  | openNode name => exact Nat.mod_eq_zero_of_dvd (dvd_roundup _ 4)
  | property p => exact Nat.mod_eq_zero_of_dvd (dvd_roundup _ 4)
  | closeNode => rfl

theorem itemsBytes_cons_length (its : List Item) :
    (itemsBytes so (it :: its)).length = it.size + (itemsBytes (so + it.nameSize) its).length := by
  rw [itemsBytes, length_append, Item.bytes_length]

theorem EntriesAt.head {its : List Item} (h : EntriesAt mem f dt so (it :: its)) : EntryAt mem f dt so it := by
  obtain ⟨pre, post, hmem, hpre⟩ := h.bytes
  have hinside := h.inside
  have hso := h.so_lt
  rw [itemsBytes_cons_length] at hinside
  refine ⟨⟨pre, itemsBytes (so + it.nameSize) its ++ post, ?_, hpre⟩, h.aligned, by omega, by omega,
    h.sized it (.head _)⟩
  rw [hmem, itemsBytes, append_assoc]

/-- Behind an entry the others stand where its size and its name end. -/
theorem EntriesAt.tail {its : List Item} (h : EntriesAt mem f dt so (it :: its)) :
    EntriesAt mem f (dt + it.size) (so + it.nameSize) its := by
  obtain ⟨pre, post, hmem, hpre⟩ := h.bytes
  have hinside := h.inside
  have hso := h.so_lt
  have haligned := h.aligned
  have hmod := it.size_mod
  rw [itemsBytes_cons_length] at hinside
  rw [namesSize_cons] at hso
  refine ⟨⟨pre ++ it.bytes so, post, ?_, ?_⟩, by omega, by omega, by omega,
    fun it hit => h.sized it (.tail _ hit)⟩
  · rw [hmem, itemsBytes, append_assoc, append_assoc]
  · rw [length_append, Item.bytes_length, hpre]

/-- Reading an entry moves on by its name. -/
theorem readItem_so {read : Nat → Option Bytes} {c c' : Cursor} {so' : Nat}
    (h : readItem read (c, so) it = some (c', so')) : so' = so + it.nameSize := by
  cases it with
  | openNode name =>
    cases c with
    | outside root =>
      rw [readItem] at h
      split at h <;> cases h
      rfl
    | inside node parents =>
      rw [readItem] at h
      split at h <;> cases h
      rfl
  | property p =>
    cases c with
    | outside root => cases h
    | inside node parents =>
      obtain ⟨name, -, heq⟩ := Option.map_eq_some_iff.mp h
      cases heq
      rfl
  | closeNode =>
    cases c with
    | outside root => cases h
    | inside node parents =>
      cases parents <;> cases h <;> rfl

/-- The loop over entries, up to one that is not read. -/
theorem loop_reads : ∀ {its : List Item} {dt so : Nat} {c : Cursor}, EntriesAt mem f dt so its → ∀ n,
    match its.foldlM (readItem (stringAt mem f)) (c, so) with
    | some (c', _) => loop (unflattenTurn mem false f) .EFAULT (n + its.length) ⟨dt, c⟩
        = loop (unflattenTurn mem false f) .EFAULT n ⟨dt + (itemsBytes so its).length, c'⟩
    | none => ∃ e, loop (unflattenTurn mem false f) .EFAULT (n + its.length) ⟨dt, c⟩ = .error e := by
  intro its
  induction its with
  | nil => exact fun _ _ => rfl
  | cons it its ih =>
    intro dt so c h n
    have hturn := turn_reads h.head c
    rw [foldlM_cons, length_cons, ← Nat.add_assoc, loop, itemsBytes_cons_length, ← Nat.add_assoc]
    cases hitem : readItem (stringAt mem f) (c, so) it with
    | none =>
      rw [hitem] at hturn
      obtain ⟨e, hturn⟩ := hturn
      rw [hturn]
      exact ⟨e, rfl⟩
    | some cso =>
      obtain ⟨c₁, so₁⟩ := cso
      rw [hitem] at hturn
      obtain rfl := readItem_so hitem
      rw [show unflattenTurn mem false f ⟨dt, c⟩ = _ from hturn]
      exact ih h.tail n

/-! ## Trees -/

/-- Properties under the names that are read for them, … -/
def renamedProps (read : Nat → Option Bytes) : Nat → List Property → Option (List Property)
  | _, [] => some []
  | so, p :: ps =>
    (read so).bind fun name =>
      (renamedProps read (so + (p.name.length + 1)) ps).map (.owned name p.value :: ·)

/-- The phandle of a node with these properties: the last one of four bytes says it. -/
def readPhandle (ps : List Property) : Nat := ps.foldl takePhandle 0

mutual

/-- … in a node, … -/
def Node.renamed (read : Nat → Option Bytes) : Nat → Node → Option Node
  | so, .mk name full _ props children =>
    (renamedProps read so props).bind fun props' =>
      (renamedAll read (so + namesSize (props.map .property)) children).map fun children' =>
        .mk name full (readPhandle props') props' children'

/-- … and in all its children. -/
def renamedAll (read : Nat → Option Bytes) : Nat → List Node → Option (List Node)
  | _, [] => some []
  | so, n :: ns =>
    (n.renamed read so).bind fun n' =>
      (renamedAll read (so + namesSize n.items) ns).map (n' :: ·)

end

/-- A property made by `of_new_property`. -/
def Property.Built (p : Property) : Prop :=
  p = .owned p.name p.value ∧ (0 : UInt8) ∉ p.name ∧ p.name.length ≤ 1023 ∧
    p.value.length < 2 ^ 31

mutual

/-- A node made by `of_new_node` below one of name `parent`, with all that is
below it. -/
def Node.BuiltUnder (parent : Bytes) : Node → Prop
  | .mk name full _ props children =>
    name ≠ [] ∧ ((0 : UInt8) ∉ name ∧ name.length ≤ 1023) ∧ full = parent ++ cstr "/" ++ name ∧
      (∀ p ∈ props, p.Built) ∧ BuiltAllUnder full children

def BuiltAllUnder (parent : Bytes) : List Node → Prop
  | [] => True
  | n :: ns => n.BuiltUnder parent ∧ BuiltAllUnder parent ns

end

/-- A whole tree. -/
structure Node.Built (root : Node) : Prop where
  name : root.name = []
  fullName : root.fullName = []
  props : ∀ p ∈ root.props, p.Built
  children : BuiltAllUnder [] root.children

mutual

/-- Every node has the phandle that its properties say, … -/
def Node.Numbered : Node → Prop
  | .mk _ _ phandle props children => phandle = readPhandle props ∧ NumberedAll children

def NumberedAll : List Node → Prop
  | [] => True
  | n :: ns => n.Numbered ∧ NumberedAll ns

end

theorem numberedAll_append (ns ns' : List Node) :
    NumberedAll (ns ++ ns') ↔ NumberedAll ns ∧ NumberedAll ns' := by
  induction ns with
  | nil => exact (and_iff_right trivial).symm
  | cons n ns ih => rw [cons_append, NumberedAll, NumberedAll, ih, and_assoc]

mutual

/-- The names of a tree that was built are short enough, entry by entry. -/
theorem Node.BuiltUnder.sized : ∀ {n : Node} {parent : Bytes}, n.BuiltUnder parent →
    ∀ it ∈ n.items, it.Sized
  | .mk name full phandle props children, parent, ⟨_, hname, _, hprops, hchildren⟩, it, hit => by
    rw [Node.items, mem_cons, mem_append, mem_append, mem_singleton] at hit
    rcases hit with rfl | hit | hit | rfl
    · exact hname
    · obtain ⟨p, hp, rfl⟩ := mem_map.mp hit
      exact hprops p hp
    · exact BuiltAllUnder.sized hchildren it hit
    · trivial

theorem BuiltAllUnder.sized : ∀ {ns : List Node} {parent : Bytes}, BuiltAllUnder parent ns →
    ∀ it ∈ itemsAll ns, it.Sized
  | [], _, _, _, hit => nomatch hit
  | n :: ns, parent, ⟨hn, hns⟩, it, hit => by
    rw [itemsAll, mem_append] at hit
    rcases hit with hit | hit
    · exact hn.sized it hit
    · exact BuiltAllUnder.sized hns it hit

end

section

variable (read : Nat → Option Bytes)

def Node.addChildren (np : Node) (ns : List Node) : Node :=
  .mk np.name np.fullName np.phandle np.props (np.children ++ ns)

def Node.addProps (np : Node) (ps : List Property) : Node :=
  .mk np.name np.fullName (ps.foldl takePhandle np.phandle) (np.props ++ ps) np.children

/-- Reading the properties of a node, with whatever names the strings block has for them, … -/
theorem readProps (parents : List Node) (ps : List Property) (node : Node) (so : Nat) :
    (ps.map Item.property).foldlM (readItem read) (.inside node parents, so)
      = (renamedProps read so ps).map fun ps' =>
          (.inside (node.addProps ps') parents,
            so + namesSize (ps.map .property)) := by
  induction ps generalizing node so with
  | nil =>
    cases node with
    | mk name full phandle props children =>
      show some _ = some (Cursor.inside (.mk name full phandle (props ++ []) children) parents, so + 0)
      rw [append_nil]
      rfl
  | cons p ps ih =>
    rw [map_cons, foldlM_cons, readItem, renamedProps]
    cases read so with
    | none => rfl
    | some name =>
      show (ps.map Item.property).foldlM (readItem read) _ = _
      rw [ih, Option.bind_some, Option.map_map]
      congr 1
      funext ps'
      show (Cursor.inside (.mk _ _ _ (node.props ++ [_] ++ ps') _) parents, _) = _
      rw [append_assoc, Nat.add_assoc]
      rfl

mutual

/-- The entries of a node are read as the node, under the names there are. -/
theorem readNode : ∀ (n : Node) (node : Node) (parents : List Node) (so : Nat),
    n.BuiltUnder node.fullName → n.items.foldlM (readItem read) (.inside node parents, so)
      = (n.renamed read so).map fun n' =>
          (.inside (node.addChild n') parents, so + namesSize n.items)
  | .mk name full phandle props children, node, parents, so, ⟨hname, _, hfull, _, hchildren⟩ => by
    rw [hfull] at hchildren
    rw [Node.items, foldlM_cons, readItem, if_neg hname]
    show (_ : List Item).foldlM (readItem read) _ = _
    rw [foldlM_append, readProps read, Node.renamed]
    cases renamedProps read so props with
    | none => rfl
    | some ps =>
      show (itemsAll children ++ [Item.closeNode]).foldlM (readItem read)
        (.inside ((ofNewNode node name).addProps ps) (node :: parents), _) = _
      rw [foldlM_append,
        readAll children ((ofNewNode node name).addProps ps) (node :: parents) _ hchildren,
        Option.bind_some]
      cases renamedAll read (so + namesSize (props.map .property)) children with
      | none => rfl
      | some ns =>
        rw [hfull, namesSize_node, ← Nat.add_assoc]
        rfl

/-- … and its children, by recursion along the tree. -/
theorem readAll : ∀ (ns : List Node) (node : Node) (parents : List Node) (so : Nat),
    BuiltAllUnder node.fullName ns → (itemsAll ns).foldlM (readItem read) (.inside node parents, so)
      = (renamedAll read so ns).map fun ns' =>
          (.inside (node.addChildren ns') parents, so + namesSize (itemsAll ns))
  | [], node, parents, so, _ => by
    cases node with
    | mk name full phandle props children =>
      show some _ = some (Cursor.inside (.mk name full phandle props (children ++ [])) parents, so + 0)
      rw [append_nil]
      rfl
  | n :: ns, node, parents, so, ⟨hn, hns⟩ => by
    rw [itemsAll, foldlM_append, readNode n node parents so hn, renamedAll, namesSize_append]
    cases n.renamed read so with
    | none => rfl
    | some n' =>
      show (itemsAll ns).foldlM (readItem read) _ = _
      rw [readAll ns (node.addChild n') parents _ hns, Option.bind_some, Option.map_map]
      congr 1
      funext ns'
      show (Cursor.inside (.mk _ _ _ _ (node.children ++ [n'] ++ ns')) parents, _) = _
      rw [append_assoc, Nat.add_assoc]
      rfl

end

/-- Every name is read as it was. -/
def Named : Nat → List Item → Prop
  | _, [] => True
  | so, it :: its => (∀ p, it = .property p → read so = some p.name) ∧ Named (so + it.nameSize) its

theorem named_append : ∀ (l₁ l₂ : List Item) (so : Nat),
    Named read so (l₁ ++ l₂) ↔ Named read so l₁ ∧ Named read (so + namesSize l₁) l₂ := by
  intro l₁ l₂
  induction l₁ with
  | nil => exact fun so => ⟨fun h => ⟨trivial, h⟩, fun h => h.2⟩
  | cons it l₁ ih =>
    intro so
    rw [cons_append, Named, Named, ih, namesSize_cons, Nat.add_assoc, and_assoc]

/-- Properties are read back just if the strings block has their names there. -/
theorem renamedProps_iff (ps : List Property) (so : Nat) (hps : ∀ p ∈ ps, p.Built) :
    (renamedProps read so ps = some ps ↔ Named read so (ps.map .property)) := by
  induction ps generalizing so with
  | nil => exact ⟨fun _ => trivial, fun _ => rfl⟩
  | cons p ps ih =>
    have hp := (hps p (.head _)).1
    have ih := ih (so + (p.name.length + 1)) fun q hq => hps q (.tail _ hq)
    rw [map_cons, renamedProps, Option.bind_eq_some_iff]
    constructor
    · intro ⟨name, hread, hrest⟩
      obtain ⟨ps', hps', heq⟩ := Option.map_eq_some_iff.mp hrest
      obtain ⟨hname, rfl⟩ := List.cons.inj heq
      refine ⟨fun q hq => ?_, ih.mp hps'⟩
      cases hq
      rw [hread, ← hname]
      rfl
    · intro ⟨hread, hnamed⟩
      refine ⟨p.name, hread p rfl, ?_⟩
      rw [ih.mpr hnamed, ← hp]
      rfl

mutual

/-- A node is read back just if all names are, and every phandle is the one in the properties. -/
theorem renamed_iff : ∀ (n : Node) {parent : Bytes} (so : Nat), n.BuiltUnder parent →
    (n.renamed read so = some n ↔ Named read so n.items ∧ n.Numbered)
  | .mk name full phandle props children, parent, so, ⟨_, _, _, hprops, hchildren⟩ => by
    have hps := renamedProps_iff read props so hprops
    have hns := renamedAll_iff children (so + namesSize (props.map .property)) hchildren
    rw [Node.items, Named, named_append, named_append, Node.renamed, Option.bind_eq_some_iff]
    constructor
    · intro ⟨ps', hps', hrest⟩
      obtain ⟨ns', hns', heq⟩ := Option.map_eq_some_iff.mp hrest
      cases heq
      obtain ⟨hnamed, hnumbered⟩ := hns.mp hns'
      exact ⟨⟨nofun, hps.mp hps', hnamed, nofun, trivial⟩, rfl, hnumbered⟩
    · intro ⟨⟨_, hnamed, hnamedAll, _⟩, hphandle, hnumbered⟩
      refine ⟨props, hps.mpr hnamed, ?_⟩
      rw [hns.mpr ⟨hnamedAll, hnumbered⟩, hphandle]
      rfl

theorem renamedAll_iff : ∀ (ns : List Node) {parent : Bytes} (so : Nat), BuiltAllUnder parent ns →
    (renamedAll read so ns = some ns ↔ Named read so (itemsAll ns) ∧ NumberedAll ns)
  | [], _, _, _ => ⟨fun _ => ⟨trivial, trivial⟩, fun _ => rfl⟩
  | n :: ns, parent, so, ⟨hn, hns⟩ => by
    have hn := renamed_iff n so hn
    have hns := renamedAll_iff ns (so + namesSize n.items) hns
    rw [itemsAll, named_append, renamedAll, Option.bind_eq_some_iff]
    constructor
    · intro ⟨n', hn', hrest⟩
      obtain ⟨ns', hns', heq⟩ := Option.map_eq_some_iff.mp hrest
      cases heq
      obtain ⟨hnamed, hnumbered⟩ := hn.mp hn'
      obtain ⟨hnamedAll, hnumberedAll⟩ := hns.mp hns'
      exact ⟨⟨hnamed, hnamedAll⟩, hnumbered, hnumberedAll⟩
    · intro ⟨⟨hnamed, hnamedAll⟩, hnumbered, hnumberedAll⟩
      refine ⟨n, hn.mpr ⟨hnamed, hnumbered⟩, ?_⟩
      rw [hns.mpr ⟨hnamedAll, hnumberedAll⟩]
      rfl

end

/-- Nodes keep their names. -/
theorem renamed_name {n n' : Node} (h : n.renamed read so = some n') : n'.name = n.name := by
  cases n with
  | mk name full props children =>
    obtain ⟨ps, -, h⟩ := Option.bind_eq_some_iff.mp h
    obtain ⟨ns, -, rfl⟩ := Option.map_eq_some_iff.mp h
    rfl

theorem renamedAll_names : ∀ {ns ns' : List Node} {so : Nat}, renamedAll read so ns = some ns' →
    ns'.map Node.name = ns.map Node.name
  | [], ns', so, h => by
    cases h
    rfl
  | n :: ns, ns', so, h => by
    rw [renamedAll] at h
    obtain ⟨n', hn', h⟩ := Option.bind_eq_some_iff.mp h
    obtain ⟨ns'', hns', rfl⟩ := Option.map_eq_some_iff.mp h
    rw [map_cons, map_cons, renamed_name read hn', renamedAll_names hns']

end

end Barebox.Of
