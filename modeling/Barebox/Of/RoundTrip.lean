import Barebox.Of.Reading

/-!
# Flattening and unflattening — `drivers/of/fdt.c`

`of_unflatten_dtb` of what `of_flatten_dtb` returns. Whether that is the
tree again depends on three things, and `flatten_unflatten_iff` is that it
depends on nothing else:

* there is room for every entry (`Fits`);
* the memory that the strings have grown into happens to be zero where a
  name ends (`NamesEnd`);
* the reserved memory is the first child of the root, and looks as
  `of_unflatten_reservemap` makes it (`reserveNodes`).

The phandle of a node is not kept apart from the properties: unflattening
takes it from them.
-/

namespace Barebox.Of

open Lib List

/-- Every name is followed by a NUL. -/
def NamesEnd (heap : Nat → UInt8) : Nat → List Item → Prop
  | _, [] => True
  | so, it :: its =>
    (∀ p, it = .property p → background heap (so + p.name.length) = 0) ∧
      NamesEnd heap (so + it.nameSize) its

/-- There is room for every entry, and for the strings behind them. -/
def Fits (root : Node) : Prop :=
  ∃ r, root.rootItems.foldlM Room.step Room.start = some r ∧ r.dtNext + 4 + r.strNext < 2 ^ 32

/-- The map of reserved memory in the blob. -/
def reserveMap (root : Node) : Bytes :=
  reserveEntries root
    ++ replicate (16 * ofMaxReserveMap - (reserveEntries root).length) 0

/-- The node `of_unflatten_reservemap` makes, … -/
def memreserveNode (reg : Bytes) : Node :=
  (ofNewNode ofNewRoot (cstr "memreserve")).setProps
    [.owned (cstr "#address-cells") (beBytes 4 2), .owned (cstr "#size-cells") (beBytes 4 2),
      .owned (cstr "reg") reg]

/-- … if there are entries in front of the first one of size zero. -/
def reserveNodes (map : Bytes) : List Node :=
  match reservemapNumEntries map 0 ofMaxReserveMap 0 with
  | .error _ => []
  | .ok 0 => []
  | .ok n => [memreserveNode (slice 0 (16 * n) map)]

/-- The tree is flattened, and unflattened to the same tree. -/
def RoundTrips (heap : Nat → UInt8) (tree : Node) : Prop :=
  ∃ dt size, ofFlattenDtb heap tree = .ok dt ∧ be32At dt 4 = some size ∧
    ofUnflattenDtb dt size = .ok tree

/-! ## The blob -/

/-- What is returned, for buffers of size `r`. -/
def blob (heap : Nat → UInt8) (root : Node) (r : Room) : Bytes :=
  headerBytes (r.dtNext + 4) r.strNext ++ (reserveMap root ++ (itemsBytes 0 root.rootItems
    ++ (beBytes 4 9 ++ (itemsNames heap 0 root.rootItems
      ++ replicate (r.dtSize - (r.dtNext + 4 + r.strNext)) 0))))

theorem headerBytes_length (next str : Nat) : (headerBytes next str).length = 40 := by
  simp only [headerBytes, length_append, beBytes_length]

/-- A write over bytes of the same length. -/
theorem put_replace {off : Nat} {a b c : Bytes} (d : Bytes) (ha : a.length = off)
    (hb : c.length = b.length) : put off b (a ++ (c ++ d)) = .ok (a ++ (b ++ d)) := by
  unfold put
  rw [if_pos (by rw [length_append, length_append]; omega), overwrite_append _ _ ha,
    ← hb, drop_left, append_assoc]

variable {next str : Nat} {mem post : Bytes}

/-- The buffer of the structure block gets room for the strings behind it, unless the sum wraps.
-/
theorem ensureTail_eq {w : Bytes} {size : Nat} (hw : w.length = next) (hle : next ≤ size) (hlt : size < 2 ^ 32) :
    ensureTail (w ++ replicate (size - next) 0) next str
      = if next + str < 2 ^ 32
        then .ok (w ++ replicate (str + (size - (next + str))) 0)
        else .error .EFAULT := by
  have hlen : (w ++ replicate (size - next) 0).length = size := by
    rw [length_append, length_replicate]
    omega
  unfold ensureTail memalignRealloc
  rw [hlen, sub32_eq hle hlt]
  split
  next hshort =>
    by_cases hfit : next + str < 2 ^ 32
    · rw [if_pos hfit, if_pos hfit, append_assoc, replicate_append_replicate]
      congr 3
      omega
    · rw [if_neg hfit, if_neg hfit]
  next hshort =>
  rw [if_pos (by omega)]
  congr 3
  omega

variable {heap : Nat → UInt8} {root : Node} {r : Room}

theorem Node.rootItems_concat : ∃ its, root.rootItems = its ++ [.closeNode] := by
  refine ⟨.openNode root.name :: (root.props.map .property ++ itemsAll root.plainChildren), ?_⟩
  unfold Node.rootItems
  rw [cons_append, append_assoc]

theorem BuiltAllUnder.filter {parent : Bytes} (q : Node → Bool) : ∀ {ns : List Node},
    BuiltAllUnder parent ns → BuiltAllUnder parent (ns.filter q)
  | [], _ => trivial
  | n :: ns, ⟨hn, hns⟩ => by
    by_cases hq : q n = true
    · rw [filter_cons_of_pos hq]
      exact ⟨hn, BuiltAllUnder.filter q hns⟩
    · rw [filter_cons_of_neg hq]
      exact BuiltAllUnder.filter q hns

/-- Names of a tree that was built fit the buffers that `lstrcpy` writes to. -/
theorem Node.Built.sized (hb : root.Built) : ∀ it ∈ root.rootItems, it.Sized := by
  intro it hit
  rw [Node.rootItems, mem_cons, mem_append, mem_append, mem_singleton] at hit
  rcases hit with rfl | hit | hit | rfl
  · rw [hb.name]
    exact ⟨not_mem_nil, by decide⟩
  · obtain ⟨p, hp, rfl⟩ := mem_map.mp hit
    exact hb.props p hp
  · exact BuiltAllUnder.sized (hb.children.filter _) it hit
  · trivial

/-- The last entry leaves room for `FDT_END`. -/
theorem rootItems_room (hfold : root.rootItems.foldlM Room.step Room.start = some r) :
    r.dtNext + 4 ≤ r.dtSize := by
  obtain ⟨its, hits⟩ := root.rootItems_concat
  rw [hits, foldlM_append] at hfold
  obtain ⟨r₁, -, hlast⟩ := Option.bind_eq_some_iff.mp hfold
  obtain ⟨r', hstep, hnil⟩ := Option.bind_eq_some_iff.mp hlast
  cases hnil
  obtain ⟨r₂, hfill, hens⟩ := Option.bind_eq_some_iff.mp hstep
  unfold Room.fill at hfill
  split at hfill
  case isFalse => cases hfill
  case isTrue hle =>
    cases hfill
    unfold Room.ensure at hens
    split at hens
    · next hdt =>
      cases hens
      have hdt := grow_some hdt
      have hsize : Item.closeNode.size = 4 := rfl
      dsimp only at hdt ⊢
      omega
    · cases hens

/-- Either the room is enough for every entry and the blocks hold what is expected, or an entry
goes beyond its buffer. -/
theorem Node.Built.flattened (hb : root.Built) (heap : Nat → UInt8) :
    match root.rootItems.foldlM Room.step Room.start with
    | some r => ∃ fdt, root.rootItems.foldlM (flattenItem heap) fdtStart = .ok fdt ∧
        Holds heap fdt r (replicate offDtStruct 0 ++ itemsBytes 0 root.rootItems)
          (itemsNames heap 0 root.rootItems)
    | none => root.rootItems.foldlM (flattenItem heap) fdtStart = .error .EFAULT := by
  refine Holds.start.items hb.sized fun it hit => ?_
  obtain ⟨its, hits⟩ := root.rootItems_concat
  rw [hits, getLast?_concat] at hit
  exact (Option.some.inj hit).symm

theorem flatten_none (hb : root.Built) (hfold : root.rootItems.foldlM Room.step Room.start = none) :
    ofFlattenDtb heap root = .error .EFAULT := by
  have hflat := hb.flattened heap
  rw [hfold] at hflat
  unfold ofFlattenDtb
  rw [flattenNode_rootItems, hflat]
  rfl

/-- With enough room it returns the blob, if the sizes do not wrap. -/
theorem flatten_some (hb : root.Built) (hreserve : (reserveEntries root).length ≤ 240)
    (hfold : root.rootItems.foldlM Room.step Room.start = some r) : ofFlattenDtb heap root
      = if r.dtNext + 4 + r.strNext < 2 ^ 32 then .ok (blob heap root r) else .error .EFAULT := by
  have hflat := hb.flattened heap
  rw [hfold] at hflat
  obtain ⟨fdt, hfdt, h⟩ := hflat
  have hroom := rootItems_room hfold
  have hmax : 16 * ofMaxReserveMap = 256 := rfl
  have hmap : replicate offDtStruct (0 : UInt8)
      = replicate 40 0 ++ (replicate (reserveEntries root).length 0
        ++ replicate (16 * ofMaxReserveMap - (reserveEntries root).length) 0) := by
    rw [replicate_append_replicate, replicate_append_replicate,
      show offDtStruct = 40 + 16 * ofMaxReserveMap from rfl]
    exact congrArg (replicate · 0) (by omega)
  have hdt : fdt.dt = replicate 40 0 ++ (replicate (reserveEntries root).length 0
      ++ (replicate (16 * ofMaxReserveMap - (reserveEntries root).length) 0
        ++ (itemsBytes 0 root.rootItems ++ replicate (r.dtSize - r.dtNext) 0))) := by
    rw [h.dt, hmap]
    simp only [append_assoc]
  -- the map, …
  have hput₁ : put offMemRsvmap (reserveEntries root) fdt.dt
      = .ok (replicate 40 0 ++ (reserveMap root ++ itemsBytes 0 root.rootItems)
          ++ replicate (r.dtSize - r.dtNext) 0) := by
    rw [hdt, show offMemRsvmap = 40 from rfl,
      put_replace _ length_replicate length_replicate]
    unfold reserveMap
    simp only [append_assoc]
  have hlen : (replicate 40 (0 : UInt8)
      ++ (reserveMap root ++ itemsBytes 0 root.rootItems)).length = r.dtNext := by
    have hw := h.w_length
    unfold reserveMap
    rw [length_append, length_replicate,
      show offDtStruct = 40 + 16 * ofMaxReserveMap from rfl] at hw
    simp only [length_append, length_replicate]
    omega
  generalize hw : replicate 40 0 ++ (reserveMap root ++ itemsBytes 0 root.rootItems) = w at hput₁ hlen
  -- … the end of the tags, …
  have hput₂ := put_zeros (b := beBytes 4 9) (n := r.dtSize - r.dtNext) hlen (by rw [beBytes_length]; omega)
  rw [beBytes_length, Nat.sub_sub] at hput₂
  have hlen₂ : (w ++ beBytes 4 9).length = r.dtNext + 4 := by
    rw [length_append, hlen, beBytes_length]
  have hnext : dtNextOfs r.dtNext 4 = r.dtNext + 4 := by
    have hround : roundup 4 4 = 4 := rfl
    have hlt : r.dtNext + 4 < 2 ^ 32 := Nat.lt_of_le_of_lt hroom h.ok.dt_lt
    rw [dtNextOfs_eq h.ok.next_mod (by rw [hround]; exact hlt), hround]
  have hnames : fdt.strings.take r.strNext = itemsNames heap 0 root.rootItems := by
    rw [h.strings, ← h.sw_length, take_left]
  unfold ofFlattenDtb
  rw [flattenNode_rootItems, hfdt, ok_bind, hput₁, ok_bind, h.dtNext, hput₂, ok_bind, h.strNext,
    hnext, hnames]
  dsimp only
  rw [ensureTail_eq hlen₂ hroom h.ok.dt_lt]
  by_cases hfit : r.dtNext + 4 + r.strNext < 2 ^ 32
  · -- … the strings, and the header in front
    have hput₃ := put_zeros
      (n := r.strNext + (r.dtSize - (r.dtNext + 4 + r.strNext))) hlen₂
      (by rw [h.sw_length]; exact Nat.le_add_right _ _)
    rw [h.sw_length, Nat.add_sub_cancel_left] at hput₃
    rw [if_pos hfit, if_pos hfit, ok_bind, hput₃]
    have hput₄ := put_replace (a := []) (b := headerBytes (r.dtNext + 4) r.strNext)
      (c := replicate 40 0) (reserveMap root ++ (itemsBytes 0 root.rootItems
        ++ (beBytes 4 9 ++ (itemsNames heap 0 root.rootItems
          ++ replicate (r.dtSize - (r.dtNext + 4 + r.strNext)) 0)))) rfl
      (by rw [length_replicate, headerBytes_length])
    simp only [← hw, append_assoc]
    exact hput₄
  · rw [if_neg hfit, if_neg hfit]
    rfl

/-! ## The header -/

theorem words_length (l : List Nat) : (l.map (beBytes 4)).flatten.length = 4 * l.length := by
  induction l with
  | nil => rfl
  | cons n l ih =>
    rw [map_cons, flatten_cons, length_append, beBytes_length, length_cons]
    omega

variable {n i so : Nat}

/-- A word in a row of words. -/
theorem be32At_words {l : List Nat} (post : Bytes) (hi : l[i]? = some n)
    (hn : n < 2 ^ 32) : be32At ((l.map (beBytes 4)).flatten ++ post) (4 * i) = some n := by
  obtain ⟨hlt, hget⟩ := List.getElem?_eq_some_iff.mp hi
  have hsplit : l = l.take i ++ n :: l.drop (i + 1) := by
    rw [← hget, ← drop_eq_getElem_cons hlt, take_append_drop]
  rw [hsplit, map_append, map_cons, flatten_append, append_assoc]
  refine be32At_append _ ?_ hn
  rw [words_length, length_take]
  omega

/-- The words of the header. -/
def headerWords (next str : Nat) : List Nat :=
  [fdtMagic, next + str, offDtStruct, next, offMemRsvmap, 0x11, 0x10, 0, str, next - offDtStruct]

/-- The header of the blob. -/
def blobHeader (next str : Nat) : FdtHeader :=
  ⟨next + str, offDtStruct, next - offDtStruct, next, str⟩

theorem headerWords_lt (hfit : next + str < 2 ^ 32) : ∀ n ∈ headerWords next str, n < 2 ^ 32 := by
  unfold headerWords
  simp only [forall_mem_cons]
  exact ⟨by decide, hfit, by decide, by omega, by decide, by decide, by decide, by decide, by omega,
    by omega, nofun⟩

theorem be32At_header (post : Bytes) (hfit : next + str < 2 ^ 32)
    (hi : (headerWords next str)[i]? = some n) : be32At (headerBytes next str ++ post) (4 * i) = some n := by
  exact be32At_words post hi (headerWords_lt hfit n (mem_of_getElem? hi))

theorem fdtHeader_blob (post : Bytes) (hfit : next + str < 2 ^ 32) :
    fdtHeader (headerBytes next str ++ post) = some (blobHeader next str) := by
  unfold fdtHeader
  rw [be32At_header (i := 1) post hfit rfl, be32At_header (i := 9) post hfit rfl, be32At_header (i := 3) post hfit rfl,
    be32At_header (i := 8) post hfit rfl]
  rfl

/-- The header is accepted. -/
theorem ofUnflattenDtb_blob (hmem : mem = headerBytes next str ++ post) (hge : offDtStruct ≤ next)
    (hfit : next + str < 2 ^ 32) : ofUnflattenDtb mem (next + str)
      = match ofUnflattenReservemap ofNewRoot mem with
        | .error e => .error e
        | .ok root =>
          loop (unflattenTurn mem false (blobHeader next str)) .EFAULT (mem.length + 1)
            ⟨offDtStruct, .outside root⟩ := by
  have hoff : 296 ≤ next := hge
  have hmagic : be32At mem 0 = some fdtMagic := hmem ▸ be32At_header (i := 0) post hfit rfl
  have hversion : be32At mem 20 = some 17 := hmem ▸ be32At_header (i := 5) post hfit rfl
  have hheader : fdtHeader mem = some (blobHeader next str) := hmem ▸ fdtHeader_blob post hfit
  have htotal : (blobHeader next str).totalsize = next + str := rfl
  have hend : (blobHeader next str).structEnd = next := by
    show (296 + (next - 296)) % 2 ^ 32 = next
    omega
  have hstrings : ¬ ((blobHeader next str).offDtStrings + (blobHeader next str).sizeDtStrings)
      % 2 ^ 32 > next + str := by
    simp only [blobHeader]
    omega
  unfold ofUnflattenDtb ofUnflatten ofUnflattenFor
  rw [if_neg (show ¬ next + str < sizeofFdtHeader by unfold sizeofFdtHeader; omega), hmagic,
    hversion, hheader]
  dsimp only
  rw [hend, htotal,
    if_neg (Nat.lt_irrefl _), if_neg (show ¬ next > next + str by omega)]
  exact if_neg hstrings

/-! ## The map of reserved memory -/

/-- Counting the entries depends on the map alone. -/
theorem reservemapNumEntries_shift {pre map : Bytes} (hmem : mem = pre ++ (map ++ post)) {k : Nat}
    (hle : 16 * (n + k) ≤ map.length) :
      reservemapNumEntries mem pre.length k n = reservemapNumEntries map 0 k n := by
  induction k generalizing n with
  | zero => rfl
  | succ k ih =>
    have hlen : mem.length = pre.length + (map.length + post.length) := by
      rw [hmem, length_append, length_append]
    have hslice : slice (pre.length + 16 * n + 8) 8 mem = slice (0 + 16 * n + 8) 8 map := by
      rw [hmem, slice_append_right _ (by omega), slice_append_left _ (by omega)]
      congr 1
      omega
    unfold reservemapNumEntries
    rw [if_pos (show pre.length + 16 * n + 16 ≤ mem.length by omega),
      if_pos (show 0 + 16 * n + 16 ≤ map.length by omega), hslice, ih (by omega)]

section

variable (hreserve : (reserveEntries root).length ≤ 240)
include hreserve

theorem reserveMap_length : (reserveMap root).length = 256 := by
  unfold reserveMap
  rw [length_append, length_replicate, show 16 * ofMaxReserveMap = 256 from rfl]
  omega

/-- With at most 15 entries the map has an end. -/
theorem reserveMap_ends :
    ∃ n < 0 + ofMaxReserveMap, reservemapNumEntries (reserveMap root) 0 ofMaxReserveMap 0 = .ok n := by
  have hlen := reserveMap_length hreserve
  refine reservemapNumEntries_ok ⟨15, by decide, Nat.le_of_eq hlen.symm, ?_⟩
  have hzeros : slice (0 + 16 * 15 + 8) 8 (reserveMap root) = replicate 8 0 := by
    unfold reserveMap slice
    rw [drop_append, drop_eq_nil_of_le (by omega), nil_append, drop_replicate,
      take_replicate, show 16 * ofMaxReserveMap = 256 from rfl]
    exact congrArg (replicate · 0) (by omega)
  rw [hzeros]
  decide

/-- The memory reservations become children of the root, as they were. -/
theorem ofUnflattenReservemap_blob (hfit : next + str < 2 ^ 32)
    (hmem : mem = headerBytes next str ++ (reserveMap root ++ post)) :
    ofUnflattenReservemap ofNewRoot mem = .ok (.mk [] [] 0 [] (reserveNodes (reserveMap root))) := by
  have hoff : be32At mem 16 = some (headerBytes next str).length := by
    rw [hmem]
    exact be32At_header (i := 4) _ hfit rfl
  have hlen := reserveMap_length hreserve
  obtain ⟨n, hlt, hn⟩ := reserveMap_ends hreserve
  unfold ofUnflattenReservemap reserveNodes
  rw [hoff]
  dsimp only
  rw [reservemapNumEntries_shift hmem (by rw [hlen]; decide), hn]
  cases n with
  | zero => rfl
  | succ n =>
    have hslice : slice (headerBytes next str).length (16 * (n + 1)) mem
        = slice 0 (16 * (n + 1)) (reserveMap root) := by
      rw [hmem, slice_append_right _ (Nat.le_refl _), Nat.sub_self, slice_append_left]
      have hlt : n + 1 < 0 + 16 := hlt
      omega
    show Except.ok (ofNewRoot.addChild (memreserveNode _)) = _
    rw [hslice]
    rfl

end

/-! ## The strings -/

/-- A name is read as it was if and only if a NUL follows it. -/
theorem named_iff_namesEnd {f : FdtHeader} {its : List Item} (hsized : ∀ it ∈ its, it.Sized)
    (hle : so + namesSize its ≤ f.sizeDtStrings)
    (hmem : ∃ pre post, mem = pre ++ (itemsNames heap so its ++ post) ∧ pre.length = f.offDtStrings + so) :
    (Named (stringAt mem f) so its ↔ NamesEnd heap so its) := by
  induction its generalizing so with
  | nil => exact Iff.rfl
  | cons it its ih =>
    obtain ⟨pre, post, hmem, hpre⟩ := hmem
    rw [namesSize_cons] at hle
    have ih := @ih (so + it.nameSize) (fun it hit => hsized it (.tail _ hit)) (by omega)
      ⟨pre ++ it.nameBytes heap so, post, by
        rw [hmem, itemsNames, append_assoc, append_assoc],
        by rw [length_append, Item.nameBytes_length, hpre, Nat.add_assoc]⟩
    rw [Named, ih]
    refine and_congr_left fun _ => ?_
    refine forall_congr' fun p => ?_
    refine forall_congr' fun hp => ?_
    cases hp
    obtain ⟨-, hzero, -⟩ := hsized _ (.head _)
    have hstring : stringAt mem f so = cstringAt mem (f.offDtStrings + so) := by
      unfold stringAt dtString
      rw [if_neg (by omega), Option.bind_some]
    rw [hstring, hmem, itemsNames, Item.nameBytes, append_assoc, append_assoc]
    exact cstringAt_append_iff _ hpre hzero

/-! ## The tree -/

/-- The entries of the whole tree, for reserved memory that is already
there. -/
theorem readRoot (read : Nat → Option Bytes) (reserve : List Node) (hb : root.Built) :
    root.rootItems.foldlM (readItem read) (.outside (.mk [] [] 0 [] reserve), 0)
      = (renamedProps read 0 root.props).bind fun ps =>
          (renamedAll read (namesSize (root.props.map .property)) root.plainChildren).map fun ns =>
            (.outside (.mk [] [] (readPhandle ps) ps (reserve ++ ns)), namesSize root.rootItems) := by
  rw [Node.rootItems, foldlM_cons, readItem, if_pos hb.name]
  show (_ : List Item).foldlM (readItem read) _ = _
  rw [foldlM_append, readProps read]
  cases renamedProps read 0 root.props with
  | none => rfl
  | some ps =>
    show (itemsAll root.plainChildren ++ [Item.closeNode]).foldlM (readItem read)
      (.inside (.mk [] [] (readPhandle ps) ([] ++ ps) reserve) [], 0 + namesSize (root.props.map .property)) = _
    rw [foldlM_append, Nat.zero_add, readAll read root.plainChildren
      (.mk [] [] (readPhandle ps) ([] ++ ps) reserve) [] _ (hb.children.filter _)]
    cases renamedAll read (namesSize (root.props.map .property)) root.plainChildren with
    | none => rfl
    | some ns =>
      rw [namesSize_node]
      rfl

theorem reserveNodes_name {map : Bytes} : ∀ n ∈ reserveNodes map, n.name = cstr "memreserve" := by
  intro n hn
  unfold reserveNodes at hn
  split at hn
  · cases hn
  · cases hn
  · rw [mem_singleton.mp hn]
    rfl

theorem reserveNodes_numbered {map : Bytes} : NumberedAll (reserveNodes map) := by
  unfold reserveNodes
  split
  · trivial
  · trivial
  · exact ⟨⟨rfl, trivial⟩, trivial⟩

/-- The same tree is read if and only if the names are, the phandles are those
that are read, and the reserved memory comes first. -/
theorem readRoot_iff (read : Nat → Option Bytes) {reserve : List Node} (hb : root.Built)
    (hreserve : ∀ n ∈ reserve, n.name = cstr "memreserve") (hreserved : NumberedAll reserve) :
    ((∃ so, root.rootItems.foldlM (readItem read) (.outside (.mk [] [] 0 [] reserve), 0)
        = some (.outside root, so)) ↔
      Named read 0 root.rootItems ∧ root.Numbered ∧ root.children = reserve ++ root.plainChildren) := by
  have hplain : BuiltAllUnder [] root.plainChildren := hb.children.filter _
  have hps := renamedProps_iff read root.props 0 hb.props
  have hns := renamedAll_iff read root.plainChildren (namesSize (root.props.map .property)) hplain
  have hnamed : Named read 0 root.rootItems ↔ Named read 0 (root.props.map .property) ∧
      Named read (namesSize (root.props.map .property)) (itemsAll root.plainChildren) := by
    rw [Node.rootItems, Named, named_append, named_append]
    rw [show 0 + (Item.openNode root.name).nameSize = 0 from rfl, Nat.zero_add]
    exact ⟨fun h => ⟨h.2.1, h.2.2.1⟩, fun h => ⟨by simp, h.1, h.2, by simp, trivial⟩⟩
  have hnumbered : root.Numbered ↔ root.phandle = readPhandle root.props ∧ NumberedAll root.children := by
    cases root
    exact Iff.rfl
  rw [readRoot read reserve hb, hnamed, hnumbered]
  constructor
  · rintro ⟨so, h⟩
    obtain ⟨ps, hps', h⟩ := Option.bind_eq_some_iff.mp h
    obtain ⟨ns, hns', heq⟩ := Option.map_eq_some_iff.mp h
    have hroot : Node.mk [] [] (readPhandle ps) ps (reserve ++ ns) = root := Cursor.outside.inj (Prod.mk.inj heq).1
    have hps'' : ps = root.props := congrArg Node.props hroot
    have hphandle : readPhandle ps = root.phandle := congrArg Node.phandle hroot
    have hchildren : reserve ++ ns = root.children := congrArg Node.children hroot
    -- nodes keep their names, so that the others are those that are read
    have hnames := renamedAll_names read hns'
    have hns'' : ns = root.plainChildren := by
      have hother : ∀ n ∈ ns, n.name ≠ cstr "memreserve" := by
        intro n hn
        have hmem : n.name ∈ root.plainChildren.map Node.name :=
          hnames ▸ mem_map_of_mem hn
        obtain ⟨m, hm, hname⟩ := mem_map.mp hmem
        rw [← hname]
        exact of_decide_eq_true (mem_filter.mp hm).2
      unfold Node.plainChildren
      rw [← hchildren, filter_append, filter_eq_nil_iff.mpr, nil_append,
        filter_eq_self.mpr]
      · exact fun n hn => decide_eq_true (hother n hn)
      · exact fun n hn => by simp [hreserve n hn]
    rw [hps''] at hps' hphandle
    rw [hns''] at hns' hchildren
    obtain ⟨hnamed, hplainNumbered⟩ := hns.mp hns'
    refine ⟨⟨hps.mp hps', hnamed⟩, ⟨hphandle.symm, ?_⟩, hchildren.symm⟩
    rw [← hchildren, numberedAll_append]
    exact ⟨hreserved, hplainNumbered⟩
  · rintro ⟨⟨h₁, h₂⟩, ⟨hphandle, hall⟩, hchildren⟩
    refine ⟨namesSize root.rootItems, ?_⟩
    have hroot : Node.mk [] [] (readPhandle root.props) root.props root.children = root := by
      rw [← hphandle]
      have hname := hb.name
      have hfull := hb.fullName
      cases root with
      | mk name full phandle props children =>
        cases hname
        cases hfull
        rfl
    have hplainNumbered : NumberedAll root.plainChildren := by
      rw [hchildren, numberedAll_append] at hall
      exact hall.2
    rw [hps.mpr h₁, Option.bind_some, hns.mpr ⟨h₂, hplainNumbered⟩, Option.map_some, ← hchildren, hroot]

/-! ## Both ways -/

/-- Each entry takes a byte at least, so there is enough fuel. -/
theorem length_le_itemsBytes (its : List Item) (so : Nat) : its.length ≤ (itemsBytes so its).length := by
  induction its generalizing so with
  | nil => exact Nat.le_refl _
  | cons it its ih =>
    have hpos : 4 ≤ it.size := by
      cases it with
      | openNode name =>
        have := le_roundup (4 + name.length + 1) (show 0 < 4 by decide)
        simp only [Item.size]
        omega
      | property p =>
        have := le_roundup (12 + p.value.length) (show 0 < 4 by decide)
        simp only [Item.size]
        omega
      | closeNode => exact Nat.le_refl 4
    have := ih (so + it.nameSize)
    rw [itemsBytes_cons_length, length_cons]
    omega

theorem itemsNames_length (its : List Item) : (itemsNames heap so its).length = namesSize its := by
  induction its generalizing so with
  | nil => rfl
  | cons it its ih =>
    rw [itemsNames, length_append, Item.nameBytes_length, ih, namesSize_cons]

/-- A blob with blocks of the sizes in its header. -/
structure BlobSized (root : Node) (r : Room) : Prop where
  reserve : (reserveMap root).length = 256
  dtNext : offDtStruct + (itemsBytes 0 root.rootItems).length = r.dtNext
  strNext : namesSize root.rootItems = r.strNext
  fit : r.dtNext + 4 + r.strNext < 2 ^ 32

/-- The blob is as long as the offsets in its header say. -/
theorem blobSized (hb : root.Built) (hreserve : (reserveEntries root).length ≤ 240)
    (hfold : root.rootItems.foldlM Room.step Room.start = some r)
    (hfit : r.dtNext + 4 + r.strNext < 2 ^ 32) : BlobSized root r := by
  have hflat := hb.flattened fun _ => 0
  rw [hfold] at hflat
  obtain ⟨fdt, -, h⟩ := hflat
  have hdt := h.w_length
  have hstr := h.sw_length
  rw [length_append, length_replicate] at hdt
  rw [itemsNames_length] at hstr
  exact ⟨reserveMap_length hreserve, hdt, hstr, hfit⟩

section

variable (h : BlobSized root r)

include h

theorem BlobSized.structEnd : (blobHeader (r.dtNext + 4) r.strNext).structEnd = r.dtNext + 4 := by
  have hdt := h.dtNext
  have hfit := h.fit
  unfold FdtHeader.structEnd blobHeader
  dsimp only
  omega

/-- The entries, … -/
theorem BlobSized.entries (heap : Nat → UInt8) (hb : root.Built) :
    EntriesAt (blob heap root r) (blobHeader (r.dtNext + 4) r.strNext) offDtStruct 0
      root.rootItems := by
  have hdt := h.dtNext
  have hstr := h.strNext
  have hfit := h.fit
  refine ⟨⟨headerBytes (r.dtNext + 4) r.strNext ++ reserveMap root,
    beBytes 4 9 ++ (itemsNames heap 0 root.rootItems
      ++ replicate (r.dtSize - (r.dtNext + 4 + r.strNext)) 0), ?_, ?_⟩, by decide, ?_, ?_,
    hb.sized⟩
  · unfold blob
    rw [append_assoc]
  · rw [length_append, h.reserve]
    rfl
  · rw [h.structEnd]
    omega
  · omega

/-- … the end behind them, … -/
theorem BlobSized.stop : tagAt (blob heap root r) r.dtNext = some .stop := by
  have hdt := h.dtNext
  have hoff : offDtStruct = 296 := rfl
  have hlen : (headerBytes (r.dtNext + 4) r.strNext ++ (reserveMap root
      ++ itemsBytes 0 root.rootItems)).length = r.dtNext := by
    rw [length_append, length_append, headerBytes_length, h.reserve]
    omega
  have hblob : blob heap root r = headerBytes (r.dtNext + 4) r.strNext ++ (reserveMap root
      ++ itemsBytes 0 root.rootItems) ++ (beBytes 4 9 ++ (itemsNames heap 0 root.rootItems
        ++ replicate (r.dtSize - (r.dtNext + 4 + r.strNext)) 0)) := by
    unfold blob
    simp only [append_assoc]
  unfold tagAt
  rw [hblob, be32At_append _ hlen (by decide)]
  rfl

/-- … and the strings. -/
theorem BlobSized.named (hb : root.Built) :
    Named (stringAt (blob heap root r) (blobHeader (r.dtNext + 4) r.strNext)) 0 root.rootItems ↔
      NamesEnd heap 0 root.rootItems := by
  have hdt := h.dtNext
  have hstr := h.strNext
  have hoff : offDtStruct = 296 := rfl
  refine named_iff_namesEnd hb.sized ?_ ⟨headerBytes (r.dtNext + 4) r.strNext ++ (reserveMap root
    ++ (itemsBytes 0 root.rootItems ++ beBytes 4 9)),
    replicate (r.dtSize - (r.dtNext + 4 + r.strNext)) 0, ?_, ?_⟩
  · show 0 + _ ≤ r.strNext
    omega
  · unfold blob
    simp only [append_assoc]
  · show _ = r.dtNext + 4 + 0
    rw [length_append, length_append, length_append, headerBytes_length, h.reserve,
      beBytes_length]
    omega

/-- What unflattening makes of the blob. -/
theorem BlobSized.unflatten_iff (heap : Nat → UInt8) (hb : root.Built)
    (hreserve : (reserveEntries root).length ≤ 240) :
    (ofUnflattenDtb (blob heap root r) (r.dtNext + 4 + r.strNext) = .ok root ↔
      NamesEnd heap 0 root.rootItems ∧ root.Numbered ∧
        root.children = reserveNodes (reserveMap root) ++ root.plainChildren) := by
  have hentries := h.entries heap hb
  have hturns : root.rootItems.length ≤ (blob heap root r).length := by
    have := length_le_itemsBytes root.rootItems 0
    unfold blob
    simp only [length_append]
    omega
  obtain ⟨n, hn⟩ := Nat.exists_eq_add_of_le' hturns
  have hloop : ofUnflattenDtb (blob heap root r) (r.dtNext + 4 + r.strNext)
      = loop (unflattenTurn (blob heap root r) false (blobHeader (r.dtNext + 4) r.strNext)) .EFAULT
          (n + 1 + root.rootItems.length)
          ⟨offDtStruct, .outside (.mk [] [] 0 [] (reserveNodes (reserveMap root)))⟩ := by
    have hmap := ofUnflattenReservemap_blob hreserve h.fit (show blob heap root r = _ from rfl)
    have hdt := h.dtNext
    rw [ofUnflattenDtb_blob (show blob heap root r = _ from rfl) (by omega) h.fit, hmap, hn,
      Nat.add_right_comm n]
  have hreads := loop_reads (c := .outside (.mk [] [] 0 [] (reserveNodes (reserveMap root)))) hentries (n + 1)
  rw [← h.named hb, ← readRoot_iff _ hb reserveNodes_name reserveNodes_numbered, hloop]
  cases hread : root.rootItems.foldlM (readItem (stringAt (blob heap root r)
      (blobHeader (r.dtNext + 4) r.strNext)))
      (.outside (.mk [] [] 0 [] (reserveNodes (reserveMap root))), 0) with
  | none =>
    rw [hread] at hreads
    obtain ⟨e, herr⟩ := hreads
    rw [herr]
    simp
  | some cso =>
    obtain ⟨c, so⟩ := cso
    rw [hread] at hreads
    have hturn : unflattenTurn (blob heap root r) false (blobHeader (r.dtNext + 4) r.strNext)
        ⟨r.dtNext, c⟩ = .done c.root := unflattenTurn_tag (s := ⟨r.dtNext, c⟩) h.stop
    -- behind the last entry, there is no current node
    have houtside : ∃ t, c = .outside t := by
      rw [readRoot _ _ hb] at hread
      obtain ⟨ps, -, hread⟩ := Option.bind_eq_some_iff.mp hread
      obtain ⟨ns, -, heq⟩ := Option.map_eq_some_iff.mp hread
      exact ⟨_, (Prod.mk.inj heq).1.symm⟩
    obtain ⟨t, rfl⟩ := houtside
    rw [show loop _ _ _ _ = _ from hreads, h.dtNext, loop, hturn]
    constructor
    · intro heq
      have ht : t = root := Except.ok.inj heq
      exact ⟨so, by rw [ht]⟩
    · rintro ⟨so', heq⟩
      have ht : t = root := Cursor.outside.inj (Prod.mk.inj (Option.some.inj heq)).1
      exact congrArg Except.ok ht

end

/-- Flattening and unflattening gives the same tree exactly if there is room
for it, every name happens to be ended, every node has the phandle that its
properties say, and the reserved memory comes first. -/
theorem flatten_unflatten_iff (heap : Nat → UInt8) (tree : Node) (hb : tree.Built)
    (hreserve : (reserveEntries tree).length ≤ 240) : RoundTrips heap tree ↔
      Fits tree ∧ NamesEnd heap 0 tree.rootItems ∧ tree.Numbered ∧
        tree.children = reserveNodes (reserveMap tree) ++ tree.plainChildren := by
  unfold RoundTrips Fits
  cases hfold : tree.rootItems.foldlM Room.step Room.start with
  | none =>
    rw [flatten_none hb hfold]
    exact ⟨(fun ⟨_, _, h, _⟩ => nomatch h), (fun ⟨⟨_, h, _⟩, _⟩ => nomatch h)⟩
  | some r =>
    -- the writer had room; the total has to fit the header as well
    rw [flatten_some hb hreserve hfold]
    by_cases hfit : r.dtNext + 4 + r.strNext < 2 ^ 32
    · have hsized := blobSized hb hreserve hfold hfit
      have hsize : be32At (blob heap tree r) 4 = some (r.dtNext + 4 + r.strNext) :=
        be32At_header (i := 1) _ hfit rfl
      have hiff := hsized.unflatten_iff heap hb hreserve
      rw [if_pos hfit]
      constructor
      · intro ⟨dt, size, hdt, htotal, htree⟩
        cases hdt
        rw [hsize] at htotal
        cases htotal
        exact ⟨⟨r, rfl, hfit⟩, hiff.mp htree⟩
      · intro ⟨_, h⟩
        exact ⟨_, _, rfl, hsize, hiff.mpr h⟩
    · rw [if_neg hfit]
      constructor
      · intro ⟨_, _, h, _⟩
        cases h
      · intro ⟨⟨r', hr', hfit'⟩, _⟩
        cases hr'
        exact absurd hfit' hfit

/-- A root with one entry of reserved memory, a property and a node. -/
def smallTree : Node :=
  .mk [] [] 0 [.owned (cstr "model") (cstr "board")]
    [memreserveNode (beBytes 8 0x1000 ++ beBytes 8 0x200),
      .mk (cstr "chosen") (cstr "/chosen") 1 [.owned (cstr "phandle") (beBytes 4 1)] []]

theorem smallTree_built : smallTree.Built := by
  have hprop : ∀ name value : Bytes, (0 : UInt8) ∉ name → name.length ≤ 1023 →
      value.length < 2 ^ 31 → (Property.owned name value).Built :=
    fun name value hzero hname hvalue => ⟨rfl, hzero, hname, hvalue⟩
  refine ⟨rfl, rfl, ?_, ?_⟩
  · simp only [smallTree, Node.props, forall_mem_cons]
    exact ⟨hprop _ _ (by decide) (by decide) (by decide), by simp⟩
  · refine ⟨⟨by decide, ⟨by decide, by decide⟩, rfl, ?_, trivial⟩,
      ⟨by decide, ⟨by decide, by decide⟩, rfl, ?_, trivial⟩, trivial⟩
    · simp only [forall_mem_cons]
      exact ⟨hprop _ _ (by decide) (by decide) (by decide),
        hprop _ _ (by decide) (by decide) (by decide),
        hprop _ _ (by decide) (by decide) (by decide), by simp⟩
    · simp only [forall_mem_cons]
      exact ⟨hprop _ _ (by decide) (by decide) (by decide), by simp⟩

/-- The strings are shorter than the buffer they begin in. -/
theorem namesEnd_of_small {its : List Item} (hle : so + namesSize its ≤ sz64K) :
    NamesEnd heap so its := by
  induction its generalizing so with
  | nil => trivial
  | cons it its ih =>
    rw [namesSize_cons] at hle
    refine ⟨fun p hp => ?_, ih (by omega)⟩
    have hsize : it.nameSize = p.name.length + 1 := by
      rw [hp]
      rfl
    exact if_pos (by omega)

set_option maxRecDepth 4000 in
theorem smallTree_round_trips : RoundTrips (fun _ => 0xff) smallTree := by
  refine (flatten_unflatten_iff _ smallTree smallTree_built (by decide)).mpr ⟨?_, ?_, ?_, ?_⟩
  · exact ⟨_, rfl, by decide⟩
  · exact namesEnd_of_small (by decide)
  · exact ⟨rfl, ⟨rfl, trivial⟩, ⟨rfl, trivial⟩, trivial⟩
  · rfl

/-- A root with one property. -/
def oneProperty (value : Bytes) : Node := .mk [] [] 0 [.owned (cstr "data") value] []

theorem oneProperty_no_room {value : Bytes} (hvalue : value.length = 200000) :
    (oneProperty value).rootItems.foldlM Room.step Room.start = none := by
  have hopen : Room.start.step (.openNode []) = some ⟨65536, 304, 65536, 0⟩ := rfl
  have hdouble : Room.ensure ⟨65536, 304, 65536, 0⟩ 200000 = some ⟨131072, 304, 65536, 0⟩ := rfl
  have hfill : Room.fill ⟨131072, 304, 65536, 0⟩ (.property (.owned (cstr "data") value)) = none := by
    refine if_neg ?_
    show ¬ 304 + roundup (12 + value.length) 4 ≤ 131072
    rw [hvalue]
    decide
  have hstep : Room.step ⟨65536, 304, 65536, 0⟩ (.property (.owned (cstr "data") value)) = none := by
    show (Room.ensure _ value.length).bind _ = none
    rw [hvalue, hdouble, Option.bind_some, hfill]
  unfold Node.rootItems
  rw [foldlM_cons]
  show (Room.start.step (.openNode [])).bind _ = none
  rw [hopen, Option.bind_some, show (oneProperty value).props.map Item.property
    = [.property (.owned (cstr "data") value)] from rfl, singleton_append, foldlM_cons,
    hstep]
  rfl

/-- The buffer for the tags is doubled once; a property that is larger still
is written over its end. -/
theorem large_property_not_flattened : (oneProperty (replicate 200000 0)).Built ∧
      (reserveEntries (oneProperty (replicate 200000 0))).length ≤ 240 ∧
      ¬ RoundTrips (fun _ => 0) (oneProperty (replicate 200000 0)) := by
  have hlen : (replicate 200000 (0 : UInt8)).length = 200000 := length_replicate
  have hbuilt : (oneProperty (replicate 200000 0)).Built := by
    refine ⟨rfl, rfl, fun p hp => ?_, trivial⟩
    obtain rfl := mem_singleton.mp hp
    refine ⟨rfl, by decide, by decide, ?_⟩
    show (replicate 200000 (0 : UInt8)).length < 2 ^ 31
    rw [hlen]
    decide
  refine ⟨hbuilt, Nat.zero_le _, ?_⟩
  intro ⟨dt, size, hdt, _⟩
  rw [flatten_none hbuilt (oneProperty_no_room hlen)] at hdt
  cases hdt

end Barebox.Of
