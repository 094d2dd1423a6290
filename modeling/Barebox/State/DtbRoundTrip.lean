import Barebox.State.Params

/-!
# Packing and unpacking a state in the dtb format

`state_backend_format_dtb_pack` exports the variables to a tree, and
`state_backend_format_dtb_unpack` imports that tree again. Is everything as
it was before? For numbers, enumerations and addresses it is: their `value`
is always written. A string is exported from `value`, which is a copy made
by its parameter, not from `raw`, where loading puts what it loads. When
there is no copy, no `value` is written, and the import falls back to the
default.

`dtb_round_trip` has the exact condition, for every state that can be
reached by loading, setting and reading: each string's copy or, when it has
none, its default agrees with `raw` (`InSync`). A default that was loaded
is behind a dangling pointer, and packing reads it.

The proof has three parts: one variable, exported to a blank node and
imported from it (`exportTo_importFrom`); the tree, which has the nodes of
the live tree in the same order (`convertToAll_visits`); and the import run
over it, which handles each variable once (`importRun_apart`).
-/

namespace Barebox.State

open Lib Of List

variable {np : Node} {name : Bytes} {vars : List Variable}
variable {other : Bytes} {s : StateString} {x : Bytes × Node} {np' new : Node} {t : VarType}
  {v : Variable}

/-! ## One variable -/

/-- The exported string says what `raw` says. -/
def StateString.InSync (s : StateString) : Prop :=
  ∃ d, s.valueDefault.deref = .ok d ∧
    ∀ v, s.value.or d = some v → v ++ replicate (s.size - v.length) 0 = s.raw

/-- Only strings can be out of sync. -/
def VarData.InSync : VarData → Prop
  | .string s => s.InSync
  | _ => True

/-- A node without the properties an export writes. -/
structure Blank (np : Node) : Prop where
  default : ofFindProperty np (cstr "default") = none
  value : ofFindProperty np (cstr "value") = none
  names : ofFindProperty np (cstr "names") = none

theorem default_ne_value : cstr "default" ≠ cstr "value" := by decide
theorem names_ne_value : cstr "names" ≠ cstr "value" := by decide
theorem default_ne_names : cstr "default" ≠ cstr "names" := by decide

/-- A node that may have been given a default is as good as before. -/
theorem Blank.value_default (h : Blank np) (c : Prop) [Decidable c] (val : Bytes) :
    ofFindProperty (if c then ofSetProperty np (cstr "default") val else np) (cstr "value") = none := by
  split
  · rw [ofFindProperty_set_ne np val default_ne_value]
    exact h.value
  · exact h.value

/-- A number comes back, whatever the variable held before the import, … -/
theorem uint32_round_trip (h : Blank np) (v df : UInt32) (w : UInt32 × UInt32) :
    (stateUint32Import w (stateUint32Export v df np .toNode)).1 = v := by
  have hfind : ofFindProperty (stateUint32Export v df np .toNode) (cstr "value")
      = some (.owned (cstr "value") (beBytes 4 v.toNat)) :=
    ofFindProperty_set_self _ (h.value_default (df ≠ 0) _)
  unfold stateUint32Import
  rw [ofPropertyReadU32_owned hfind]
  rfl

/-- … so does a MAC address, … -/
theorem mac_round_trip (h : Blank np) (v df : Mac) (w : Mac × Mac) :
    (stateMacImport w (stateMacExport v df np .toNode)).1 = v := by
  have hfind : ofFindProperty (stateMacExport v df np .toNode) (cstr "value")
      = some (.owned (cstr "value") v.bytes) :=
    ofFindProperty_set_self _ (h.value_default (df ≠ .zero) _)
  have hread : ofPropertyReadU8Array (stateMacExport v df np .toNode) (cstr "value") 6
      = .ok v.bytes := by
    have := ofFindPropertyValueOfSize_owned hfind
    rwa [v.length_eq] at this
  have hmac : readMac (stateMacExport v df np .toNode) (cstr "value") = some v := by
    unfold readMac
    rw [hread]
    exact dif_pos v.length_eq
  unfold stateMacImport
  rw [hmac]
  rfl

/-- … and an enumeration that has a name for the value. -/
theorem enum32_round_trip (h : Blank np) (v df : UInt32) (names : List Bytes) (w : UInt32 × UInt32) :
    ∃ df', stateEnum32Import w (stateEnum32Export v df names np .toNode) = .ok (v, df') := by
  have hvalue : ofFindProperty (stateEnum32Export v df names np .toNode) (cstr "value")
      = some (.owned (cstr "value") (beBytes 4 v.toNat)) := by
    refine ofFindProperty_set_self _ ?_
    rw [ofFindProperty_set_ne _ _ names_ne_value]
    exact h.value_default (df ≠ 0) _
  have hdefault : ofFindProperty (stateEnum32Export v df names np .toNode) (cstr "default")
      = if df ≠ 0 then some (.owned (cstr "default") (beBytes 4 df.toNat)) else none := by
    refine (ofFindProperty_set_ne _ _ default_ne_value.symm).trans ?_
    rw [ofFindProperty_set_ne _ _ default_ne_names.symm]
    split
    · exact ofFindProperty_set_self _ h.default
    · exact h.default
  -- both properties are four bytes long, or missing
  unfold stateEnum32Import
  rw [hvalue, hdefault]
  split
  next hdf =>
    refine ⟨be32 (beBytes 4 df.toNat), ?_⟩
    simp [Property.owned, be32_beBytes]
  next hdf =>
  refine ⟨w.2, ?_⟩
  simp [Property.owned, be32_beBytes]

/-- The string that can be read where one may have been written. -/
theorem read_writeIfSet {o : Option Bytes}
    (h : ofFindProperty np name = none) (ho : ∀ x, o = some x → (0 : UInt8) ∉ x) :
    ofPropertyReadString (writeIfSet np name o) name = o.elim (.error .EINVAL) .ok := by
  cases o with
  | none => exact ofPropertyReadString_none h
  | some x => exact ofPropertyReadString_owned (ho x rfl) (ofFindProperty_set_self _ h)

theorem find_writeIfSet_ne (np : Node) (o : Option Bytes) (h : name ≠ other) :
    ofFindProperty (writeIfSet np name o) other = ofFindProperty np other := by
  cases o with
  | none => rfl
  | some x => exact ofFindProperty_set_ne np _ h

/-- Outside of an import a default that can be read is in the live tree. -/
theorem live_of_deref {x : Bytes} (h : (VarData.string s).Settled)
    (hd : s.valueDefault.deref = .ok (some x)) : s.valueDefault = .live x := by
  cases hptr : s.valueDefault with
  | live y =>
    rw [hptr] at hd
    cases hd
    rfl
  | scratch y => exact absurd hptr (h y)
  | null => rw [hptr] at hd; cases hd
  | dangling => rw [hptr] at hd; cases hd

section

variable {d : Option Bytes} (h : Blank np) (hs : s.CStrings) (hsettled : (VarData.string s).Settled)
  (hd : s.valueDefault.deref = .ok d)
include h hs hsettled hd

/-- What the exported node of a string has in it: the default behind the
pointer and the copy, as far as they are there. -/
theorem stateStringExport_spec : ∃ np', stateStringExport s np .toNode = .ok np' ∧
      ofPropertyReadString np' (cstr "default") = d.elim (.error .EINVAL) .ok ∧
      importedValue np' d = s.value.or d := by
  have hcstr : ∀ x, d = some x → (0 : UInt8) ∉ x := by
    rintro x rfl
    exact (hs.live x (live_of_deref hsettled hd)).1
  refine ⟨writeIfSet (writeIfSet np (cstr "default") d) (cstr "value") s.value, ?_, ?_, ?_⟩
  · unfold stateStringExport
    rw [hd]
    rfl
  · have hkeep : ofPropertyReadString
        (writeIfSet (writeIfSet np (cstr "default") d) (cstr "value") s.value) (cstr "default")
        = ofPropertyReadString (writeIfSet np (cstr "default") d) (cstr "default") := by
      unfold ofPropertyReadString
      rw [find_writeIfSet_ne _ _ default_ne_value.symm]
    rw [hkeep, read_writeIfSet h.default hcstr]
  · have hvalue : ofFindProperty (writeIfSet np (cstr "default") d) (cstr "value") = none := by
      rw [find_writeIfSet_ne _ _ default_ne_value]
      exact h.value
    unfold importedValue
    rw [read_writeIfSet hvalue hs.value]
    cases s.value with
    | none => rfl
    | some v => rfl

/-- Importing an exported string copies its `value` or its default. -/
theorem import_exported_string :
    ∃ np', ∃ s₁ : StateString, stateStringExport s np .toNode = .ok np' ∧ s₁.raw = s.raw ∧
      s₁.size = s.size ∧
      stateStringImport s np' .scratch = s₁.copyOrKeep (s.value.or d) := by
  obtain ⟨np', hexport, hdefault, hvalue⟩ := stateStringExport_spec h hs hsettled hd
  have hsize := s.importDefault_size np' .scratch
  have hraw : (s.importDefault np' .scratch).raw = s.raw := by
    unfold StateString.importDefault
    split <;> rfl
  -- the import finds the same default, wherever the pointer leads now
  have hderef : (s.importDefault np' .scratch).valueDefault.deref = .ok d := by
    unfold StateString.importDefault
    rw [hdefault]
    cases d with
    | none => exact hd
    | some x => rfl
  have hfits : ∀ x, d = some x → x.length ≤ (s.importDefault np' .scratch).size := by
    rintro x rfl
    rw [hsize]
    exact (hs.live x (live_of_deref hsettled hd)).2
  refine ⟨np', s.importDefault np' .scratch, hexport, hraw, hsize, ?_⟩
  rw [stateStringImport_eq hderef hfits, hvalue]

end

/-- Copying a string to `raw` changes nothing exactly if it is there. -/
theorem copyOrKeep_same (s : StateString) (o : Option Bytes) :
    ((s.copyOrKeep o).1 = .ok ∧ (s.copyOrKeep o).2.raw = s.raw) ↔
      ∀ v, o = some v → v ++ replicate (s.size - v.length) 0 = s.raw := by
  cases o with
  | none => exact ⟨fun _ v hv => (by cases hv), fun _ => ⟨rfl, rfl⟩⟩
  | some v =>
    unfold StateString.copyOrKeep stateStringCopyToRaw
    dsimp only
    by_cases hlen : v.length ≤ s.size
    · rw [dif_pos hlen]
      constructor
      · rintro ⟨-, hraw⟩ w hw
        cases hw
        exact hraw
      · intro hsync
        exact ⟨rfl, hsync v rfl⟩
    · rw [dif_neg hlen]
      constructor
      · rintro ⟨hok, -⟩
        cases hok
      · -- a string that does not fit is not what `raw` holds
        intro hsync
        have hlong := congrArg List.length (hsync v rfl)
        rw [length_append, s.raw_length] at hlong
        omega

/-- A string survives an export and an import exactly if it is in sync. -/
theorem string_round_trip (h : Blank np) (hs : s.CStrings) (hsettled : (VarData.string s).Settled) :
    (∃ np', stateStringExport s np .toNode = .ok np' ∧
      (stateStringImport s np' .scratch).1 = .ok ∧
      (stateStringImport s np' .scratch).2.raw = s.raw) ↔ s.InSync := by
  cases hd : s.valueDefault.deref with
  | error e =>
    -- a dangling default: there is no export
    constructor
    · rintro ⟨np', hexport, -⟩
      unfold stateStringExport at hexport
      rw [hd] at hexport
      cases hexport
    · rintro ⟨d, hok, -⟩
      rw [hd] at hok
      cases hok
  | ok d =>
    obtain ⟨np', s₁, hexport, hraw, hsize, himport⟩ := import_exported_string h hs hsettled hd
    have hsame := copyOrKeep_same s₁ (s.value.or d)
    rw [hraw, hsize, ← himport] at hsame
    constructor
    · rintro ⟨np'', hexport', hok⟩
      cases hexport.symm.trans hexport'
      exact ⟨d, hd, hsame.mp hok⟩
    · rintro ⟨d', hd', hsync⟩
      cases hd.symm.trans hd'
      exact ⟨np', hexport, hsame.mpr hsync⟩

/-- **One variable.** Exported to a blank node and imported from it, it has
its value again, exactly if it is in sync. -/
theorem exportTo_importFrom (h : Blank np) {d : VarData} (hd : d.CStrings) (hsettled : d.Settled) :
    (∃ np', d.type.exportTo d np .toNode = .ok np' ∧
      (d.type.importFrom d np' .scratch).1 = .ok ∧
      (d.type.importFrom d np' .scratch).2.raw = d.raw) ↔ d.InSync := by
  cases d with
  | uint8 v df =>
    refine ⟨fun _ => trivial, fun _ => ⟨_, rfl, rfl, ?_⟩⟩
    exact congrArg (fun x : UInt32 => leBytes 1 x.toNat) (uint32_round_trip h v df (v, df))
  | uint32 v df =>
    refine ⟨fun _ => trivial, fun _ => ⟨_, rfl, rfl, ?_⟩⟩
    exact congrArg (fun x : UInt32 => leBytes 4 x.toNat) (uint32_round_trip h v df (v, df))
  | enum32 v df names =>
    obtain ⟨df', himport⟩ := enum32_round_trip h v df names (v, df)
    have himp : VarType.enum32.importFrom (.enum32 v df names)
        (stateEnum32Export v df names np .toNode) .scratch = (.ok, .enum32 v df' names) := by
      unfold VarType.importFrom
      dsimp only [VarData.words]
      rw [himport]
      rfl
    refine ⟨fun _ => trivial, fun _ => ⟨_, rfl, ?_, ?_⟩⟩
    · exact congrArg Prod.fst himp
    · exact congrArg (fun x => x.2.raw) himp
  | mac v df =>
    refine ⟨fun _ => trivial, fun _ => ⟨_, rfl, rfl, ?_⟩⟩
    exact congrArg Mac.bytes (mac_round_trip h v df (v, df))
  | string s => exact string_round_trip h hd hsettled

/-! ## The tree -/

theorem visits_eq (node : Node) (pn : Bytes) :
    visits node pn = visitsAll node.children (variableName pn node.name) ++
      [(variableName pn node.name, node)] := by
  cases node with
  | mk name full props children => rfl

/-- The same node up to properties other than `type`. -/
structure SameShape (np np' : Node) : Prop where
  name : np'.name = np.name
  children : np'.children = np.children
  type : ofFindProperty np' (cstr "type") = ofFindProperty np (cstr "type")

theorem SameShape.refl (np : Node) : SameShape np np := ⟨rfl, rfl, rfl⟩

theorem SameShape.set (h : SameShape np np') (val : Bytes)
    (hne : name ≠ cstr "type") : SameShape np (ofSetProperty np' name val) :=
  ⟨h.name, h.children, (ofFindProperty_set_ne np' val hne).trans h.type⟩

theorem SameShape.ite {a b : Node} (c : Prop) [Decidable c] (ha : SameShape np a)
    (hb : SameShape np b) : SameShape np (if c then a else b) := by
  split
  · exact ha
  · exact hb

theorem SameShape.writeIfSet (h : SameShape np np')
    (hne : name ≠ cstr "type") (o : Option Bytes) : SameShape np (writeIfSet np' name o) := by
  cases o with
  | none => exact h
  | some s => exact h.set _ hne

/-- Exporting a variable writes properties, none of them `type`. -/
theorem exportTo_frame {d : VarData} (h : t.exportTo d np .toNode = .ok np') : SameShape np np' := by
  have hdefault : cstr "default" ≠ cstr "type" := by decide
  have hvalue : cstr "value" ≠ cstr "type" := by decide
  have hnames : cstr "names" ≠ cstr "type" := by decide
  have hite : ∀ (c : Prop) [Decidable c] (val : Bytes),
      SameShape np (if c then ofSetProperty np (cstr "default") val else np) :=
    fun c _ val => .ite c ((SameShape.refl np).set val hdefault) (.refl np)
  have hwords : ∀ v df, SameShape np (stateUint32Export v df np .toNode) :=
    fun v df => (hite (df ≠ 0) _).set _ hvalue
  unfold VarType.exportTo at h
  split at h
  · cases h
    exact ((hite _ _).set _ hnames).set _ hvalue
  · cases h
    exact (hite _ _).set _ hvalue
  · unfold stateStringExport at h
    split at h
    · cases h
    · cases h
      exact ((SameShape.refl np).writeIfSet hdefault _).writeIfSet hvalue _
  · split at h
    · cases h
      exact hwords _ _
    · cases h
  · split at h
    · cases h
      exact hwords _ _
    · cases h
  · cases h

/-- The visit `b` of the exported tree belongs to the visit `a` of the live
one. -/
def Exported (vars : List Variable) (a b : Bytes × Node) : Prop :=
  a.1 = b.1 ∧ ∃ new, new.props = [] ∧ new.children.length = a.2.children.length ∧
    exportAt .toNode vars a.1 a.2 new = .ok b.2

theorem exportAt_frame {node new' : Node} (h : exportAt .toNode vars name node new = .ok new') :
    new'.name = new.name ∧ new'.children = new.children := by
  unfold exportAt at h
  split at h
  · cases h
  · cases h
    exact ⟨rfl, rfl⟩
  split at h
  · cases h
    exact ⟨rfl, rfl⟩
  · have hframe := exportTo_frame h
    exact ⟨hframe.name, hframe.children⟩

mutual

/-- The exported tree is walked like the live one. -/
theorem convertTo_visits : ∀ (node parent : Node) (pn : Bytes) {new : Node},
    convertTo .toNode vars node parent pn = .ok new →
    new.name = node.name ∧ List.Forall₂ (Exported vars) (visits node pn) (visits new pn)
  | .mk name full phandle props children, parent, pn, new', h => by
    rw [convertTo] at h
    split at h
    · cases h
    next new hnew =>
    obtain ⟨hname, hprops, added, hadded, hlen, hall⟩ := convertToAll_visits children _ _ hnew
    obtain ⟨hname', hchildren⟩ := exportAt_frame h
    have hsame : new'.name = name := hname'.trans hname
    refine ⟨hsame, ?_⟩
    rw [visits_eq new', visits_eq, hchildren, hadded, hsame]
    refine rel_append hall (List.Forall₂.cons ?_ List.Forall₂.nil)
    refine ⟨rfl, new, hprops, ?_, h⟩
    rw [hadded]
    exact hlen

/-- The nodes that are added are visited in the same order as those they are made from, and each
holds what its variable exports. -/
theorem convertToAll_visits : ∀ (nodes : List Node) (parent : Node) (pn : Bytes)
    {new : Node}, convertToAll .toNode vars nodes parent pn = .ok new →
    new.name = parent.name ∧ new.props = parent.props ∧
      ∃ added, new.children = parent.children ++ added ∧ added.length = nodes.length ∧
        List.Forall₂ (Exported vars) (visitsAll nodes pn) (visitsAll added pn)
  | [], parent, pn, new, h => by
    rw [convertToAll] at h
    cases h
    exact ⟨rfl, rfl, [], (append_nil _).symm, rfl, List.Forall₂.nil⟩
  | node :: nodes, parent, pn, new, h => by
    rw [convertToAll] at h
    split at h
    · cases h
    next child hchild =>
    obtain ⟨-, hfirst⟩ := convertTo_visits node parent pn hchild
    obtain ⟨hname, hprops, added, hadded, hlen, hrest⟩ := convertToAll_visits nodes _ _ h
    refine ⟨hname, hprops, child :: added, ?_, ?_, ?_⟩
    · rw [hadded, Node.addChild_children, append_assoc]
      rfl
    · rw [length_cons, length_cons, hlen]
    · exact rel_append hfirst hrest

end

mutual

/-- There is a tree if every node can be exported. -/
theorem convertTo_total : ∀ (node parent : Node) (pn : Bytes),
    (∀ x ∈ visits node pn, ∀ new : Node, new.props = [] →
      ∃ new', exportAt .toNode vars x.1 x.2 new = .ok new') →
    ∃ new, convertTo .toNode vars node parent pn = .ok new
  | .mk name full phandle props children, parent, pn, h => by
    obtain ⟨new, hnew⟩ := convertToAll_total children (ofNewNode parent name) (variableName pn name)
      fun x hx => h x (mem_append_left _ hx)
    rw [convertTo, hnew]
    obtain ⟨-, hprops, -⟩ := convertToAll_visits children _ _ hnew
    exact h (_, _) (mem_append_right _ (mem_singleton_self _)) new hprops

/-- If every variable can be exported so can the tree. -/
theorem convertToAll_total : ∀ (nodes : List Node) (parent : Node) (pn : Bytes),
    (∀ x ∈ visitsAll nodes pn, ∀ new : Node, new.props = [] →
      ∃ new', exportAt .toNode vars x.1 x.2 new = .ok new') →
    ∃ new, convertToAll .toNode vars nodes parent pn = .ok new
  | [], parent, _, _ => ⟨parent, rfl⟩
  | node :: nodes, parent, pn, h => by
    obtain ⟨child, hchild⟩ := convertTo_total node parent pn
      fun x hx => h x (mem_append_left _ hx)
    obtain ⟨new, hnew⟩ := convertToAll_total nodes (parent.addChild child) pn
      fun x hx => h x (mem_append_right _ hx)
    rw [convertToAll, hchild]
    exact ⟨new, hnew⟩

end

/-! ## The import, variable by variable -/

/-- Looking a variable up behind the import of one. -/
theorem stateFindVar_setData (name other : Bytes) (d : VarData) (vars : List Variable) :
    stateFindVar (setData name d vars) other
      = if name = other then (stateFindVar vars other).map ({ · with data := d })
        else stateFindVar vars other := by
  induction vars with
  | nil => split <;> rfl
  | cons w vars ih =>
    unfold stateFindVar at ih ⊢
    rw [setData]
    split
    next hw =>
      by_cases ho : name = other
      · simp [hw, ho]
      · simp [hw, ho]
    next hw =>
    rw [find?_cons, find?_cons, ih]
    by_cases ho : name = other
    · simp [ho ▸ hw, ho]
    · simp [ho]

/-- Importing at a typed node changes the variable of that name, and
nothing else is changed anywhere. -/
theorem importAt_ne {node : Node} (vars : List Variable)
    (hne : ∀ t, nodeType node = .ok (some t) → name ≠ other) :
    stateFindVar (importAt name node vars).2 other = stateFindVar vars other := by
  unfold importAt
  split
  · rfl
  · rfl
  · next t hty =>
    split
    · rfl
    · rw [stateFindVar_setData, if_neg (hne t hty)]

/-- A node with a type imports into the variable of its name. -/
theorem importAt_self {node : Node}
    (hty : nodeType node = .ok (some t)) (hv : stateFindVar vars name = some v) :
    (importAt name node vars).1 = (t.importFrom v.data node .scratch).1 ∧
    stateFindVar (importAt name node vars).2 name
      = some { v with data := (t.importFrom v.data node .scratch).2 } := by
  unfold importAt
  rw [hty]
  rw [hv]
  refine ⟨rfl, ?_⟩
  rw [stateFindVar_setData, if_pos rfl, hv]
  rfl

variable {vars' : List Variable}

/-- The return code depends on that variable only. -/
theorem importAt_congr (node : Node)
    (h : ∀ t, nodeType node = .ok (some t) → stateFindVar vars name = stateFindVar vars' name) :
    (importAt name node vars).1 = (importAt name node vars').1 := by
  unfold importAt
  split
  · rfl
  · rfl
  · next t hty =>
    rw [h t hty]
    split <;> rfl

/-- The names of the variables a walk comes across. -/
def typedNames (l : List (Bytes × Node)) : List Bytes := (typedNodes l).map Prod.fst

theorem typedNames_cons (x : Bytes × Node) (l : List (Bytes × Node)) :
    typedNames (x :: l) = typedNames [x] ++ typedNames l := by
  unfold typedNames
  rw [← singleton_append, typedNodes_append, map_append]

variable {l : List (Bytes × Node)}

theorem mem_typedNames (hx : x ∈ l) (ht : nodeType x.2 = .ok (some t)) : x.1 ∈ typedNames l := by
  refine mem_map.mpr ⟨(x.1, t), mem_filterMap.mpr ⟨x, hx, ?_⟩, rfl⟩
  rw [ht]

theorem importRun_cons (name : Bytes) (node : Node) (vars : List Variable) :
    importRun ((name, node) :: l) vars = match (importAt name node vars).1 with
      | .err e => (.err e, (importAt name node vars).2)
      | .ok => importRun l (importAt name node vars).2 := by
  rw [importRun]
  generalize importAt name node vars = r
  obtain ⟨ret, vars⟩ := r
  cases ret <;> rfl

/-- A variable that no node is named like keeps its value. -/
theorem importRun_ne : ∀ (l : List (Bytes × Node)) (vars : List Variable),
    name ∉ typedNames l → stateFindVar (importRun l vars).2 name = stateFindVar vars name
  | [], _, _ => rfl
  | (other, node) :: l, vars, h => by
    have hat : stateFindVar (importAt other node vars).2 name = stateFindVar vars name := by
      refine importAt_ne vars fun t ht heq => h ?_
      exact heq ▸ mem_typedNames (mem_cons_self) ht
    have htail : name ∉ typedNames l := by
      intro hmem
      rw [typedNames_cons] at h
      exact h (mem_append_right _ hmem)
    rw [importRun_cons]
    cases (importAt other node vars).1 with
    | err e => exact hat
    | ok => exact (importRun_ne l _ htail).trans hat

/-- **An import handles each variable on its own**, if the names in the tree
are different: it succeeds if each of them can be imported as it was
before, and gives each what its node has for it. -/
theorem importRun_apart : ∀ (l : List (Bytes × Node)) (vars : List Variable), (typedNames l).Nodup →
    ((importRun l vars).1 = .ok ↔ ∀ x ∈ l, (importAt x.1 x.2 vars).1 = .ok) ∧
    ((importRun l vars).1 = .ok → ∀ x ∈ l, ∀ t v, nodeType x.2 = .ok (some t) →
      stateFindVar vars x.1 = some v →
      stateFindVar (importRun l vars).2 x.1
        = some { v with data := (t.importFrom v.data x.2 .scratch).2 })
  | [], _, _ => ⟨⟨fun _ x hx => absurd hx not_mem_nil, fun _ => rfl⟩,
      fun _ x hx => absurd hx not_mem_nil⟩
  | (name, node) :: l, vars, hnodup => by
    rw [typedNames_cons] at hnodup
    obtain ⟨-, hrest, hdisj⟩ := nodup_append.mp hnodup
    have hhead : ∀ t, nodeType node = .ok (some t) → name ∉ typedNames l := by
      intro t ht hmem
      exact hdisj name (mem_typedNames (mem_singleton_self (name, node)) ht) name hmem rfl
    -- the rest of the walk finds its variables untouched by the first node
    have hlook : ∀ x ∈ l, ∀ t, nodeType x.2 = .ok (some t) →
        stateFindVar (importAt name node vars).2 x.1 = stateFindVar vars x.1 := by
      intro x hx t ht
      refine importAt_ne vars fun t' ht' heq => hhead t' ht' ?_
      exact heq ▸ mem_typedNames hx ht
    obtain ⟨ihok, ihfind⟩ := importRun_apart l (importAt name node vars).2 hrest
    rw [importRun_cons]
    cases hat : (importAt name node vars).1 with
    | err e =>
      refine ⟨⟨nofun, fun h => ?_⟩, nofun⟩
      have := h (name, node) (mem_cons_self)
      rw [hat] at this
      cases this
    | ok =>
      refine ⟨⟨fun h x hx => ?_, fun h => ?_⟩, fun h x hx t v ht hv => ?_⟩
      · rcases mem_cons.mp hx with rfl | hx
        · exact hat
        · rw [← importAt_congr x.2 (hlook x hx)]
          exact ihok.mp h x hx
      · refine ihok.mpr fun x hx => ?_
        rw [importAt_congr x.2 (hlook x hx)]
        exact h x (mem_cons_of_mem _ hx)
      · rcases mem_cons.mp hx with rfl | hx
        · rw [importRun_ne l _ (hhead t ht)]
          exact (importAt_self ht hv).2
        · refine ihfind h x hx t v ht ?_
          rw [hlook x hx t ht]
          exact hv

/-! ## The state and its node -/

/-- The variables are those of the walk `l`. -/
structure Tied (l : List (Bytes × Node)) (vars : List Variable) : Prop where
  ok : ∀ x ∈ l, ∃ o, nodeType x.2 = .ok o
  names : (vars.map Variable.name).Nodup
  typed : (vars.map Variable.signature).Perm (typedNodes l)

/-- The tree that the variables were created from is tied to them, whatever their values are by
now. -/
theorem CreateInv.tied {st₀ st : Instance} (h : CreateInv l st₀)
    (hsig : st.vars.map Variable.signature = st₀.vars.map Variable.signature) : Tied l st.vars := by
  have hnames : ∀ vars : List Variable,
      vars.map Variable.name = (vars.map Variable.signature).map Prod.fst := by
    intro vars
    rw [map_map]
    rfl
  refine ⟨h.ok, ?_, hsig ▸ h.typed⟩
  rw [hnames, hsig, ← hnames]
  exact h.nodup

/-- Names are unique, so a variable is found by its own. -/
theorem stateFindVar_mem (h : (vars.map Variable.name).Nodup)
    (hv : v ∈ vars) : stateFindVar vars v.name = some v := by
  induction vars with
  | nil => cases hv
  | cons w vars ih =>
    rw [map_cons, nodup_cons] at h
    unfold stateFindVar at ih ⊢
    rcases mem_cons.mp hv with rfl | hv
    · exact find?_cons_of_pos (by simp)
    · have hne : ¬ w.name = v.name := fun heq => h.1 (heq ▸ mem_map_of_mem hv)
      rw [find?_cons_of_neg (by simpa using hne)]
      exact ih h.2 hv

namespace Tied

variable {l : List (Bytes × Node)}

theorem once (h : Tied l vars) : (typedNames l).Nodup := by
  have hperm := (h.typed.map Prod.fst).nodup_iff.mp
  refine hperm ?_
  rw [map_map]
  exact h.names

/-- Each typed node has its variable. -/
theorem found (h : Tied l vars) (hx : x ∈ l) (ht : nodeType x.2 = .ok (some t)) :
    ∃ v ∈ vars, stateFindVar vars x.1 = some v ∧ v.data.type = t := by
  have hmem : (x.1, t) ∈ typedNodes l := mem_filterMap.mpr ⟨x, hx, by rw [ht]⟩
  obtain ⟨v, hv, hsig⟩ := mem_map.mp (h.typed.mem_iff.mpr hmem)
  obtain ⟨hname, htype⟩ := Prod.mk.inj hsig
  exact ⟨v, hv, hname ▸ stateFindVar_mem h.names hv, htype⟩

/-- Each variable has its node. -/
theorem node (h : Tied l vars) (hv : v ∈ vars) :
    ∃ x ∈ l, x.1 = v.name ∧ nodeType x.2 = .ok (some v.data.type) := by
  obtain ⟨x, hx, hsig⟩ := mem_filterMap.mp (h.typed.mem_iff.mp (mem_map_of_mem hv))
  split at hsig
  · next t ht =>
    obtain ⟨hname, htype⟩ := Prod.mk.inj (Option.some.inj hsig)
    exact ⟨x, hx, hname, htype ▸ ht⟩
  · cases hsig

end Tied

theorem stateFindTypeByName_typeName (t : VarType) : stateFindTypeByName t.typeName = some t := by
  cases t <;> decide

/-- A new node with `type` and `reg`, about to be exported to. -/
def startNode (new : Node) (t : VarType) (v : Variable) : Node :=
  ofPropertyWriteU32Pair (ofPropertyWriteString new (cstr "type") t.typeName) (cstr "reg") v.start
    (UInt32.ofNat v.data.size)

theorem ofFindProperty_nil (h : new.props = []) (name : Bytes) : ofFindProperty new name = none := by
  unfold ofFindProperty
  rw [h]
  rfl

/-- A node that was just added has no value, default or names. -/
theorem blank_startNode (h : new.props = []) (t : VarType) (v : Variable) :
    Blank (startNode new t v) := by
  have hfind : ∀ name, cstr "type" ≠ name → cstr "reg" ≠ name →
      ofFindProperty (startNode new t v) name = none := by
    intro name htype hreg
    refine (ofFindProperty_set_ne _ _ hreg).trans ((ofFindProperty_set_ne _ _ htype).trans ?_)
    exact ofFindProperty_nil h name
  exact ⟨hfind _ (by decide) (by decide), hfind _ (by decide) (by decide),
    hfind _ (by decide) (by decide)⟩

/-- What a typed node of a tied walk is exported to. -/
theorem exportAt_typed {node : Node}
    (ht : nodeType node = .ok (some t)) (hv : stateFindVar vars name = some v) (new : Node) :
    exportAt .toNode vars name node new = t.exportTo v.data (startNode new t v) .toNode := by
  unfold exportAt
  rw [ht]
  rw [hv]
  rfl

/-- The exported node has the type of the live one. -/
theorem exported_nodeType (h : Tied l vars)
    {y : Bytes × Node} (hx : x ∈ l) (hxy : Exported vars x y) : nodeType y.2 = nodeType x.2 := by
  obtain ⟨-, new, hprops, hlen, hexport⟩ := hxy
  obtain ⟨o, ho⟩ := h.ok x hx
  cases o with
  | none =>
    have hy : y.2 = new := by
      unfold exportAt at hexport
      rw [ho] at hexport
      exact (Except.ok.inj hexport).symm
    -- a node without a type has children, and so has its copy
    have hchildren : x.2.children.isEmpty = false := by
      unfold nodeType at ho
      split at ho
      · split at ho
        · cases ho
        · next hne => exact Bool.eq_false_iff.mpr hne
      · cases ho
      · split at ho <;> cases ho
    have hnew : new.children.isEmpty = false := by
      rw [isEmpty_eq_false_iff_exists_mem] at hchildren ⊢
      obtain ⟨c, hc⟩ := hchildren
      have hpos := length_pos_of_mem hc
      exact exists_mem_of_length_pos (hlen ▸ hpos)
    rw [hy, ho]
    unfold nodeType
    rw [ofPropertyReadString_none (ofFindProperty_nil hprops _)]
    rw [hnew]
    rfl
  | some t =>
    obtain ⟨v, -, hv, -⟩ := h.found hx ho
    rw [exportAt_typed ho hv] at hexport
    have htype : ofFindProperty y.2 (cstr "type")
        = some (.owned (cstr "type") (t.typeName ++ [0])) := by
      rw [(exportTo_frame hexport).type]
      refine (ofFindProperty_set_ne _ _ (by decide)).trans ?_
      exact ofFindProperty_set_self _ (ofFindProperty_nil hprops _)
    have hcstr : (0 : UInt8) ∉ t.typeName := by
      cases t <;> decide
    rw [ho]
    unfold nodeType
    rw [ofPropertyReadString_owned hcstr htype]
    dsimp only
    rw [stateFindTypeByName_typeName]

theorem forall₂_mem {α β : Type} {R : α → β → Prop} {l : List α} {l' : List β}
    (h : List.Forall₂ R l l') {x : α} (hx : x ∈ l) : ∃ y ∈ l', R x y := by
  induction h with
  | nil => cases hx
  | @cons a b l l' hab _ ih =>
    rcases mem_cons.mp hx with rfl | hx
    · exact ⟨b, mem_cons_self, hab⟩
    · obtain ⟨y, hy, hxy⟩ := ih hx
      exact ⟨y, mem_cons_of_mem _ hy, hxy⟩

variable {l' : List (Bytes × Node)}

/-- The nodes with a type are the same on both sides. -/
theorem exported_typedNodes (h : List.Forall₂ (Exported vars) l l')
    (hty : ∀ x ∈ l, ∀ y, Exported vars x y → nodeType y.2 = nodeType x.2) : typedNodes l' = typedNodes l := by
  induction h with
  | nil => rfl
  | @cons a b l l' hab _ ih =>
    have ih := ih fun x hx => hty x (mem_cons_of_mem _ hx)
    unfold typedNodes at ih ⊢
    rw [filterMap_cons, filterMap_cons, hty a (mem_cons_self) b hab, ← hab.1, ih]

/-- The variables are those of the exported tree, too. -/
theorem Tied.exported (h : Tied l vars) (hexp : List.Forall₂ (Exported vars) l l') : Tied l' vars := by
  have hty : ∀ x ∈ l, ∀ y, Exported vars x y → nodeType y.2 = nodeType x.2 :=
    fun x hx y hxy => exported_nodeType h hx hxy
  refine ⟨fun y hy => ?_, h.names, h.typed.trans (.of_eq (exported_typedNodes hexp hty).symm)⟩
  obtain ⟨x, hx, hxy⟩ := forall₂_mem hexp.flip hy
  exact (h.ok x hx).imp fun o ho => (hty x hx y hxy).trans ho

/-- Values agree when they agree by name. -/
theorem raw_eq_iff (hnodup : (vars.map Variable.name).Nodup)
    (hnames : vars'.map Variable.name = vars.map Variable.name) :
    vars'.map (fun v => v.data.raw) = vars.map (fun v => v.data.raw) ↔
      ∀ v ∈ vars, (stateFindVar vars' v.name).map (fun v' => v'.data.raw) = some v.data.raw := by
  -- the values of `vars'`, looked up by the names of `vars`
  have hlook : vars'.map (fun v => some v.data.raw)
      = vars.map fun v => (stateFindVar vars' v.name).map fun v' => v'.data.raw := by
    have hby : ∀ l : List Variable, l.map (fun v => (stateFindVar vars' v.name).map fun v' => v'.data.raw)
        = (l.map Variable.name).map fun n => (stateFindVar vars' n).map fun v' => v'.data.raw := by simp
    rw [hby, ← hnames, ← hby]
    refine map_congr_left fun v hv => ?_
    rw [stateFindVar_mem (hnames ▸ hnodup) hv]
    rfl
  rw [← (map_injective_iff.mpr (Option.some_injective Bytes)).eq_iff, map_map, map_map]
  exact (Eq.congr_left hlook).trans map_inj_left

/-! ## The round trip -/

section

variable {l : List (Bytes × Node)} (htied : Tied l vars) (hexp : List.Forall₂ (Exported vars) l l')
  (hcstr : ∀ v ∈ vars, v.data.CStrings) (hsettled : ∀ v ∈ vars, v.data.Settled)

include htied hexp hcstr hsettled

/-- A variable and its node in the exported tree. -/
theorem exported_var {y : Bytes × Node} (hy : y ∈ l') (hv : v ∈ vars)
    (hname : y.1 = v.name) (ht : nodeType y.2 = .ok (some v.data.type)) :
    ((v.data.type.importFrom v.data y.2 .scratch).1 = .ok ∧
      (v.data.type.importFrom v.data y.2 .scratch).2.raw = v.data.raw) ↔ v.data.InSync := by
  obtain ⟨x, hx, hxy⟩ := forall₂_mem hexp.flip hy
  rw [exported_nodeType htied hx hxy] at ht
  obtain ⟨hxy, new, hprops, -, hexport⟩ := hxy
  rw [exportAt_typed ht (hxy.trans hname ▸ stateFindVar_mem htied.names hv)] at hexport
  rw [← exportTo_importFrom (blank_startNode hprops v.data.type v) (hcstr v hv) (hsettled v hv)]
  constructor
  · intro himport
    exact ⟨y.2, hexport, himport⟩
  · rintro ⟨np', hexport', himport⟩
    cases hexport.symm.trans hexport'
    exact himport

/-- Importing the exported tree brings every variable back exactly if all of
them are in sync. -/
theorem importRun_exported : ((importRun l' vars).1 = .ok ∧
      (importRun l' vars).2.map (fun v => v.data.raw) = vars.map (fun v => v.data.raw)) ↔
    ∀ v ∈ vars, v.data.InSync := by
  have htied' := htied.exported hexp
  obtain ⟨hok, hfind⟩ := importRun_apart l' vars htied'.once
  have hnames : (importRun l' vars).2.map Variable.name = vars.map Variable.name := by
    have hsig := importRun_inv (P := fun vars' =>
      vars'.map Variable.signature = vars.map Variable.signature)
      (fun vars' name v t node h hv =>
        (setData_signature (importFrom_type_size t v.data node .scratch).1 hv).trans h) l' rfl
    have hfst := congrArg (List.map Prod.fst) hsig
    rwa [map_map, map_map] at hfst
  have hfound : ∀ v ∈ vars, stateFindVar vars v.name = some v := fun v => stateFindVar_mem htied.names
  -- names are distinct, so it can be said variable by variable
  rw [raw_eq_iff htied.names hnames]
  constructor
  · rintro ⟨hret, hraw⟩ v hv
    obtain ⟨y, hy, hname, ht⟩ := htied'.node hv
    refine (exported_var htied hexp hcstr hsettled hy hv hname ht).mp ⟨?_, ?_⟩
    · rw [← (importAt_self ht (hname ▸ hfound v hv)).1]
      exact hok.mp hret y hy
    · have hafter := hraw v hv
      rw [← hname, hfind hret y hy _ v ht (hname ▸ hfound v hv)] at hafter
      exact Option.some.inj hafter
  · intro hsync
    have hret : (importRun l' vars).1 = .ok := by
      refine hok.mpr fun y hy => ?_
      obtain ⟨o, ho⟩ := htied'.ok y hy
      cases o with
      | none =>
        unfold importAt
        rw [ho]
      | some t =>
        obtain ⟨v, hv, hvar, rfl⟩ := htied'.found hy ho
        have hname : y.1 = v.name := (stateFindVar_some hvar).2.symm
        rw [(importAt_self ho hvar).1]
        exact ((exported_var htied hexp hcstr hsettled hy hv hname ho).mpr (hsync v hv)).1
    refine ⟨hret, fun v hv => ?_⟩
    obtain ⟨y, hy, hname, ht⟩ := htied'.node hv
    rw [← hname, hfind hret y hy _ v ht (hname ▸ hfound v hv)]
    exact congrArg some ((exported_var htied hexp hcstr hsettled hy hv hname ht).mpr (hsync v hv)).2

end

/-- What a packed tree is, and what unpacking it is. -/
theorem stateToNode_spec {st : Instance} {node tree : Node}
    (h : stateToNode st (some node) none .toNode = .ok tree) :
    List.Forall₂ (Exported st.vars) (visitsAll node.children []) (visitsAll tree.children []) ∧
    stateFromNode tree st = ((importRun (visitsAll tree.children []) st.vars).1,
      { st with vars := (importRun (visitsAll tree.children []) st.vars).2 }) := by
  obtain ⟨-, hprops, added, hadded, -, hexp⟩ := convertToAll_visits node.children
    (ofPropertyWriteU32 ofNewRoot (cstr "magic") st.magic) [] h
  obtain rfl : tree.children = added := hadded
  refine ⟨hexp, ?_⟩
  have hmagic : ofPropertyReadU32 tree (cstr "magic") = .ok st.magic := by
    refine ofPropertyReadU32_owned ?_
    unfold ofFindProperty
    rw [hprops]
    exact ofFindProperty_set_self _ rfl
  unfold stateFromNode
  rw [hmagic, convertFromAll_eq]
  dsimp only
  rw [if_neg fun hne => hne.2 rfl]

/-- Packing a state and unpacking the result succeeds, and leaves every
variable with the value it had. `node` is the state's node in the live
tree, `root` what was in the format object before. -/
def DtbRoundTrips (flatten : Node → Bytes) (node : Node) (root : Option Node) (st : Instance) : Prop :=
  ∃ buf tree st', backendFormatDtbPack (fun t => some (flatten t)) (some node) st root
      = (.ok buf, some tree) ∧
    backendFormatDtbUnpack (some tree) st buf buf.length = (.ok, st', none) ∧
    st'.values = st.values

/-- Without the blob: flattening and unflattening are undone by each other, so that the tree
itself has to be imported again. -/
theorem dtbRoundTrips_iff (flatten : Node → Bytes) (node : Node) (root : Option Node) (st : Instance) :
    DtbRoundTrips flatten node root st ↔
      ∃ tree, stateToNode st (some node) none .toNode = .ok tree ∧
        (stateFromNode tree st).1 = .ok ∧ (stateFromNode tree st).2.values = st.values := by
  have hpack : ∀ tree, stateToNode st (some node) none .toNode = .ok tree →
      backendFormatDtbPack (fun t => some (flatten t)) (some node) st root
        = (.ok (flatten tree), some tree) := by
    intro tree h
    unfold backendFormatDtbPack
    rw [h]
  have hunpack : ∀ tree buf, backendFormatDtbUnpack (some tree) st buf buf.length
      = ((stateFromNode tree st).1, (stateFromNode tree st).2.freed, none) :=
    fun _ _ => rfl
  have hfreed : ∀ st : Instance, st.freed.values = st.values := by
    intro st
    unfold Instance.values Instance.freed
    rw [map_map]
    exact map_congr_left fun v _ => v.data.freed_raw
  constructor
  · rintro ⟨buf, tree, st', hp, hu, hvalues⟩
    cases htree : stateToNode st (some node) none .toNode with
    | error e =>
      unfold backendFormatDtbPack at hp
      rw [htree] at hp
      cases hp
    | ok t =>
      rw [hpack t htree] at hp
      cases hp
      rw [Prod.mk.injEq] at hu
      obtain ⟨hret, rfl, -⟩ := hu
      rw [hfreed] at hvalues
      exact ⟨tree, rfl, hret, hvalues⟩
  · rintro ⟨tree, htree, hret, hvalues⟩
    refine ⟨flatten tree, tree, (stateFromNode tree st).2.freed, hpack tree htree, ?_, ?_⟩
    · rw [hunpack, hret]
    · rw [hfreed]
      exact hvalues

/-- **The dtb round trip.** In every state that a created state gets to by
loads, parameter sets and parameter reads, packing and unpacking brings
every value back, if and only if every string variable is in sync. -/
theorem dtb_round_trip {ω : Type} {node : Node} {st₀ : Instance}
    (hnew : stateFromNodeCreate node stateNew = .ok st₀) (ops : List (StateOp ω))
    (flatten : Node → Bytes) (root : Option Node) :
    DtbRoundTrips flatten node root (run StateOp.step st₀ ops) ↔
      ∀ v ∈ (run StateOp.step st₀ ops).vars, v.data.InSync := by
  have hsound := (sound_of_create hnew).run ops
  generalize run StateOp.step st₀ ops = st at hsound ⊢
  have htied : Tied (visitsAll node.children []) st.vars :=
    (created_of_stateFromNodeCreate rfl hnew).inv.tied hsound.signature
  rw [dtbRoundTrips_iff]
  constructor
  · rintro ⟨tree, htree, hret, hvalues⟩
    obtain ⟨hexp, himport⟩ := stateToNode_spec htree
    rw [himport] at hret hvalues
    exact (importRun_exported htied hexp hsound.cstrings hsound.settled).mp ⟨hret, hvalues⟩
  · intro hsync
    have hexport : ∀ x ∈ visitsAll node.children [], ∀ new : Node, new.props = [] →
        ∃ new', exportAt .toNode st.vars x.1 x.2 new = .ok new' := by
      intro x hx new hprops
      obtain ⟨o, ho⟩ := htied.ok x hx
      cases o with
      | none =>
        unfold exportAt
        rw [ho]
        exact ⟨new, rfl⟩
      | some t =>
        obtain ⟨v, hv, hfound, rfl⟩ := htied.found hx ho
        rw [exportAt_typed ho hfound]
        obtain ⟨np', hexport, -⟩ := (exportTo_importFrom (blank_startNode hprops _ v)
          (hsound.cstrings v hv) (hsound.settled v hv)).mpr (hsync v hv)
        exact ⟨np', hexport⟩
    obtain ⟨tree, htree⟩ := convertToAll_total node.children
      (ofPropertyWriteU32 ofNewRoot (cstr "magic") st.magic) [] hexport
    obtain ⟨hexp, himport⟩ := stateToNode_spec htree
    refine ⟨tree, htree, ?_⟩
    rw [himport]
    exact (importRun_exported htied hexp hsound.cstrings hsound.settled).mpr hsync

/-- A state with one string of four bytes, and a default for it. -/
def commentNode : Node :=
  .mk (cstr "state") (cstr "/state") 0 [.owned (cstr "magic") (beBytes 4 0x1234)]
    [.mk (cstr "comment") (cstr "/state/comment") 0
      [.owned (cstr "type") (cstr "string" ++ [0]),
        .owned (cstr "reg") (beBytes 4 0 ++ beBytes 4 4),
        .owned (cstr "default") (cstr "d" ++ [0])] []]

@[inherit_doc commentNode]
def commentState : Instance :=
  { stateNew with
    magic := 0x1234
    params := cstr "comment" :: stateNew.params
    vars := [⟨cstr "comment", 0, .string ⟨4, cstr "d" ++ [0, 0, 0], none, .live (cstr "d"), rfl,
      by decide⟩⟩] }

/-- Loading the string `v`; the tree in the storage has no default. -/
def loadComment : StateOp (Device twoBuckets) :=
  let stored := flatVariable (cstr "comment") (cstr "string") 2 (cstr "v" ++ [0, 0, 0])
  .load (directDriver twoBuckets fun _ => none) (replicate 2 ⟨[], 0, false⟩)
    (twoPayloads stored stored) none

/-- A string that was loaded and looked at comes back. -/
theorem dtb_round_trip_comment : DtbRoundTrips (fun _ => []) commentNode none
    (run StateOp.step commentState [loadComment, .get (cstr "comment")]) := by
  have hvars : (run StateOp.step commentState [loadComment, .get (cstr "comment")]).vars
      = [⟨cstr "comment", 0, .string ⟨4, cstr "v" ++ [0, 0, 0], some (cstr "v"), .live (cstr "d"), rfl,
        by decide⟩⟩] := by
    decide +kernel
  refine (dtb_round_trip rfl _ _ _).mpr fun v hv => ?_
  rw [hvars] at hv
  cases mem_singleton.mp hv
  refine ⟨_, rfl, fun v hv => ?_⟩
  cases hv
  rfl

/-- The string is loaded and not looked at: packing writes the default, and
unpacking replaces the string by it. -/
theorem dtb_round_trip_lost :
    ¬ ∀ (ω : Type) (node : Node) (st₀ : Instance), stateFromNodeCreate node stateNew = .ok st₀ →
      ∀ (ops : List (StateOp ω)) (flatten : Node → Bytes) (root : Option Node),
        DtbRoundTrips flatten node root (run StateOp.step st₀ ops) := by
  intro h
  have htrip := h _ commentNode commentState rfl [loadComment] (fun _ => []) none
  obtain ⟨tree, htree, -, hvalues⟩ := (dtbRoundTrips_iff _ _ _ _).mp htrip
  have hlost : ((stateToNode (run StateOp.step commentState [loadComment]) (some commentNode) none
      .toNode).toOption.map fun tree =>
        (stateFromNode tree (run StateOp.step commentState [loadComment])).2.values)
      = some [cstr "d" ++ [0, 0, 0]] := by
    decide +kernel
  have hloaded : (run StateOp.step commentState [loadComment]).values
      = [cstr "v" ++ [0, 0, 0]] := by
    decide +kernel
  rw [htree] at hlost
  have heq : [cstr "d" ++ [0, 0, 0]] = [cstr "v" ++ [0, 0, 0]] :=
    (Option.some.inj hlost).symm.trans (hvalues.trans hloaded)
  revert heq
  decide

end Barebox.State
