import Barebox.State.Convert

/-!
# What `state_from_node` accepts

The walk over a state node as a sequence (`visits`), and what a state that
was created successfully looks like: the variables are sorted by their
start, neighbours pass the overlap check, names are unique, and each
variable has the type its node says. Loading and parameters change values
and leave all of that alone.
-/

namespace Barebox.State

open Lib Of List

/-! ## The walk as a sequence -/

mutual

/-- The nodes in the order they are handled, with their variable names. -/
def visits : Node → Bytes → List (Bytes × Node)
  | .mk name full phandle props children, parentName =>
    visitsAll children (variableName parentName name) ++
      [(variableName parentName name, .mk name full phandle props children)]

def visitsAll : List Node → Bytes → List (Bytes × Node)
  | [], _ => []
  | node :: nodes, parentName => visits node parentName ++ visitsAll nodes parentName

end

/-- Creating, node after node. -/
def createRun : List (Bytes × Node) → Instance → Except Errno Instance
  | [], st => .ok st
  | (name, node) :: l, st =>
    match createAt name node st with
    | .error e => .error e
    | .ok st => createRun l st

/-- The variables of two lists one after the other. -/
theorem createRun_append (l₁ l₂ : List (Bytes × Node)) : ∀ (st : Instance), createRun (l₁ ++ l₂) st
      = match createRun l₁ st with
        | .error e => .error e
        | .ok st => createRun l₂ st := by
  induction l₁ with
  | nil => intro st; rfl
  | cons v l₁ ih =>
    intro st
    obtain ⟨name, node⟩ := v
    rw [cons_append, createRun, createRun]
    cases createAt name node st with
    | error e => rfl
    | ok st => exact ih st

mutual

/-- The recursion over the tree is a run over its nodes in the order they are visited, … -/
theorem convertCreate_eq : ∀ (node : Node) (parentName : Bytes) (st : Instance),
    convertCreate node parentName st = createRun (visits node parentName) st
  | .mk name full phandle props children, parentName, st => by
    rw [convertCreate, visits, createRun_append, convertCreateAll_eq]
    cases createRun (visitsAll children (variableName parentName name)) st with
    | error e => rfl
    | ok st =>
      show createAt _ _ st = createRun [_] st
      rw [createRun]
      cases createAt (variableName parentName name) (.mk name full phandle props children) st with
      | error e => rfl
      | ok st => rfl

theorem convertCreateAll_eq : ∀ (nodes : List Node) (parentName : Bytes) (st : Instance),
    convertCreateAll nodes parentName st = createRun (visitsAll nodes parentName) st
  | [], _, _ => rfl
  | node :: nodes, parentName, st => by
    rw [convertCreateAll, visitsAll, createRun_append, convertCreate_eq node]
    cases createRun (visits node parentName) st with
    | error e => rfl
    | ok st => exact convertCreateAll_eq nodes parentName st

end

/-- Importing, node after node. -/
def importRun : List (Bytes × Node) → List Variable → Ret × List Variable
  | [], vars => (.ok, vars)
  | (name, node) :: l, vars =>
    match importAt name node vars with
    | (.err e, vars) => (.err e, vars)
    | (.ok, vars) => importRun l vars

theorem importRun_append (l₁ l₂ : List (Bytes × Node)) : ∀ (vars : List Variable),
    importRun (l₁ ++ l₂) vars
      = match importRun l₁ vars with
        | (.err e, vars) => (.err e, vars)
        | (.ok, vars) => importRun l₂ vars := by
  induction l₁ with
  | nil => intro vars; rfl
  | cons v l₁ ih =>
    intro vars
    obtain ⟨name, node⟩ := v
    rw [cons_append, importRun, importRun]
    rcases importAt name node vars with ⟨_ | e, vars⟩
    · exact ih vars
    · rfl

mutual

/-- … and so is the import. -/
theorem convertFrom_eq : ∀ (node : Node) (parentName : Bytes) (vars : List Variable),
    convertFrom node parentName vars = importRun (visits node parentName) vars
  | .mk name full phandle props children, parentName, vars => by
    rw [convertFrom, visits, importRun_append, convertFromAll_eq]
    rcases importRun (visitsAll children (variableName parentName name)) vars with ⟨_ | e, vars⟩
    · show importAt _ _ vars = importRun [_] vars
      rw [importRun]
      rcases importAt (variableName parentName name) (.mk name full phandle props children) vars with ⟨_ | e, vars⟩ <;> rfl
    · rfl

theorem convertFromAll_eq : ∀ (nodes : List Node) (parentName : Bytes) (vars : List Variable),
    convertFromAll nodes parentName vars = importRun (visitsAll nodes parentName) vars
  | [], _, _ => rfl
  | node :: nodes, parentName, vars => by
    rw [convertFromAll, visitsAll, importRun_append, convertFrom_eq node]
    rcases importRun (visits node parentName) vars with ⟨_ | e, vars⟩
    · exact convertFromAll_eq nodes parentName vars
    · rfl

end

/-! ## Importing keeps type and size -/

theorem VarData.setWords_type (d : VarData) (w : UInt32 × UInt32) : (d.setWords w).type = d.type := by
  cases d <;> rfl

theorem VarData.setWords_size (d : VarData) (w : UInt32 × UInt32) : (d.setWords w).size = d.size := by
  cases d <;> rfl

/-- `state_string_copy_to_raw` writes `raw` and nothing else. -/
theorem stateStringCopyToRaw_ok {s s' : StateString} {src : Bytes}
    (h : stateStringCopyToRaw s src = .ok s') :
    s'.raw = src ++ replicate (s.size - src.length) 0 ∧ s'.size = s.size ∧
      s'.value = s.value ∧ s'.valueDefault = s.valueDefault := by
  unfold stateStringCopyToRaw at h
  split at h
  · cases h
    exact ⟨rfl, rfl, rfl, rfl⟩
  · cases h

variable {node : Node} {st : Instance} {name : Bytes}

/-- Behind a default that fits, importing copies what there is to copy. -/
theorem stateStringImport_eq {s : StateString} {owner : Owner} {d : Option Bytes}
    (hd : (s.importDefault node owner).valueDefault.deref = .ok d)
    (hfits : ∀ x, d = some x → x.length ≤ (s.importDefault node owner).size) : stateStringImport s node owner
      = (s.importDefault node owner).copyOrKeep (importedValue node d) := by
  unfold stateStringImport
  dsimp only
  rw [hd]
  dsimp only
  rw [if_neg]
  cases d with
  | none => simp
  | some x => simpa using hfits x rfl

section

variable (s : StateString) (node : Node) (owner : Owner)

/-- What importing a string does: fail behind the default, find nothing to
import, or copy a value to `raw`. -/
theorem stateStringImport_cases : (∃ e, stateStringImport s node owner = (.err e, s.importDefault node owner)) ∨
    ∃ d, (s.importDefault node owner).valueDefault.deref = .ok d ∧
      (∀ x, d = some x → x.length ≤ (s.importDefault node owner).size) ∧
      ((importedValue node d = none ∧
          stateStringImport s node owner = (.ok, s.importDefault node owner)) ∨
        ∃ v s', importedValue node d = some v ∧
          stateStringCopyToRaw (s.importDefault node owner) v = .ok s' ∧
          stateStringImport s node owner = (.ok, s')) := by
  cases hd : (s.importDefault node owner).valueDefault.deref with
  | error e =>
    refine Or.inl ⟨e, ?_⟩
    unfold stateStringImport
    dsimp only
    rw [hd]
  | ok d =>
    by_cases hfits : ∀ x, d = some x → x.length ≤ (s.importDefault node owner).size
    · rw [stateStringImport_eq hd hfits]
      cases hv : importedValue node d with
      | none => exact Or.inr ⟨d, rfl, hfits, Or.inl ⟨hv, rfl⟩⟩
      | some v =>
        unfold StateString.copyOrKeep
        dsimp only
        split
        · next s' hc => exact Or.inr ⟨d, rfl, hfits, Or.inr ⟨v, s', hv, hc, rfl⟩⟩
        · next e _ => exact Or.inl ⟨e, rfl⟩
    · -- the default is longer than the variable
      refine Or.inl ⟨.EILSEQ, ?_⟩
      unfold stateStringImport
      dsimp only
      rw [hd]
      dsimp only
      rw [if_pos]
      cases d with
      | none => exact absurd (nofun) hfits
      | some x =>
        simp only [Option.any_some, decide_eq_true_eq]
        refine Nat.lt_of_not_le fun hle => hfits fun y hy => ?_
        cases hy
        exact hle

theorem StateString.importDefault_size : (s.importDefault node owner).size = s.size := by
  unfold StateString.importDefault
  split <;> rfl

theorem StateString.importDefault_value : (s.importDefault node owner).value = s.value := by
  unfold StateString.importDefault
  split <;> rfl

/-- Of the fields of a string only `raw` and `value_default` are imported. -/
theorem stateStringImport_keeps : (stateStringImport s node owner).2.size = s.size ∧
      (stateStringImport s node owner).2.value = s.value ∧
      (stateStringImport s node owner).2.valueDefault = (s.importDefault node owner).valueDefault := by
  have hsize := s.importDefault_size node owner
  have hvalue := s.importDefault_value node owner
  rcases stateStringImport_cases s node owner with
    ⟨e, h⟩ | ⟨d, -, -, ⟨-, h⟩ | ⟨v, s', -, hcopy, h⟩⟩
  · rw [h]
    exact ⟨hsize, hvalue, rfl⟩
  · rw [h]
    exact ⟨hsize, hvalue, rfl⟩
  · obtain ⟨-, hs, hv, hd⟩ := stateStringCopyToRaw_ok hcopy
    rw [h]
    exact ⟨hs.trans hsize, hv.trans hvalue, hd⟩

end

/-- Importing changes neither the type nor the size of a variable. -/
theorem importFrom_type_size (t : VarType) (d : VarData) (node : Node) (owner : Owner) :
    (t.importFrom d node owner).2.type = d.type ∧ (t.importFrom d node owner).2.size = d.size := by
  unfold VarType.importFrom
  split
  · exact ⟨rfl, rfl⟩
  · next s => exact ⟨rfl, (stateStringImport_keeps s node owner).1⟩
  · split
    · exact ⟨rfl, rfl⟩
    · split
      · exact ⟨d.setWords_type _, d.setWords_size _⟩
      · exact ⟨rfl, rfl⟩
  · split
    · exact ⟨rfl, rfl⟩
    · exact ⟨d.setWords_type _, d.setWords_size _⟩
  · split
    · exact ⟨rfl, rfl⟩
    · exact ⟨d.setWords_type _, d.setWords_size _⟩
  · exact ⟨rfl, rfl⟩

/-! ## Created states -/

/-- A new variable has the type asked for, and its name was not taken. -/
theorem create_spec {t : VarType} {d : VarData}
    (h : t.create st name node = .ok d) : d.type = t ∧ name ∉ st.params := by
  have hadd : ∀ {d₀ : VarData}, (if name ∈ st.params then .error .EEXIST else .ok d₀ :
      Except Errno VarData) = .ok d → d₀.type = t → d.type = t ∧ name ∉ st.params := by
    intro d₀ h htype
    split at h
    · cases h
    · next hfree =>
      cases h
      exact ⟨htype, hfree⟩
  unfold VarType.create at h
  cases t with
  | uint8 => exact hadd h rfl
  | uint32 => exact hadd h rfl
  | enum32 =>
    dsimp only at h
    split at h
    · cases h
    · exact hadd h rfl
  | mac => exact hadd h rfl
  | string =>
    dsimp only at h
    split at h
    · cases h
    · split at h
      · exact hadd h rfl
      · cases h

variable {st' st₀ : Instance}

/-- What creating does at a node: nothing, if the node has no type, or a
new variable, imported from the node it is created for. -/
theorem createAt_cases (h : createAt name node st = .ok st') : (nodeType node = .ok none ∧ st' = st) ∨
    ∃ t start d₀ d, nodeType node = .ok (some t) ∧ t.create st name node = .ok d₀ ∧
      t.importFrom d₀ node .live = (.ok, d) ∧
      st' = { st with
        params := name :: st.params
        vars := stateAddVar ⟨name, start, d⟩ st.vars } := by
  unfold createAt at h
  split at h
  · cases h
  · next hty =>
    cases h
    exact Or.inl ⟨hty, rfl⟩
  · next t hty =>
    split at h
    · cases h
    next d₀ hcreate =>
    split at h
    · cases h
    next start size hreg =>
    split at h
    · cases h
    split at h
    · cases h
    · next d himp =>
      cases h
      exact Or.inr ⟨t, start, d₀, d, hty, hcreate, himp, rfl⟩

/-- The typed nodes of a walk: names and types. -/
def typedNodes (l : List (Bytes × Node)) : List (Bytes × VarType) :=
  l.filterMap fun v =>
    match nodeType v.2 with
    | .ok (some t) => some (v.1, t)
    | _ => none

def Variable.signature (v : Variable) : Bytes × VarType := (v.name, v.data.type)

/-- What creating has established after the nodes `l`. -/
structure CreateInv (l : List (Bytes × Node)) (st : Instance) : Prop where
  sorted : st.vars.Pairwise fun a b => a.start.toNat ≤ b.start.toNat
  names : ∀ v ∈ st.vars, v.name ∈ st.params
  nodup : (st.vars.map Variable.name).Nodup
  typed : (st.vars.map Variable.signature).Perm (typedNodes l)
  ok : ∀ v ∈ l, ∃ o, nodeType v.2 = .ok o

theorem stateAddVar_perm (v : Variable) (vars : List Variable) :
    (stateAddVar v vars).Perm (v :: vars) :=
  perm_orderedInsert _ v vars

theorem stateAddVar_sorted {v : Variable} {vars : List Variable}
    (h : vars.Pairwise fun a b => a.start.toNat ≤ b.start.toNat) :
    (stateAddVar v vars).Pairwise fun a b => a.start.toNat ≤ b.start.toNat := by
  refine orderedInsert_pairwise ?_ ?_ ?_ h
  · intro y hy
    have hlt : y.start < v.start := Decidable.not_not.mp hy
    exact Nat.le_of_lt (UInt32.lt_iff_toNat_lt.mp hlt)
  · intro y hy
    exact Nat.le_of_not_lt fun hlt => hy (UInt32.lt_iff_toNat_lt.mpr hlt)
  · intro y z hy hyz
    refine Nat.le_trans (Nat.le_of_not_lt fun hlt => ?_) hyz
    exact hy (UInt32.lt_iff_toNat_lt.mpr hlt)

theorem typedNodes_append (l₁ l₂ : List (Bytes × Node)) : typedNodes (l₁ ++ l₂) = typedNodes l₁ ++ typedNodes l₂ :=
  filterMap_append ..

variable {l : List (Bytes × Node)}

/-- One more node. -/
theorem CreateInv.step
    (hinv : CreateInv l st) (h : createAt name node st = .ok st') : CreateInv (l ++ [(name, node)]) st' := by
  have hok : ∀ {o}, nodeType node = .ok o →
      ∀ v ∈ l ++ [(name, node)], ∃ o, nodeType v.2 = .ok o := by
    exact fun ho => forall_mem_append.mpr ⟨hinv.ok, forall_mem_singleton.mpr ⟨_, ho⟩⟩
  rcases createAt_cases h with ⟨hty, rfl⟩ | ⟨t, start, d₀, d, hty, hcreate, himp, rfl⟩
  · -- a node without a type makes no variable
    refine ⟨hinv.sorted, hinv.names, hinv.nodup, ?_, hok hty⟩
    have htail : typedNodes [(name, node)] = [] := by
      simp only [typedNodes, filterMap_cons, filterMap_nil, hty]
    rw [typedNodes_append, htail, append_nil]
    exact hinv.typed
  · obtain ⟨hd₀, hfree⟩ := create_spec hcreate
    have hd : d.type = t := by
      have htype := (importFrom_type_size t d₀ node .live).1
      rw [himp] at htype
      exact htype.trans hd₀
    have hperm := stateAddVar_perm ⟨name, start, d⟩ st.vars
    refine ⟨stateAddVar_sorted hinv.sorted, ?_, ?_, ?_, hok hty⟩
    · simp only [hperm.mem_iff, forall_mem_cons]
      exact ⟨mem_cons_self, fun v hv => mem_cons_of_mem _ (hinv.names v hv)⟩
    · -- a name that was free is new among the variables as well
      have hnew : name ∉ st.vars.map Variable.name := by
        intro hmem
        obtain ⟨v, hv, rfl⟩ := mem_map.mp hmem
        exact hfree (hinv.names v hv)
      refine (hperm.map Variable.name).nodup_iff.mpr ?_
      exact nodup_cons.mpr ⟨hnew, hinv.nodup⟩
    · have htail : typedNodes [(name, node)] = [(name, t)] := by
        simp only [typedNodes, filterMap_cons, filterMap_nil, hty]
      rw [typedNodes_append, htail]
      have hsig : Variable.signature ⟨name, start, d⟩ = (name, t) := by
        rw [Variable.signature, hd]
      calc ((stateAddVar ⟨name, start, d⟩ st.vars).map Variable.signature).Perm
            ((⟨name, start, d⟩ :: st.vars).map Variable.signature) := hperm.map _
        _ = (name, t) :: st.vars.map Variable.signature := by rw [map_cons, hsig]
        List.Perm _ ((name, t) :: typedNodes l) := hinv.typed.cons _
        List.Perm _ (typedNodes l ++ [(name, t)]) := (perm_append_singleton _ _).symm

/-- The invariant of the creation, along the run. -/
theorem CreateInv.run : ∀ {l₀ : List (Bytes × Node)} {st st' : Instance},
    CreateInv l₀ st → createRun l st = .ok st' → CreateInv (l₀ ++ l) st' := by
  induction l with
  | nil =>
    intro l₀ st st' hinv h
    cases h
    rw [append_nil]
    exact hinv
  | cons v l ih =>
    intro l₀ st st' hinv h
    rw [createRun] at h
    split at h
    · cases h
    · next st₁ hat =>
      have := ih (hinv.step hat) h
      rwa [append_assoc] at this

/-- A state that `state_from_node` has created from `node`. -/
structure Created (node : Node) (st : Instance) : Prop where
  inv : CreateInv (visitsAll node.children []) st
  overlap : overlapFree st.vars = true

/-- Creating is the run over the nodes, and the check. -/
theorem createRun_of_stateFromNodeCreate (h : stateFromNodeCreate node st₀ = .ok st) :
    (∃ magic, createRun (visitsAll node.children []) { st₀ with magic := magic } = .ok st)
      ∧ overlapFree st.vars = true := by
  unfold stateFromNodeCreate at h
  split at h
  · cases h
  next magic hmagic =>
  rw [convertCreateAll_eq] at h
  split at h
  · cases h
  next st₁ hrun =>
  split at h
  · next hov =>
    cases h
    exact ⟨⟨magic, hrun⟩, hov⟩
  · cases h

theorem created_of_stateFromNodeCreate (h₀ : st₀.vars = [])
    (h : stateFromNodeCreate node st₀ = .ok st) : Created node st := by
  obtain ⟨⟨magic, hrun⟩, hov⟩ := createRun_of_stateFromNodeCreate h
  have hstart : CreateInv [] { st₀ with magic := magic } := by
    refine ⟨?_, ?_, ?_, ?_, ?_⟩
    all_goals simp [h₀, typedNodes]
  exact ⟨hstart.run hrun, hov⟩

/-! ## Where the variables lie -/

/-- Variables that end below `2 ^ 32` and pass the overlap check do not
overlap: the check's arithmetic has not wrapped around. -/
theorem disjoint_of_overlapFree : ∀ {vars : List Variable}, overlapFree vars = true →
    (vars.Pairwise fun a b => a.start.toNat ≤ b.start.toNat) →
    (∀ v ∈ vars, v.start.toNat + v.data.size < 2 ^ 32) →
    vars.Pairwise fun a b => a.start.toNat + a.data.size ≤ b.start.toNat
  | [], _, _, _ => List.Pairwise.nil
  | [_], _, _, _ => pairwise_singleton _ _
  | a :: b :: vs, hov, hsort, hlt => by
    simp only [overlapFree, Bool.and_eq_true, decide_eq_true_eq] at hov
    obtain ⟨hab, hsort'⟩ := pairwise_cons.mp hsort
    have hrest := disjoint_of_overlapFree hov.2 hsort'
      fun v hv => hlt v (mem_cons_of_mem _ hv)
    have ha := hlt a (mem_cons_self)
    have hnext : a.start.toNat + a.data.size ≤ b.start.toNat := by
      omega
    refine pairwise_cons.mpr ⟨forall_mem_cons.mpr ⟨hnext, fun v hv => ?_⟩, hrest⟩
    exact Nat.le_trans hnext ((pairwise_cons.mp hsort').1 v hv)

end Barebox.State
