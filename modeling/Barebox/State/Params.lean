import Barebox.State.Load
import Barebox.State.Layout
import Barebox.Lib.Run

/-!
# A state in use

After a state has been created it is loaded, and its variables are set and
read through their parameters. This file has the callbacks of the
parameters, the life of a state as a sequence of such calls
(`StateOp.step`), and what every state reached that way has in common
(`Sound`): the variables are those of the node the state was created from,
and the two copies a string variable has besides `raw` are proper C
strings.

Mirroring notes:
- the parameters of the state itself (`dirty`, `save_on_shutdown`,
  `init_from_defaults`) do not touch a variable and are left out.
- a parameter value is a C string; it has no NUL in it.
- reading a string variable of size 0 looks at a byte behind the buffer.
-/

namespace Barebox.State

open Lib Of List

/-! ## Callbacks -/

/-- `state_set_dirty`; what the owner keeps is `state->dirty`. -/
def stateSetDirty {α : Type} (_ : α) (_ : Bool) : Ret × Bool := (.ok, true)

def stateUint8Set (value : UInt32) (dirty : Bool) : Ret × Bool :=
  if value > 255 then (.err .ERANGE, dirty) else stateSetDirty value dirty

def stateStringSet (value : Option Bytes) (owner : StateString × Bool) : Ret × StateString × Bool :=
  match value with
  | none => (.err .EFAULT, owner)
  | some value =>
    match stateStringCopyToRaw owner.1 value with
    | .error e => (.err e, owner)
    | .ok s =>
      let (r, dirty) := stateSetDirty value owner.2
      (r, s, dirty)

def stateStringGet (s : StateString) : Except Errno StateString :=
  match s.raw with
  | [] => .error .EFAULT
  | b :: raw =>
    if b ≠ 0 then .ok { s with value := some ((b :: raw).takeWhile (· ≠ 0)) }
    else .ok { s with value := some [] }

/-! ## Setting and reading a variable -/

/-- `param->set` of the variable's parameter. -/
def VarData.setParam (d : VarData) (val : Option Bytes) (dirty : Bool) : Ret × VarData × Bool :=
  match d with
  | .uint8 v df =>
    let (r, v, dirty) := paramIntSet stateUint8Set v val dirty
    (r, .uint8 v df, dirty)
  | .uint32 v df =>
    let (r, v, dirty) := paramIntSet stateSetDirty v val dirty
    (r, .uint32 v df, dirty)
  | .enum32 v df names =>
    let (r, v, dirty) := paramEnumSet names stateSetDirty v val dirty
    (r, .enum32 v df names, dirty)
  | .mac v df =>
    let (r, v, dirty) := paramMacSet stateSetDirty v val dirty
    (r, .mac v df, dirty)
  | .string s =>
    let (r, value, s, dirty) := paramStringSet stateStringSet s.value val (s, dirty)
    (r, .string { s with value := value }, dirty)

/-- `param->get`: only a string's does anything. -/
def VarData.getParam : VarData → VarData
  | .string s =>
    match stateStringGet s with
    | .ok s => .string s
    | .error _ => .string s
  | d => d

/-! ## The life of a state -/

/-- `dev_set_param` for the parameter of a variable. -/
def stateSetParam (st : Instance) (name : Bytes) (val : Option Bytes) : Ret × Instance :=
  match stateFindVar st.vars name with
  | none => (.err .EINVAL, st)
  | some v =>
    let (r, d, dirty) := v.data.setParam val st.dirty
    (r, { st with vars := setData name d st.vars, dirty := dirty })

/-- `dev_get_param` for the parameter of a variable. -/
def stateGetParam (st : Instance) (name : Bytes) : Instance :=
  match stateFindVar st.vars name with
  | none => st
  | some v => { st with vars := setData name v.data.getParam st.vars }

/-- What happens to a state: `state_load` in the dtb format, from any
storage and with any tree in the format object, and its parameters. -/
inductive StateOp (ω : Type) where
  | load (drv : Driver ω) (buckets : List Bucket) (world : ω) (root : Option Node)
  | set (name : Bytes) (val : Option CString)
  | get (name : Bytes)

def StateOp.step {ω : Type} (st : Instance) : StateOp ω → Instance
  | .load drv bs w root => (stateDoLoad drv (BackendFormat.dtb.format st.magic) bs w root st).st
  | .set name val => (stateSetParam st name (val.map Subtype.val)).2
  | .get name => stateGetParam st name

/-! ## Looking variables up -/

variable {name : Bytes} {s : StateString} {st : Instance} {node : Node}
variable {v : Variable} {d : VarData} {sig : List (Bytes × VarType)} {ω : Type}

theorem stateFindVar_some {vars : List Variable}
    (h : stateFindVar vars name = some v) : v ∈ vars ∧ v.name = name := by
  refine ⟨mem_of_find?_eq_some h, ?_⟩
  have := find?_some h
  simpa using this

/-- Setting a value touches one variable, … -/
theorem mem_setData : ∀ {vars : List Variable}, v ∈ setData name d vars → v ∈ vars ∨ v.data = d
  | [], h => Or.inl h
  | w :: vars, h => by
    rw [setData] at h
    split at h
    · rcases mem_cons.mp h with rfl | h
      · exact Or.inr rfl
      · exact Or.inl (mem_cons_of_mem _ h)
    · rcases mem_cons.mp h with rfl | h
      · exact Or.inl (mem_cons_self)
      · exact (mem_setData h).imp (mem_cons_of_mem _) id

/-- … and not its name and type. -/
theorem setData_signature (hd : d.type = v.data.type) :
    ∀ {vars : List Variable}, stateFindVar vars name = some v →
      (setData name d vars).map Variable.signature = vars.map Variable.signature
  | [], _ => rfl
  | w :: vars, h => by
    unfold stateFindVar at h
    rw [setData]
    by_cases hw : w.name = name
    · rw [find?_cons_of_pos (by simpa using hw)] at h
      cases h
      rw [if_pos hw, map_cons, map_cons, Variable.signature, Variable.signature, hd]
    · rw [find?_cons_of_neg (by simpa using hw)] at h
      rw [if_neg hw, map_cons, map_cons, setData_signature hd h]

/-! ## What stays -/

/-- The two other copies a string variable has are C strings, and the
default of the live tree fits. -/
structure StateString.CStrings (s : StateString) : Prop where
  value : ∀ v, s.value = some v → (0 : UInt8) ∉ v
  live : ∀ d, s.valueDefault = .live d → (0 : UInt8) ∉ d ∧ d.length ≤ s.size

def VarData.CStrings : VarData → Prop
  | .string s => s.CStrings
  | _ => True

/-- No pointer into a tree that is about to be freed. -/
def VarData.Settled : VarData → Prop
  | .string s => ∀ d, s.valueDefault ≠ .scratch d
  | _ => True

/-- What holds of a state in use, whatever was done to it. -/
structure Sound (signature : List (Bytes × VarType)) (st : Instance) : Prop where
  signature : st.vars.map Variable.signature = signature
  cstrings : ∀ v ∈ st.vars, v.data.CStrings
  settled : ∀ v ∈ st.vars, v.data.Settled

/-- `raw` and `value` can be changed. -/
theorem StateString.CStrings.update {s' : StateString} (h : s.CStrings)
    (hvalue : ∀ v, s'.value = some v → s.value = some v ∨ (0 : UInt8) ∉ v)
    (hd : s'.valueDefault = s.valueDefault) (hsize : s'.size = s.size) : s'.CStrings := by
  refine ⟨?_, ?_⟩
  · intro v hv
    rcases hvalue v hv with hv | hv
    · exact h.value v hv
    · exact hv
  · intro d hlive
    rw [hd] at hlive
    rw [hsize]
    exact h.live d hlive

/-- What a parameter set leaves of a string variable. -/
theorem setParam_string (s : StateString) (val : Option Bytes) (dirty : Bool) :
    ∃ s' dirty', ((VarData.string s).setParam val dirty).2 = (.string s', dirty') ∧
      s'.size = s.size ∧ s'.valueDefault = s.valueDefault ∧
      (s'.value = s.value ∨ s'.value = some (strim (val.getD []))) := by
  have hset : ∀ value, (stateStringSet value (s, dirty)).2.1.size = s.size ∧
      (stateStringSet value (s, dirty)).2.1.valueDefault = s.valueDefault := by
    intro value
    unfold stateStringSet
    split
    · exact ⟨rfl, rfl⟩
    split
    · exact ⟨rfl, rfl⟩
    · next hcopy =>
      obtain ⟨-, hsize, -, hd⟩ := stateStringCopyToRaw_ok hcopy
      exact ⟨hsize, hd⟩
  have hfields : ∀ x, paramStringSet stateStringSet s.value val (s, dirty) = x →
      x.2.2.1.size = s.size ∧ x.2.2.1.valueDefault = s.valueDefault ∧
        (x.2.1 = s.value ∨ x.2.1 = some (strim (val.getD []))) := by
    rintro x rfl
    unfold paramStringSet
    rcases paramSet_cases parseString stateStringSet s.value val (s, dirty) with
      ⟨e, h⟩ | ⟨e, new, owner, hparse, hcb, h⟩ | ⟨new, owner, hparse, hcb, h⟩
    · rw [h]
      exact ⟨rfl, rfl, Or.inl rfl⟩
    · have howner := hset new
      rw [hcb] at howner
      rw [h]
      exact ⟨howner.1, howner.2, Or.inl rfl⟩
    · have howner := hset new
      rw [hcb] at howner
      cases hparse
      rw [h]
      exact ⟨howner.1, howner.2, Or.inr rfl⟩
  exact ⟨_, _, rfl, hfields _ rfl⟩

/-- Setting a parameter keeps the variable's type and its strings cstrings. -/
theorem setParam_keeps (d : VarData) (val : Option CString) (dirty : Bool) :
    (d.setParam (val.map Subtype.val) dirty).2.1.type = d.type ∧
      (d.CStrings → (d.setParam (val.map Subtype.val) dirty).2.1.CStrings) ∧
      (d.Settled → (d.setParam (val.map Subtype.val) dirty).2.1.Settled) := by
  cases d with
  | string s =>
    obtain ⟨s', dirty', h, hsize, hd, hvalue⟩ := setParam_string s (val.map Subtype.val) dirty
    rw [h]
    refine ⟨rfl, ?_, ?_⟩
    · intro hcstr
      refine StateString.CStrings.update hcstr ?_ hd hsize
      intro v hv
      rcases hvalue with hold | hnew
      · exact Or.inl (hold ▸ hv)
      cases hnew.symm.trans hv
      refine Or.inr fun hzero => ?_
      have hmem := mem_of_mem_strim hzero
      cases val with
      | none => exact not_mem_nil hmem
      | some val => exact val.2 hmem
    · intro hset d
      rw [hd]
      exact hset d
  | _ => exact ⟨rfl, fun _ => trivial, fun _ => trivial⟩

/-- Getting a parameter copies strings that are C strings already, … -/
theorem getParam_keeps (d : VarData) :
    d.getParam.type = d.type ∧ (d.CStrings → d.getParam.CStrings) ∧ (d.Settled → d.getParam.Settled) := by
  cases d with
  | string s =>
    have hget : ∀ s', stateStringGet s = .ok s' →
        ∃ v, s' = { s with value := some v } ∧ (0 : UInt8) ∉ v := by
      intro s' h
      unfold stateStringGet at h
      split at h
      · cases h
      split at h
      · cases h
        exact ⟨_, rfl, zero_not_mem_takeWhile _⟩
      · cases h
        exact ⟨[], rfl, not_mem_nil⟩
    simp only [VarData.getParam]
    split
    · next s' h =>
      obtain ⟨v, rfl, hv⟩ := hget s' h
      refine ⟨rfl, fun hcstr => ?_, fun hset => hset⟩
      refine StateString.CStrings.update hcstr ?_ rfl rfl
      rintro w hw
      cases hw
      exact Or.inr hv
    · exact ⟨rfl, id, id⟩
  | _ => exact ⟨rfl, fun _ => trivial, fun _ => trivial⟩

/-- Importing keeps strings cstrings; what it may leave is a pointer into the
imported tree. -/
theorem importFrom_cstrings (t : VarType) (d : VarData) (node : Node) (hd : d.CStrings) :
    (t.importFrom d node .scratch).2.CStrings := by
  have hwords : ∀ w, (d.setWords w).CStrings := by
    intro w
    cases d <;> exact hd
  unfold VarType.importFrom
  split
  · trivial
  · next s =>
    obtain ⟨hsize, hvalue, hdefault⟩ := stateStringImport_keeps s node .scratch
    refine ⟨fun v hv => hd.value v (hvalue ▸ hv), fun x hx => ?_⟩
    rw [hdefault] at hx
    unfold StateString.importDefault at hx
    split at hx
    · cases hx
    · rw [show (stateStringImport s node .scratch).2.size = s.size from hsize]
      exact hd.live x hx
  · split
    · exact hd
    · split
      · exact hwords _
      · exact hd
  · split
    · exact hd
    · exact hwords _
  · split
    · exact hd
    · exact hwords _
  · exact hd

/-- The invariant rule for an import: importing one variable keeps it. -/
theorem importRun_inv {P : List Variable → Prop}
    (hstep : ∀ vars name v (t : VarType) node, P vars → stateFindVar vars name = some v →
      P (setData name (t.importFrom v.data node .scratch).2 vars)) :
    ∀ (l : List (Bytes × Node)) {vars : List Variable}, P vars → P (importRun l vars).2
  | [], _, h => h
  | (name, node) :: l, vars, h => by
    have hat : P (importAt name node vars).2 := by
      unfold importAt
      split
      · exact h
      · exact h
      · next t _ =>
        split
        · exact h
        · next v hv => exact hstep vars name v t node h hv
    rw [importRun]
    split
    · next heq => rw [heq] at hat; exact hat
    · next heq => rw [heq] at hat; exact importRun_inv hstep l hat

/-- … and freeing a tree leaves no pointer into it. -/
theorem freed_keeps (d : VarData) :
    d.freed.type = d.type ∧ (d.CStrings → d.freed.CStrings) ∧ d.freed.Settled := by
  cases d with
  | string s =>
    refine ⟨rfl, fun hcstr => ⟨hcstr.value, fun x hx => ?_⟩, fun x hx => ?_⟩
    · refine hcstr.live x ?_
      cases hdef : s.valueDefault with
      | live y => simpa [CharPtr.freed, hdef] using hx
      | _ => simp [CharPtr.freed, hdef] at hx
    · cases hdef : s.valueDefault <;> simp [CharPtr.freed, hdef] at hx
  | _ => exact ⟨rfl, fun _ => trivial, trivial⟩

section

variable (h : Sound sig st)
include h

/-- Importing a tree and freeing it. -/
theorem Sound.importTree (root : Option Node) : Sound sig (importTree root st).2 := by
  unfold State.importTree
  split
  · exact h
  next root =>
  -- an import keeps names and types and leaves a C string in each variable
  have hrun : ∀ l : List (Bytes × Node), (importRun l st.vars).2.map Variable.signature = sig ∧
      ∀ v ∈ (importRun l st.vars).2, v.data.CStrings := by
    intro l
    refine importRun_inv (P := fun vars => vars.map Variable.signature = sig ∧
      ∀ v ∈ vars, v.data.CStrings) ?_ l ⟨h.signature, h.cstrings⟩
    rintro vars name v t node ⟨hsig, hcstr⟩ hv
    have htype := (importFrom_type_size t v.data node .scratch).1
    refine ⟨(setData_signature htype hv).trans hsig, fun w hw => ?_⟩
    rcases mem_setData hw with hw | hw
    · exact hcstr w hw
    · rw [hw]
      exact importFrom_cstrings t v.data node (hcstr v (stateFindVar_some hv).1)
  have hnode : (stateFromNode root st).2.vars.map Variable.signature = sig ∧
      ∀ v ∈ (stateFromNode root st).2.vars, v.data.CStrings := by
    unfold stateFromNode
    split
    · exact ⟨h.signature, h.cstrings⟩
    split
    · exact ⟨h.signature, h.cstrings⟩
    · rw [convertFromAll_eq]
      exact hrun _
  refine ⟨?_, ?_, ?_⟩
  · show ((stateFromNode root st).2.vars.map _).map Variable.signature = sig
    rw [map_map, ← hnode.1]
    refine map_congr_left fun v _ => ?_
    show (v.name, v.data.freed.type) = (v.name, v.data.type)
    rw [(freed_keeps v.data).1]
  · intro v hv
    obtain ⟨w, hw, rfl⟩ := mem_map.mp hv
    exact (freed_keeps w.data).2.1 (hnode.2 w hw)
  · intro v hv
    obtain ⟨w, hw, rfl⟩ := mem_map.mp hv
    exact (freed_keeps w.data).2.2

/-- A variable gets new data of its own type. -/
theorem Sound.setData (hv : stateFindVar st.vars name = some v) (dirty : Bool)
    (hd : d.type = v.data.type ∧ (v.data.CStrings → d.CStrings) ∧ (v.data.Settled → d.Settled)) :
    Sound sig { st with vars := setData name d st.vars, dirty := dirty } := by
  obtain ⟨htype, hcstr, hsettled⟩ := hd
  have hmem := (stateFindVar_some hv).1
  refine ⟨(setData_signature htype hv).trans h.signature, fun w hw => ?_, fun w hw => ?_⟩
  · rcases mem_setData hw with hw | hw
    · exact h.cstrings w hw
    · rw [hw]
      exact hcstr (h.cstrings v hmem)
  · rcases mem_setData hw with hw | hw
    · exact h.settled w hw
    · rw [hw]
      exact hsettled (h.settled v hmem)

/-- Only the variables matter. -/
theorem Sound.of_vars {st' : Instance} (heq : st'.vars = st.vars) : Sound sig st' :=
  ⟨heq ▸ h.signature, heq ▸ h.cstrings, heq ▸ h.settled⟩

omit h in
/-- As far as the variables are concerned, loading is importing a tree. -/
theorem stateDoLoad_dtb_vars (drv : Driver ω) (bs : List Bucket) (w : ω)
    (root : Option Node) (st : Instance) :
    ∃ tree, (stateDoLoad drv (BackendFormat.dtb.format st.magic) bs w root st).st.vars
      = (importTree tree st).2.vars := by
  unfold stateDoLoad
  dsimp only
  split
  · exact ⟨none, rfl⟩
  split
  · exact ⟨none, rfl⟩
  next payload _ =>
  generalize (stateStorageRead drv (BackendFormat.dtb.format st.magic).toFormat bs w root).mem = mem
  generalize (stateStorageRead drv (BackendFormat.dtb.format st.magic).toFormat bs w root).format = f
  have hunpack : ∀ x, (BackendFormat.dtb.format st.magic).unpack f st mem payload.length = x →
      ∃ tree, x.2.1.vars = (importTree tree st).2.vars := by
    rintro x rfl
    exact ⟨_, rfl⟩
  split
  · next heq => exact hunpack _ heq
  · next heq => exact hunpack _ heq

/-- One call. -/
theorem Sound.step (op : StateOp ω) : Sound sig (op.step st) := by
  cases op with
  | load drv bs w root =>
    obtain ⟨tree, hvars⟩ := stateDoLoad_dtb_vars drv bs w root st
    exact (h.importTree tree).of_vars hvars
  | set name val =>
    show Sound sig (stateSetParam st name (val.map Subtype.val)).2
    unfold stateSetParam
    split
    · exact h
    · next v hv => exact h.setData hv _ (setParam_keeps v.data val st.dirty)
  | get name =>
    show Sound sig (stateGetParam st name)
    unfold stateGetParam
    split
    · exact h
    · next v hv => exact h.setData hv _ (getParam_keeps v.data)

/-- A sequence of calls. -/
theorem Sound.run (ops : List (StateOp ω)) : Sound sig (run StateOp.step st ops) :=
  run_inv (fun _ op h _ => h.step op) ops (Along.of_forall ops st fun _ _ => trivial) h

end

/-! ## Created states -/

/-- Importing a string that has no other copies yet from the live tree. -/
theorem stateStringImport_live {s' : StateString} (hvalue : s.value = none)
    (hnull : s.valueDefault = .null) (h : stateStringImport s node .live = (.ok, s')) :
    (VarData.string s').CStrings ∧ (VarData.string s').Settled := by
  obtain ⟨hsize, hval, hdef⟩ := stateStringImport_keeps s node .live
  rw [h] at hsize hval hdef
  have hptr : s'.valueDefault = .null ∨
      ∃ d, ofPropertyReadString node (cstr "default") = .ok d ∧ s'.valueDefault = .live d := by
    rw [hdef]
    unfold StateString.importDefault
    split
    · next d hd => exact Or.inr ⟨d, hd, rfl⟩
    · exact Or.inl hnull
  -- the import would have failed on a default that is too long
  have hfits : ∀ d, s'.valueDefault = .live d → d.length ≤ s'.size := by
    intro d hd
    rw [hsize, ← s.importDefault_size node .live]
    rcases stateStringImport_cases s node .live with ⟨e, herr⟩ | ⟨d', hderef, hlen, -⟩
    · rw [h] at herr
      cases herr
    · refine hlen d ?_
      rw [← hdef, hd] at hderef
      exact (Except.ok.inj hderef).symm
  refine ⟨⟨fun v hv => ?_, fun d hd => ⟨?_, hfits d hd⟩⟩, fun d hd => ?_⟩
  · rw [hval, hvalue] at hv
    cases hv
  · rcases hptr with hptr | ⟨x, hx, hptr⟩
    · rw [hptr] at hd
      cases hd
    · rw [hptr] at hd
      cases hd
      exact zero_not_mem_ofPropertyReadString hx
  · rcases hptr with hptr | ⟨x, -, hptr⟩
    · rw [hptr] at hd
      cases hd
    · rw [hptr] at hd
      cases hd

/-- A new string has no other copies. -/
theorem create_string {t : VarType}
    (h : t.create st name node = .ok (.string s)) : s.value = none ∧ s.valueDefault = .null := by
  have hadd : ∀ {d : VarData}, (if name ∈ st.params then .error .EEXIST else .ok d :
      Except Errno VarData) = .ok (.string s) → d = .string s := by
    intro d h
    split at h
    · cases h
    · exact Except.ok.inj h
  unfold VarType.create at h
  cases t with
  | string =>
    dsimp only at h
    split at h
    · cases h
    · split at h
      · cases hadd h
        exact ⟨rfl, rfl⟩
      · cases h
  | enum32 =>
    dsimp only at h
    split at h
    · cases h
    · cases hadd h
  | _ => cases hadd h

/-- A variable starts with C strings: what the import copies ends at a zero. -/
theorem create_import_cstrings {t : VarType} {d₀ : VarData}
    (hcreate : t.create st name node = .ok d₀) (himp : t.importFrom d₀ node .live = (.ok, d)) :
    d.CStrings ∧ d.Settled := by
  have htype := (importFrom_type_size t d₀ node .live).1
  rw [himp, (create_spec hcreate).1] at htype
  have hty₀ := (create_spec hcreate).1
  cases d with
  | string s' =>
    obtain rfl : VarType.string = t := htype
    cases d₀ with
    | string s =>
      obtain ⟨hvalue, hnull⟩ := create_string hcreate
      have himport : stateStringImport s node .live = (.ok, s') := by
        have hret : (VarType.string.importFrom (.string s) node .live).1 = .ok := by rw [himp]
        have hdata : (VarType.string.importFrom (.string s) node .live).2 = .string s' := by
          rw [himp]
        exact Prod.ext hret (VarData.string.inj hdata)
      exact stateStringImport_live hvalue hnull himport
    | _ => cases hty₀
  | _ => exact ⟨trivial, trivial⟩

/-- A state is sound when it has been created. -/
theorem sound_of_create
    (h : stateFromNodeCreate node stateNew = .ok st) : Sound (st.vars.map Variable.signature) st := by
  have hrun : ∀ (l : List (Bytes × Node)) {st st' : Instance},
      (∀ v ∈ st.vars, v.data.CStrings ∧ v.data.Settled) → createRun l st = .ok st' →
      ∀ v ∈ st'.vars, v.data.CStrings ∧ v.data.Settled := by
    intro l
    induction l with
    | nil =>
      intro st st' hall hrun
      cases hrun
      exact hall
    | cons x l ih =>
      intro st st' hall hrun
      rw [createRun] at hrun
      split at hrun
      · cases hrun
      next st₁ hat =>
      refine ih ?_ hrun
      rcases createAt_cases hat with ⟨-, rfl⟩ | ⟨t, start, d₀, d, -, hcreate, himp, rfl⟩
      · exact hall
      · simp only [(stateAddVar_perm _ _).mem_iff]
        exact forall_mem_cons.mpr ⟨create_import_cstrings hcreate himp, hall⟩
  unfold stateFromNodeCreate at h
  split at h
  · cases h
  rw [convertCreateAll_eq] at h
  split at h
  · cases h
  next st₁ hcreated =>
  split at h
  · cases h
    have hall := hrun _ (fun v hv => absurd hv not_mem_nil) hcreated
    exact ⟨rfl, fun v hv => (hall v hv).1, fun v hv => (hall v hv).2⟩
  · cases h

end Barebox.State
