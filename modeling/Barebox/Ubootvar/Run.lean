import Barebox.Ubootvar.Resize
import Barebox.Lib.Run

/-!
# The environment under sequences of calls

The reference is the list of variables by name and value, in a blob that has `limit`
bytes. `RoomFor` says of a call what it takes for the blob to follow it: a variable that
changes its size needs as much room again as its value takes, and for a fresh
`ubootvarfs_parse` to see the same variables, no value has a NUL inside when a write has
completed. No variable is removed. Along runs of such calls the blob stays that of the
variables (`ubootvarfs_keeps`).
-/

namespace Barebox.Ubootvar

open Lib List

/-! ## The reference -/

/-- The variable of a name, with its place. -/
def refFind (env : Env) (name : CString) : Option (Nat × (CString × Bytes)) :=
  (env.findIdx? fun var => decide (name = var.1)).bind fun i => env[i]?.map fun var => (i, var)

/-- The bytes that the blob takes with a value of the new size. -/
def newLength (env : Env) (var : CString × Bytes) (size : Nat) : Nat :=
  (image env).length - var.2.length + size

/-- A value gets a new size, if there is room. -/
def refTruncate (limit : Nat) (env : Env) (i : Nat) (var : CString × Bytes) (size : Nat) :
    Env × Except Errno Unit :=
  if size = var.2.length then (env, .ok ())
  else if limit < newLength env var size then (env, .error .ENOSPC)
  else (env.set i (var.1, resized var.2 size), .ok ())

/-- A write, which makes the value longer if there is room, and is cut to it if there is none. -/
def refWrite (limit : Nat) (env : Env) (i : Nat) (var : CString × Bytes) (pos : Nat) (buf : Bytes) :
    Env × Except Errno Unit :=
  if pos + buf.length ≤ var.2.length then (env.set i (var.1, overwrite pos buf var.2), .ok ())
  else if newLength env var (pos + buf.length) ≤ limit then
    (env.set i (var.1, overwrite pos buf (resized var.2 (pos + buf.length))), .ok ())
  else if pos < var.2.length then
    (env.set i (var.1, overwrite pos (buf.take (var.2.length - pos)) var.2), .ok ())
  else (env, .error .ENOSPC)

/-- What each call is meant to do. -/
def refStep (limit : Nat) (env : Env) : Op → Env × Except Errno Unit
  | .create name =>
    match refFind env name with
    | some _ => (env, .ok ())
    | none =>
      if (image (env ++ [(name, [])])).length ≤ limit then (env ++ [(name, [])], .ok ())
      else (env, .error .ENOSPC)
  | .unlink name =>
    match refFind env name with
    | none => (env, .error .ENOENT)
    | some (i, _) => (env.eraseIdx i, .ok ())
  | .truncate name size =>
    match refFind env name with
    | none => (env, .error .ENOENT)
    | some (i, var) => refTruncate limit env i var size
  | .write name pos buf =>
    match refFind env name with
    | none => (env, .error .ENOENT)
    | some (i, var) => refWrite limit env i var pos buf

/-- A write or a removal that has completed. -/
def Op.Settles (op : Op) (ret : Except Errno Unit) : Prop :=
  ret = .ok () ∧
    match op with
    | .unlink _ => True
    | .write _ _ _ => True
    | _ => False

/-- A call touches no byte outside of the blob and leaves the variables of the
reference. A fresh parse of the blob gives the same pointers when it has settled. -/
def Same (data : Data) (env : Env) (op : Op) : Prop :=
  ∃ data', step data op = some (data', (refStep data.blob.length env op).2)
    ∧ Stores data' (refStep data.blob.length env op).1 ∧ data'.blob.length = data.blob.length
    ∧ (op.Settles (refStep data.blob.length env op).2 → parse data'.blob = some data')

/-! ## What a call needs -/

/-- For a value to get another size, or to be refused it. -/
def Fits (limit : Nat) (env : Env) (var : CString × Bytes) (size : Nat) : Prop :=
  size = var.2.length
    ∨ limit < newLength env var size
      ∧ (limit : Int) ≤ (strings env).length + toInt ((size : Int) - var.2.length)
    ∨ (-2 ^ 31 < (size : Int) - var.2.length ∧ (size : Int) - var.2.length < 2 ^ 31)
      ∧ (image env).length + max var.2.length size ≤ limit

/-- There is room for what the call does to the blob, and what it leaves can be told apart. -/
def RoomFor (limit : Nat) (env : Env) : Op → Prop
  | .create _ => True
  | .unlink name => refFind env name = none
  | .truncate name size => ∀ i var, refFind env name = some (i, var) → Fits limit env var size
  | .write name pos buf => ∀ i var, refFind env name = some (i, var) →
    (var.2.length < pos + buf.length → Fits limit env var (pos + buf.length)
      ∧ (limit < newLength env var (pos + buf.length) → pos ≤ var.2.length))
    ∧ ((refWrite limit env i var pos buf).2 = .ok () → WellFormed (refWrite limit env i var pos buf).1)

/-! ## Files by name -/

variable {env : Env} {name : CString} {var : CString × Bytes}

/-- A variable that is found is somewhere in the list. -/
theorem refFind_some {i : Nat}
    (h : refFind env name = some (i, var)) : ∃ pre post, env = pre ++ var :: post ∧ pre.length = i := by
  unfold refFind at h
  simp only [Option.bind_eq_some_iff, Option.map_eq_some_iff] at h
  obtain ⟨j, -, var', hget, heq⟩ := h
  obtain ⟨rfl, rfl⟩ := Prod.mk.inj heq
  obtain ⟨hlt, hget⟩ := List.getElem?_eq_some_iff.mp hget
  refine ⟨env.take j, env.drop (j + 1), ?_, by simp; omega⟩
  rw [← hget, getElem_cons_drop, take_append_drop]

/-- The names in the blob are those of the variables. -/
theorem findIdx_layout (name : CString) (rest : Bytes) (env : Env) : ∀ pre : Bytes,
    ((layout pre.length env).findIdx? fun var => decide (name.1.length = var.nameLen
        ∧ name.1 = slice var.name var.nameLen (pre ++ (strings env ++ rest))))
      = env.findIdx? fun var => decide (name = var.1) := by
  induction env with
  | nil => intro pre; rfl
  | cons var env ih =>
    intro pre
    have hname : slice pre.length var.1.1.length (pre ++ (strings (var :: env) ++ rest)) = var.1.1 := by
      have hcut : pre ++ (strings (var :: env) ++ rest)
          = pre ++ (var.1.1 ++ (61 :: (var.2 ++ [0]) ++ (strings env ++ rest))) := by simp [entry]
      rw [hcut]
      exact slice_mid _ rfl rfl
    have hsame : (name.1.length = var.1.1.length ∧ name.1 = var.1.1) ↔ name = var.1 :=
      ⟨fun h => Subtype.ext h.2, fun h => by rw [h]; exact ⟨rfl, rfl⟩⟩
    have hih := ih (pre ++ entry var)
    rw [length_append, append_assoc, ← append_assoc (entry var), ← strings_cons] at hih
    rw [layout, findIdx?_cons, findIdx?_cons, hih]
    simp only [varAt, hname, hsame]

section

variable {data : Data}

/-- The code finds a variable where the reference does. -/
theorem Stores.varByName_eq (h : Stores data env) (name : CString) :
    varByName data name.1 = env.findIdx? fun var => decide (name = var.1) := by
  obtain ⟨rest, hblob⟩ := h.blob
  have hfind := findIdx_layout name (0 :: rest) env []
  unfold varByName
  rw [h.vars, hblob, ← hfind]
  simp [image]

/-- A name that is not there is not found, … -/
theorem Stores.findVar_none (h : Stores data env) (hfind : refFind env name = none) :
    findVar data name.1 = none := by
  unfold findVar
  unfold refFind at hfind
  rw [h.varByName_eq]
  cases hidx : env.findIdx? fun var => decide (name = var.1) with
  | none => rfl
  | some i =>
    rw [hidx, Option.bind_some, Option.map_eq_none_iff, getElem?_eq_none_iff] at hfind
    rw [Option.bind_some, Option.map_eq_none_iff, h.vars, getElem?_eq_none_iff, layout_length]
    exact hfind

variable {pre post : Env}

/-- The variable that a list of pointers has in its place. -/
theorem layout_getElem : (layout 0 (pre ++ var :: post))[pre.length]? = some (varOf pre var) := by
  rw [layout_append, getElem?_append_right (by simp), layout_length, Nat.sub_self, Nat.zero_add]
  rfl

/-- … and one that is has the place of the first variable of the name. -/
theorem Stores.findVar_some (h : Stores data (pre ++ var :: post)) (hfind : refFind (pre ++ var :: post) name = some (pre.length, var)) :
    findVar data name.1 = some (pre.length, varOf pre var) := by
  unfold findVar
  unfold refFind at hfind
  rw [h.varByName_eq]
  cases hidx : (pre ++ var :: post).findIdx? fun var => decide (name = var.1) with
  | none =>
    rw [hidx] at hfind
    nomatch hfind
  | some i =>
    rw [hidx, Option.bind_some, Option.map_eq_some_iff] at hfind
    obtain ⟨_, -, heq⟩ := hfind
    obtain rfl := (Prod.mk.inj heq).1
    rw [Option.bind_some, h.vars, layout_getElem]
    rfl

/-! ## Calls -/

/-- A call by its result, where the blob follows the reference. -/
theorem same_of_step {op : Op} {data' : Data} {env' : Env} {ret : Except Errno Unit}
    (href : refStep data.blob.length env op = (env', ret)) (hstep : step data op = some (data', ret))
    (hstores : Stores data' env') (hlen : data'.blob.length = data.blob.length)
    (hwf : op.Settles ret → WellFormed env') : Same data env op := by
  unfold Same
  rw [href]
  exact ⟨data', hstep, hstores, hlen, fun hsettles => hstores.parse_iff.mpr (hwf hsettles)⟩

/-- A call that both refuse. -/
theorem Stores.refused (h : Stores data env) {op : Op} {e : Errno} (href : refStep data.blob.length env op = (env, .error e))
    (hstep : step data op = some (data, .error e)) : Same data env op := by
  refine same_of_step href hstep h rfl fun hsettles => ?_
  nomatch hsettles.1

/-- A new file asks for nothing: without room it is refused by both. -/
theorem Stores.same_create (h : Stores data env) (name : CString) : Same data env (.create name) := by
  have hfind := h.varByName_eq name
  cases hidx : env.findIdx? fun var => decide (name = var.1) with
  | some i =>
    have hlt : i < env.length := (findIdx?_eq_some_iff_findIdx_eq.mp hidx).1
    have href : refStep data.blob.length env (.create name) = (env, .ok ()) := by
      simp [refStep, refFind, hidx, getElem?_eq_getElem hlt]
    have hstep : step data (.create name) = some (data, .ok ()) := by simp [step, hfind, hidx]
    exact same_of_step href hstep h rfl fun hsettles => hsettles.2.elim
  | none =>
    have hnone : refFind env name = none := by simp [refFind, hidx]
    by_cases hroom : (image (env ++ [(name, [])])).length ≤ data.blob.length
    · obtain ⟨data', hcreate, hstores, hlen⟩ := h.create_eq hroom
      have href : refStep data.blob.length env (.create name) = (env ++ [(name, [])], .ok ()) := by
        simp only [refStep, hnone, if_pos hroom]
      have hstep : step data (.create name) = some (data', .ok ()) := by simp only [step, hfind, hidx, hcreate]
      exact same_of_step href hstep hstores hlen fun hsettles => hsettles.2.elim
    · have href : refStep data.blob.length env (.create name) = (env, .error .ENOSPC) := by
        simp only [refStep, hnone, if_neg hroom]
      have hcreate : create data name.1 = some (data, .error .ENOSPC) := by
        have hend := h.end_
        rw [image_length] at hroom
        simp only [strings_append, strings_cons, strings_nil, append_nil, length_append, entry_length,
          length_nil] at hroom
        unfold create
        rw [if_pos (by omega)]
      exact h.refused href (by simp only [step, hfind, hidx, hcreate])

section

variable (h : Stores data env) (henv : env = pre ++ var :: post)
  (hfind : refFind env name = some (pre.length, var))
include h henv hfind

omit h henv hfind in
theorem set_mid (new : CString × Bytes) : (pre ++ var :: post).set pre.length new = pre ++ new :: post := by
  rw [set_append_right _ _ (Nat.le_refl _), Nat.sub_self]
  rfl

omit henv hfind in
/-- A new size that is refused by both. -/
theorem Stores.truncate_refused {size : Nat} (hne : size ≠ var.2.length)
    (hcode : (data.blob.length : Int) ≤ (strings env).length + toInt ((size : Int) - var.2.length)) :
    truncate data pre.length (varOf pre var) size = some (data, .error .ENOSPC) := by
  rw [← h.end_] at hcode
  unfold truncate
  rw [if_neg (show ¬ size = (varOf pre var).iSize from hne)]
  exact if_pos hcode

/-- A new size, where the blob can follow it. -/
theorem Stores.same_truncate {size : Nat} (hfits : Fits data.blob.length env var size) :
    Same data env (.truncate name size) := by
  have hfound : findVar data name.1 = some (pre.length, varOf pre var) := by
    subst henv
    exact h.findVar_some hfind
  have hstep : step data (.truncate name size) = truncate data pre.length (varOf pre var) size := by
    simp only [step, hfound]
  have href : refStep data.blob.length env (.truncate name size)
      = refTruncate data.blob.length env pre.length var size := by
    simp only [refStep, hfind]
  unfold refTruncate at href
  by_cases hsame : size = var.2.length
  · rw [if_pos hsame] at href
    refine same_of_step href (hstep.trans ?_) h rfl fun hsettles => hsettles.2.elim
    exact if_pos hsame
  rw [if_neg hsame] at href
  rcases hfits with hfits | ⟨hfull, hcode⟩ | ⟨hsmall, hroom⟩
  · exact absurd hfits hsame
  · rw [if_pos hfull] at href
    exact h.refused href (hstep.trans (h.truncate_refused hsame hcode))
  · subst henv
    obtain ⟨data', htruncate, hstores, hlen⟩ := h.truncate_eq hsame hsmall hroom
    rw [if_neg (by unfold newLength; omega), set_mid] at href
    exact same_of_step href (hstep.trans htruncate) hstores hlen fun hsettles => hsettles.2.elim

omit hfind in
/-- A write that the blob can follow. -/
theorem Stores.write_eq {pos : Nat} {buf : Bytes}
    (hgood : var.2.length < pos + buf.length → Fits data.blob.length env var (pos + buf.length)
      ∧ (data.blob.length < newLength env var (pos + buf.length) → pos ≤ var.2.length)) :
    ∃ data', ((write data pre.length (varOf pre var) pos buf).map
        fun (data, ret) => (data, ret.map fun _ => ()))
        = some (data', (refWrite data.blob.length env pre.length var pos buf).2)
      ∧ Stores data' (refWrite data.blob.length env pre.length var pos buf).1
      ∧ data'.blob.length = data.blob.length := by
  subst henv
  have hstart : ∀ (value : Bytes) (data₁ : Data) (count : Nat), io data₁ (varOf pre var) pos buf count
      = io data₁ (varOf pre (var.1, value)) pos buf count := fun _ _ _ => rfl
  have hiSize : (varOf pre var).iSize = var.2.length := rfl
  have hbytes : var.2.length ≤ data.blob.length := by
    obtain ⟨rest, hblob⟩ := h.blob
    rw [hblob]
    simp [image]
    omega
  have hlt := h.lt
  unfold refWrite write
  rw [hiSize]
  -- inside of the value nothing moves
  by_cases hin : pos + buf.length ≤ var.2.length
  · obtain ⟨data', hio, hstores, hlen⟩ := h.io_eq (Nat.le_refl _) hin
    rw [take_length] at hstores
    rw [if_pos hin, if_neg (by omega), hio, set_mid]
    exact ⟨data', rfl, hstores, hlen⟩
  obtain ⟨hfits, hpos⟩ := hgood (by omega)
  rw [if_neg hin, if_pos (by omega)]
  rcases hfits with hfits | ⟨hfull, hcode⟩ | ⟨hsmall, hroom⟩
  · omega
  · -- no room: what fits into the value as it is
    have hcount : (var.2.length + 2 ^ 64 - pos) % 2 ^ 64 = var.2.length - pos := by omega
    rw [if_neg (by omega), h.truncate_refused (by omega) hcode]
    dsimp only
    rw [hcount]
    by_cases hend : pos < var.2.length
    · obtain ⟨data', hio, hstores', hlen'⟩ := h.io_eq (show var.2.length - pos ≤ buf.length by omega)
        (show pos + (var.2.length - pos) ≤ var.2.length by omega)
      rw [if_pos hend, if_neg (by omega), hio, set_mid]
      exact ⟨data', rfl, hstores', hlen'⟩
    · rw [if_neg hend, if_pos (by omega)]
      exact ⟨data, rfl, h, rfl⟩
  · -- the value is resized first
    obtain ⟨data₁, htruncate, hstores, hlen⟩ := h.truncate_eq (by omega) hsmall hroom
    obtain ⟨data', hio, hstores', hlen'⟩ := hstores.io_eq (Nat.le_refl buf.length)
      (show pos + buf.length ≤ (resized var.2 (pos + buf.length)).length by rw [resized_length])
    rw [take_length] at hstores'
    rw [if_pos (by unfold newLength; omega), htruncate]
    dsimp only
    rw [hstart, hio]
    refine ⟨data', rfl, ?_, hlen'.trans hlen⟩
    rw [set_mid]
    exact hstores'

/-- A write, where the blob can follow it and what it leaves can be told apart. -/
theorem Stores.same_write (pos : Fin (2 ^ 63)) (buf : Bytes)
    (hgrow : var.2.length < pos + buf.length → Fits data.blob.length env var (pos + buf.length)
        ∧ (data.blob.length < newLength env var (pos + buf.length) → pos ≤ var.2.length))
    (hwf : (refWrite data.blob.length env pre.length var pos buf).2 = .ok () →
        WellFormed (refWrite data.blob.length env pre.length var pos buf).1) :
    Same data env (.write name pos buf) := by
  have hfound : findVar data name.1 = some (pre.length, varOf pre var) := by
    subst henv
    exact h.findVar_some hfind
  have hstep : step data (.write name pos buf) = (write data pre.length (varOf pre var) pos buf).map
      fun out => (out.1, out.2.map fun _ => ()) := by
    simp only [step, hfound]
  have href : refStep data.blob.length env (.write name pos buf)
      = refWrite data.blob.length env pre.length var pos buf := by
    simp only [refStep, hfind]
  obtain ⟨data', hwrite, hstores, hlen⟩ := h.write_eq henv hgrow
  exact same_of_step href (hstep.trans hwrite) hstores hlen fun hsettles => hwf hsettles.1

end

/-- The blob follows a call if there is room for what the call does, and what it leaves can be
told apart. -/
theorem Stores.same (h : Stores data env) (op : Op) (hroom : RoomFor data.blob.length env op) :
    Same data env op := by
  -- a name that there is not is refused on both sides
  have hmissing : ∀ name : CString,
      (refFind env name = none → refStep data.blob.length env op = (env, .error .ENOENT)) →
      (findVar data name.1 = none → step data op = some (data, .error .ENOENT)) →
      (∀ pre post var, env = pre ++ var :: post → refFind env name = some (pre.length, var) →
        Same data env op) → Same data env op := by
    intro name href hstep hsome
    cases hfind : refFind env name with
    | none => exact h.refused (href hfind) (hstep (h.findVar_none hfind))
    | some found =>
      obtain ⟨i, var⟩ := found
      obtain ⟨pre, post, henv, rfl⟩ := refFind_some hfind
      exact hsome pre post var henv hfind
  cases op with
  | create name => exact h.same_create name
  | unlink name =>
    refine h.refused (e := .ENOENT) ?_ ?_
    · simp only [refStep, show refFind env name = none from hroom]
    · simp only [step, h.findVar_none hroom]
  | truncate name size =>
    refine hmissing name (fun hnone => by simp only [refStep, hnone]) (fun hnone => by simp only [step, hnone]) ?_
    intro pre post var henv hfind
    exact h.same_truncate henv hfind (hroom _ _ hfind)
  | write name pos buf =>
    refine hmissing name (fun hnone => by simp only [refStep, hnone]) (fun hnone => by simp only [step, hnone]) ?_
    intro pre post var henv hfind
    obtain ⟨hgrow, hwf⟩ := hroom _ _ hfind
    exact h.same_write henv hfind _ _ hgrow hwf

end

/-! ## Sequences of calls -/

/-- Every call does what the reference does, from where the calls before have left both. -/
def Keeps : Data → Env → List Op → Prop
  | _, _, [] => True
  | data, env, op :: ops => Same data env op
    ∧ ∀ data' ret, step data op = some (data', ret) → Keeps data' (refStep data.blob.length env op).1 ops

/-- What each call of a run needs, in the state it is made in. -/
def RoomAlong (limit : Nat) (env : Env) (ops : List Op) : Prop :=
  Along (fun env op => (refStep limit env op).1) (RoomFor limit) env ops

/-- Runs, from any state in which the blob is that of the variables. -/
theorem Stores.keeps {limit : Nat} (ops : List Op) : ∀ {data : Data} {env : Env}, Stores data env →
    data.blob.length = limit → RoomAlong limit env ops → Keeps data env ops := by
  induction ops with
  | nil =>
    intro data env _ _ _
    trivial
  | cons op ops ih =>
    intro data env h hlimit ⟨hroom, hrest⟩
    rw [← hlimit] at hroom
    have hsame := h.same op hroom
    refine ⟨hsame, fun data'' ret hstep' => ?_⟩
    obtain ⟨data', hstep, hstores, hlen, -⟩ := hsame
    obtain rfl := (Prod.mk.inj (Option.some.inj (hstep.symm.trans hstep'))).1
    exact ih hstores (hlen.trans hlimit) (hlimit ▸ hrest)

/-- `a=x` and `b=y` -/
def twoVars : Env := [(⟨[97], by decide⟩, [120]), (⟨[98], by decide⟩, [121])]

theorem twoVars_wellFormed : WellFormed twoVars := by
  unfold WellFormed twoVars
  decide

/-- `a=xyz` -/
def oneVar : Env := [(⟨[97], by decide⟩, [120, 121, 122])]

end Barebox.Ubootvar
