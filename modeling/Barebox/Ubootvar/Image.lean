import Barebox.Ubootvar.Model

/-!
# The blob of an environment

`Stores data env` says that the blob is the strings of the variables `env` one behind
the other, closed by a NUL, and that the list has the pointers to them. Nothing is said
about the values: one with a NUL inside is stored like any other, but a fresh
`ubootvarfs_parse` does not find it again. `parse_iff` says which it does.
-/

namespace Barebox.Ubootvar

open Lib List

/-- Variables by name and value. -/
abbrev Env := List (CString × Bytes)

def entry (var : CString × Bytes) : Bytes := var.1.1 ++ 61 :: (var.2 ++ [0])

def strings (env : Env) : Bytes := env.flatMap entry

/-- The strings, and the empty one. -/
def image (env : Env) : Bytes := strings env ++ [0]

/-- The pointers to a variable whose string is at `off`. -/
def varAt (off : Nat) (var : CString × Bytes) : Var :=
  let start := off + var.1.1.length + 1
  ⟨off, var.1.1.length, start, start + var.2.length, var.2.length⟩

def layout : Nat → Env → List Var
  | _, [] => []
  | off, var :: env => varAt off var :: layout (off + (entry var).length) env

/-- What a parser can tell apart: no separator in a name, no NUL in a value. -/
def WellFormed (env : Env) : Prop := ∀ var ∈ env, (61 : UInt8) ∉ var.1.1 ∧ (0 : UInt8) ∉ var.2

structure Stores (data : Data) (env : Env) : Prop where
  blob : ∃ rest, data.blob = image env ++ rest
  vars : data.vars = layout 0 env
  end_ : data.end_ = (strings env).length
  lt : data.blob.length < 2 ^ 63

/-! ## Lists of variables -/

@[simp] theorem entry_length (var : CString × Bytes) :
    (entry var).length = var.1.1.length + var.2.length + 2 := by
  simp [entry]
  omega

@[simp] theorem strings_nil : strings [] = [] := rfl

@[simp] theorem strings_cons (var : CString × Bytes) (env : Env) :
    strings (var :: env) = entry var ++ strings env := rfl

@[simp] theorem strings_append (a b : Env) : strings (a ++ b) = strings a ++ strings b :=
  flatMap_append

theorem length_le_strings (env : Env) : env.length ≤ (strings env).length := by
  induction env with
  | nil => exact Nat.le_refl 0
  | cons var env ih =>
    simp only [strings_cons, length_append, entry_length, length_cons]
    omega

theorem image_length (env : Env) : (image env).length = (strings env).length + 1 := by simp [image]

@[simp] theorem layout_length (env : Env) : ∀ off, (layout off env).length = env.length := by
  induction env with
  | nil => intro off; rfl
  | cons var env ih => intro off; simp [layout, ih]

theorem layout_append (a b : Env) : ∀ off,
    layout off (a ++ b) = layout off a ++ layout (off + (strings a).length) b := by
  induction a with
  | nil => intro off; simp [layout]
  | cons var a ih =>
    intro off
    simp only [cons_append, layout, ih, strings_cons, length_append, Nat.add_assoc]

/-- Variables that are moved as a whole. -/
theorem layout_moved (env : Env) : ∀ {off : Nat} {delta : Int}, 0 ≤ off + delta →
    (layout off env).map (fun var =>
        { var with name := moved var.name delta, start := moved var.start delta, end_ := moved var.end_ delta })
      = layout (moved off delta) env := by
  induction env with
  | nil => intro off delta _; rfl
  | cons var env ih =>
    intro off delta h
    have hmoved : ∀ n : Nat, moved (off + n) delta = moved off delta + n := by
      intro n
      unfold moved
      omega
    simp only [layout, map_cons]
    rw [ih (by omega)]
    simp only [varAt, Nat.add_assoc, hmoved]

/-! ## The parser finds what it can -/

theorem takeWhile_stop {p : UInt8 → Bool} {x : UInt8} (hx : p x = false) (a r : Bytes) :
    (a ++ x :: r).takeWhile p = a.takeWhile p := by
  induction a with
  | nil => simp [hx]
  | cons y a ih => simp [takeWhile_cons, ih]

/-- A string ends where it should just if it has no such byte. -/
theorem takeWhile_length_iff {x : UInt8} (a : Bytes) :
    (a.takeWhile (· ≠ x)).length = a.length ↔ x ∉ a := by
  constructor
  · intro hlen hmem
    have hself := (List.takeWhile_prefix (· ≠ x)).eq_of_length hlen
    have hall := takeWhile_eq_self_iff.mp hself x hmem
    simp at hall
  · intro hmem
    rw [takeWhile_eq_self_iff.mpr]
    intro y hy
    have hne : y ≠ x := fun h => hmem (h ▸ hy)
    simpa using hne

/-- What the parser makes of the string of a variable. -/
theorem parseOne_entry (pre : Bytes) (var : CString × Bytes) (r : Bytes) :
    let nameLen := (var.1.1.takeWhile (· ≠ 61)).length
    let end_ := pre.length + var.1.1.length + 1 + (var.2.takeWhile (· ≠ 0)).length
    parseOne (pre ++ (entry var ++ r)) pre.length
        = [⟨pre.length, nameLen, pre.length + nameLen + 1, end_, end_ - (pre.length + nameLen + 1)⟩]
      ∧ strEnd (pre ++ (entry var ++ r)) pre.length = end_ := by
  obtain ⟨⟨name, hname⟩, value⟩ := var
  have hstr : ((pre ++ (entry (⟨name, hname⟩, value) ++ r)).drop pre.length).takeWhile (· ≠ 0)
      = name ++ 61 :: value.takeWhile (· ≠ 0) := by
    have hall : ∀ x ∈ name ++ [61], (decide (x ≠ (0 : UInt8))) = true := by
      exact forall_mem_append.mpr ⟨fun x hx => decide_eq_true fun h => hname (h ▸ hx), forall_mem_singleton.mpr rfl⟩
    have hcut : entry (⟨name, hname⟩, value) ++ r = (name ++ [61]) ++ (value ++ 0 :: r) := by simp [entry]
    rw [drop_left, hcut, takeWhile_append_of_pos hall, takeWhile_stop (by rfl)]
    simp
  have hname : ((name ++ 61 :: value.takeWhile (· ≠ 0)).takeWhile (· ≠ 61)) = name.takeWhile (· ≠ 61) :=
    takeWhile_stop (by rfl) _ _
  have hle : (name.takeWhile (· ≠ 61)).length ≤ name.length := (List.takeWhile_prefix _).length_le
  constructor
  · unfold parseOne
    rw [hstr]
    dsimp only
    rw [hname]
    simp only [length_append, length_cons]
    rw [if_pos (by omega)]
    simp only [Nat.add_assoc, Nat.add_comm 1]
  · unfold strEnd
    rw [hstr]
    simp only [length_append, length_cons]
    omega

/-- The first byte of a string. -/
theorem entry_head (pre : Bytes) (var : CString × Bytes) (r : Bytes) :
    ∃ x, x ≠ 0 ∧ (pre ++ (entry var ++ r))[pre.length]? = some x := by
  obtain ⟨⟨name, hname⟩, value⟩ := var
  rw [getElem?_append_right (Nat.le_refl _), Nat.sub_self]
  cases name with
  | nil => exact ⟨61, by decide, rfl⟩
  | cons x name => exact ⟨x, fun h => hname (h ▸ mem_cons_self), rfl⟩

/-- The parser finds the variables again, with the pointers of the list, if and only
if it can tell them apart. -/
theorem parseLoop_iff (rest : Bytes) (env : Env) : ∀ (pre : Bytes) (fuel : Nat), env.length < fuel →
    (parseLoop (pre ++ (image env ++ rest)) fuel pre.length
        = some (layout pre.length env, pre.length + (strings env).length)
      ↔ WellFormed env) := by
  induction env with
  | nil =>
    intro pre fuel hfuel
    obtain ⟨fuel, rfl⟩ := Nat.exists_eq_succ_of_ne_zero (Nat.ne_of_gt hfuel)
    refine iff_of_true ?_ nofun
    simp [parseLoop, image, layout]
  | cons var env ih =>
    intro pre fuel hfuel
    obtain ⟨fuel, rfl⟩ := Nat.exists_eq_succ_of_ne_zero (Nat.ne_of_gt (Nat.lt_of_le_of_lt (Nat.zero_le _) hfuel))
    have hcut : pre ++ (image (var :: env) ++ rest) = pre ++ (entry var ++ (image env ++ rest)) := by
      simp [image]
    obtain ⟨x, hx, hhead⟩ := entry_head pre var (image env ++ rest)
    obtain ⟨hone, hend⟩ := parseOne_entry pre var (image env ++ rest)
    have hwf : WellFormed (var :: env) ↔ ((61 : UInt8) ∉ var.1.1 ∧ (0 : UInt8) ∉ var.2) ∧ WellFormed env := by
      unfold WellFormed
      rw [forall_mem_cons]
    rw [hcut, parseLoop, hhead, hwf]
    dsimp only
    rw [if_neg hx, hone, hend]
    by_cases hvar : (61 : UInt8) ∉ var.1.1 ∧ (0 : UInt8) ∉ var.2
    · -- the string is that of the variable, and the next one begins behind it
      have hnext : pre.length + var.1.1.length + 1 + var.2.length + 1 = (pre ++ entry var).length := by
        simp
        omega
      have hih := ih (pre ++ entry var) fuel (by simpa using hfuel)
      rw [(takeWhile_length_iff _).mpr hvar.1, (takeWhile_length_iff _).mpr hvar.2, hnext, and_iff_right hvar,
        ← hih, append_assoc]
      cases parseLoop (pre ++ (entry var ++ (image env ++ rest))) fuel (pre ++ entry var).length with
      | none => simp
      | some found =>
        obtain ⟨vars, end_⟩ := found
        rw [Nat.add_sub_cancel_left]
        simp [layout, varAt, Nat.add_assoc]
    · -- the name or the value is cut short, and the lengths tell
      refine iff_of_false (fun h => hvar ?_) fun h => hvar h.1
      split at h
      next => nomatch h
      next vars end_ hfound =>
      have hlist := (Prod.mk.inj (Option.some.inj h)).1
      obtain ⟨-, hnameLen, -, hend, -⟩ := Var.mk.inj (List.cons.inj hlist).1
      have hvalue : (var.2.takeWhile (· ≠ 0)).length = var.2.length := by omega
      exact ⟨(takeWhile_length_iff _).mp hnameLen, (takeWhile_length_iff _).mp hvalue⟩

/-- An environment is parsed back just if no value has a zero, and no name an equals sign. -/
theorem Stores.parse_iff {data : Data} {env : Env} (h : Stores data env) :
    parse data.blob = some data ↔ WellFormed env := by
  obtain ⟨rest, hblob⟩ := h.blob
  have hlen : env.length < data.blob.length + 1 := by
    have hle := length_le_strings env
    rw [hblob, length_append, image_length]
    omega
  have hloop := parseLoop_iff rest env [] _ hlen
  rw [nil_append, ← hblob, length_nil] at hloop
  rw [← hloop]
  unfold parse
  obtain ⟨blob, vars, end_⟩ := data
  have hvars := h.vars
  have hend := h.end_
  dsimp only at hvars hend ⊢
  rw [hvars, hend]
  cases parseLoop blob (blob.length + 1) 0 with
  | none => simp
  | some found => simp [Prod.ext_iff]

end Barebox.Ubootvar
