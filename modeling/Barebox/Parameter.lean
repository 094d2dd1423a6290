import Barebox.Ctype
import Barebox.Strtox

/-!
# Device parameters — `lib/parameter.c`

Setting a parameter parses a string into the variable behind it, and then
asks the owner: a callback that sees the new value, may change other things
the owner keeps (`ρ` here), and may refuse. If it does, the old value is
put back. `paramSet` is that protocol; the setters differ in how they
parse.

Mirroring notes:
- the setters store the parsed value first and restore the old one on an
  error. The value in between is seen by the callback only, which gets it
  as an argument.
- a string parameter takes NULL for the empty string; the others refuse it.
- `strim` moves the pointer to a value that begins with a blank, and the next
  set, or a `get` that replaces the value, frees the pointer as it is then. The
  heap is not modelled.
-/

namespace Barebox

open Lib

variable {ρ : Type} {α : Type}

/-- Parse, store, ask the owner, restore if the answer is no. -/
def paramSet (parse : Option Bytes → Except Errno α) (set : α → ρ → Ret × ρ) (old : α)
    (val : Option Bytes) (owner : ρ) : Ret × α × ρ :=
  match parse val with
  | .error e => (.err e, old, owner)
  | .ok new =>
    match set new owner with
    | (.err e, owner) => (.err e, old, owner)
    | (.ok, owner) => (.ok, new, owner)

/-- A set that fails leaves the value; one that succeeds has stored what it
parsed, and the owner has agreed. -/
theorem paramSet_cases (parse : Option Bytes → Except Errno α) (set : α → ρ → Ret × ρ) (old : α)
    (val : Option Bytes) (owner : ρ) : (∃ e, paramSet parse set old val owner = (.err e, old, owner)) ∨
    (∃ e new owner', parse val = .ok new ∧ set new owner = (.err e, owner') ∧
      paramSet parse set old val owner = (.err e, old, owner')) ∨
    ∃ new owner', parse val = .ok new ∧ set new owner = (.ok, owner') ∧
      paramSet parse set old val owner = (.ok, new, owner') := by
  unfold paramSet
  split
  · next e _ => exact Or.inl ⟨e, rfl⟩
  next new hparse =>
  split
  · next e owner' hset => exact Or.inr (Or.inl ⟨e, new, owner', hparse, hset, rfl⟩)
  · next owner' hset => exact Or.inr (Or.inr ⟨new, owner', hparse, hset, rfl⟩)

/-! ## Strings -/

/-- `strim`: without white space at both ends. -/
def strim (s : Bytes) : Bytes := ((s.dropWhile isspace).reverse.dropWhile isspace).reverse

theorem mem_of_mem_strim {s : Bytes} {c : UInt8} (h : c ∈ strim s) : c ∈ s := by
  unfold strim at h
  rw [List.mem_reverse] at h
  have h := (List.dropWhile_suffix _).subset h
  rw [List.mem_reverse] at h
  exact (List.dropWhile_suffix _).subset h

def parseString (val : Option Bytes) : Except Errno (Option Bytes) :=
  .ok (some (strim (val.getD [])))

/-- `param_string_set`; the variable is a `char *` that may still be NULL. -/
def paramStringSet : (Option Bytes → ρ → Ret × ρ) → Option Bytes → Option Bytes → ρ →
    Ret × Option Bytes × ρ :=
  paramSet parseString

/-! ## Numbers, names, addresses -/

/-- What the setters that refuse NULL do with it. -/
def parseWith (parse : Bytes → Except Errno α) : Option Bytes → Except Errno α
  | none => .error .EINVAL
  | some val => parse val

def parseUint32 (val : Bytes) : Except Errno UInt32 := .ok (UInt32.ofNat (simpleStrtoull val 0).1)

/-- `param_int_set` of a `PARAM_TYPE_UINT32`. -/
def paramIntSet : (UInt32 → ρ → Ret × ρ) → UInt32 → Option Bytes → ρ → Ret × UInt32 × ρ :=
  paramSet (parseWith parseUint32)

/-- The index of a name. -/
def parseEnum (names : List Bytes) (val : Bytes) : Except Errno UInt32 :=
  match names.findIdx? (· = val) with
  | none => .error .EINVAL
  | some i => .ok (UInt32.ofNat i)

/-- `param_enum_set`. -/
def paramEnumSet (names : List Bytes) :
    (UInt32 → ρ → Ret × ρ) → UInt32 → Option Bytes → ρ → Ret × UInt32 × ρ :=
  paramSet (parseWith (parseEnum names))

/-- A MAC address, `u8[6]`. -/
structure Mac where
  bytes : Bytes
  length_eq : bytes.length = 6
  deriving DecidableEq

def Mac.zero : Mac := ⟨[0, 0, 0, 0, 0, 0], rfl⟩

/-- The loop of `string_to_ethaddr`: a number, one character skipped, for
each byte. -/
def ethaddrBytes : Nat → Bytes → Bytes
  | 0, _ => []
  | n + 1, s =>
    let (reg, e) := simpleStrtoull s 16
    UInt8.ofNat reg :: ethaddrBytes n (e.drop 1)

theorem ethaddrBytes_length (n : Nat) : ∀ (s : Bytes), (ethaddrBytes n s).length = n := by
  induction n with
  | zero => intro s; rfl
  | succ n ih => intro s; rw [ethaddrBytes, List.length_cons, ih]

def stringToEthaddr (str : Bytes) : Except Errno Mac :=
  if str.length ≠ 17 then .error .EINVAL
  else if [2, 5, 8, 11, 14].any fun i => str.getD i 0 ≠ 0x3a then .error .EINVAL
  else .ok ⟨ethaddrBytes 6 str, ethaddrBytes_length 6 str⟩

example : (stringToEthaddr (cstr "00:1b:2c:ff:a0:12")).map Mac.bytes
    = .ok [0, 0x1b, 0x2c, 0xff, 0xa0, 0x12] := by
  rfl

/-- `param_mac_set`. -/
def paramMacSet : (Mac → ρ → Ret × ρ) → Mac → Option Bytes → ρ → Ret × Mac × ρ :=
  paramSet (parseWith stringToEthaddr)

end Barebox
