import Barebox.Lib.Bytes

/-!
# Characters — `lib/ctype.c`, `lib/string.c`

The classes are those of the table `_ctype`, which is Latin-1: the upper
half has a space and letters of its own.
-/

namespace Barebox

open Lib

def isspace (c : UInt8) : Bool := (9 ≤ c ∧ c ≤ 13) ∨ c = 32 ∨ c = 160

def isupper (c : UInt8) : Bool := (65 ≤ c ∧ c ≤ 90) ∨ (192 ≤ c ∧ c ≤ 222 ∧ c ≠ 215)

def isprint (c : UInt8) : Bool := (32 ≤ c ∧ c ≤ 126) ∨ 160 ≤ c

def tolower (c : UInt8) : UInt8 := if isupper c then c + 32 else c

def islower (c : UInt8) : Bool := (97 ≤ c ∧ c ≤ 122) ∨ (223 ≤ c ∧ c ≠ 247)

def toupper (c : UInt8) : UInt8 := if islower c then c - 32 else c

/-- The loop of `strncasecmp`; behind the end of a list there is a NUL. -/
def strncasecmpLoop : Bytes → Bytes → Nat → Int
  | _, _, 0 => 0
  | s₁, s₂, n + 1 =>
    let c₁ := tolower (s₁.headD 0)
    let c₂ := tolower (s₂.headD 0)
    if 0 < n ∧ c₁ = c₂ ∧ c₁ ≠ 0 then strncasecmpLoop s₁.tail s₂.tail n
    else (c₁.toNat : Int) - c₂.toNat

/-- `strncasecmp`. The loop takes one off `n` before it compares it with zero: an `n` of zero
wraps around, and the strings are compared to the end of the first. -/
def strncasecmp (s₁ s₂ : Bytes) (n : Nat) : Int :=
  strncasecmpLoop s₁ s₂ (if n = 0 then s₁.length + 1 else n)

/-- `strcasecmp(s, t) == 0` for strings without a NUL in them. -/
def strcaseeq (s t : Bytes) : Bool := s.map tolower = t.map tolower

/-- The characters that a comparison of at most `n` looks at. -/
def strnchars (n : Nat) (s : Bytes) : Bytes := (s.take n).takeWhile (· ≠ 0)

theorem isupper_iff (c : UInt8) :
    isupper c = true ↔ (65 ≤ c.toNat ∧ c.toNat ≤ 90) ∨ (192 ≤ c.toNat ∧ c.toNat ≤ 222 ∧ c.toNat ≠ 215) := by
  simp [isupper, UInt8.le_iff_toNat_le, ← UInt8.toNat_inj]

theorem islower_iff (c : UInt8) :
    islower c = true ↔ (97 ≤ c.toNat ∧ c.toNat ≤ 122) ∨ (223 ≤ c.toNat ∧ c.toNat ≠ 247) := by
  simp [islower, UInt8.le_iff_toNat_le, ← UInt8.toNat_inj]

/-- A capital letter and its small letter -/
theorem tolower_toNat {c : UInt8} (h : isupper c = true) : (tolower c).toNat = c.toNat + 32 := by
  have hcase := (isupper_iff c).mp h
  rw [tolower, if_pos h]
  show (c.toNat + 32) % 2 ^ 8 = c.toNat + 32
  omega

theorem tolower_eq_zero_iff (c : UInt8) : tolower c = 0 ↔ c = 0 := by
  by_cases h : isupper c = true
  · have hcase := (isupper_iff c).mp h
    have hlower := tolower_toNat h
    rw [← UInt8.toNat_inj, ← UInt8.toNat_inj, UInt8.toNat_zero]
    omega
  · rw [tolower, if_neg h]

/-- Folding to lower case first does not change the upper case. -/
theorem toupper_tolower (c : UInt8) : toupper (tolower c) = toupper c := by
  by_cases h : isupper c = true
  · have hcase := (isupper_iff c).mp h
    have hlower := tolower_toNat h
    have hsmall : islower (tolower c) = true := (islower_iff _).mpr (by omega)
    have hcapital : ¬ islower c = true := fun hc => by
      have := (islower_iff c).mp hc
      omega
    rw [toupper, if_pos hsmall, toupper, if_neg hcapital, tolower, if_pos h, UInt8.add_sub_cancel]
  · rw [tolower, if_neg h]

theorem strnchars_succ (n : Nat) (s : Bytes) :
    strnchars (n + 1) s = if s.headD 0 = 0 then [] else s.headD 0 :: strnchars n s.tail := by
  cases s with
  | nil => rfl
  | cons c s =>
    rw [strnchars, List.take_succ_cons]
    by_cases hc : c = 0
    · simp [hc]
    · simp [hc, strnchars]

theorem strnchars_strnchars : ∀ (n : Nat) (s : Bytes), strnchars n (strnchars n s) = strnchars n s
  | 0, _ => rfl
  | n + 1, s => by
    rw [strnchars_succ n s]
    split
    next => rfl
    next hc => rw [strnchars_succ, List.headD_cons, if_neg hc, List.tail_cons, strnchars_strnchars n]

/-- Two comparisons differ in the first character, or behind it if that is not the end. -/
theorem strnchars_fold_iff (n : Nat) (s t : Bytes) :
    (strnchars (n + 1) s).map tolower = (strnchars (n + 1) t).map tolower
      ↔ tolower (s.headD 0) = tolower (t.headD 0) ∧
        (tolower (s.headD 0) ≠ 0 → (strnchars n s.tail).map tolower = (strnchars n t.tail).map tolower) := by
  rw [strnchars_succ, strnchars_succ, Ne, tolower_eq_zero_iff]
  generalize s.headD 0 = c
  generalize t.headD 0 = d
  by_cases hc : c = 0
  · by_cases hd : d = 0
    · simp [hc, hd]
    · have hne : tolower 0 ≠ tolower d := fun h => hd ((tolower_eq_zero_iff _).mp h.symm)
      simp [hc, hd, hne]
  · by_cases hd : d = 0
    · have hne : tolower c ≠ tolower 0 := fun h => hc ((tolower_eq_zero_iff _).mp h)
      simp [hc, hd, hne]
    · simp [hc, hd]

/-- The loop looks at the characters only. -/
theorem strncasecmpLoop_eq_zero_iff : ∀ (n : Nat) (s t : Bytes),
    strncasecmpLoop s t n = 0 ↔ (strnchars n s).map tolower = (strnchars n t).map tolower
  | 0, _, _ => ⟨fun _ => rfl, fun _ => rfl⟩
  | n + 1, s, t => by
    rw [strnchars_fold_iff, strncasecmpLoop]
    have hdifference : ((tolower (s.headD 0)).toNat : Int) - (tolower (t.headD 0)).toNat = 0
        ↔ tolower (s.headD 0) = tolower (t.headD 0) := by
      rw [← UInt8.toNat_inj]
      omega
    split
    next h =>
      rw [strncasecmpLoop_eq_zero_iff n, and_iff_right h.2.1]
      exact ⟨fun hrest _ => hrest, fun hrest => hrest h.2.2⟩
    next h =>
    rw [hdifference]
    refine ⟨fun heq => ⟨heq, fun hne => ?_⟩, fun hboth => hboth.1⟩
    -- the comparison has ended because there are no characters left
    have hn : n = 0 := Nat.eq_zero_of_not_pos fun hn => h ⟨hn, heq, hne⟩
    rw [hn]
    rfl

/-- So does the comparison, if there is something to compare. -/
theorem strncasecmp_eq_zero_iff {n : Nat} (hn : n ≠ 0) (s t : Bytes) :
    strncasecmp s t n = 0 ↔ (strnchars n s).map tolower = (strnchars n t).map tolower := by
  rw [strncasecmp, if_neg hn, strncasecmpLoop_eq_zero_iff]

end Barebox
