import Mathlib

/-!
# Hash chains

A table of chains over the entries `0, 1, 2, …` of an array: each entry has a link to
another one, each bucket has a first entry. Entries are hooked in at the front one after the
other, so that a chain goes from the highest entry of its bucket down to the lowest.

`find?_bucket` is what such a table is for: if only entries of one bucket can pass a test,
then the first entry of this bucket's chain that does is the highest of all.
-/

namespace Barebox.Lib

/-- From `first` the links go through `l` and end. -/
inductive Chain (next : Nat → Option Nat) : Option Nat → List Nat → Prop where
  | nil : Chain next none []
  | cons {i : Nat} {l : List Nat} : Chain next (next i) l → Chain next (some i) (i :: l)

variable {next heads : Nat → Option Nat}
variable {hash : Nat → Nat} {h : Nat} {test : Nat → Bool} {l : List Nat} {first : Option Nat}

theorem Chain.congr {next' : Nat → Option Nat}
    (h : Chain next first l) (hsame : ∀ i ∈ l, next' i = next i) : Chain next' first l := by
  induction h with
  | nil => exact .nil
  | @cons i l _ ih =>
    refine .cons ?_
    rw [hsame i (List.mem_cons_self ..)]
    exact ih fun j hj => hsame j (List.mem_cons_of_mem _ hj)

/-- Walks a chain to the first entry that passes the test. Without an end, there is no result. -/
def follow (next : Nat → Option Nat) (test : Nat → Bool) : Nat → Option Nat → Option (Option Nat)
  | 0, _ => none
  | _ + 1, none => some none
  | fuel + 1, some i => if test i then some (some i) else follow next test fuel (next i)

/-- Following the links finds what a search of the list does. -/
theorem follow_eq (h : Chain next first l)
    (test : Nat → Bool) : ∀ {fuel : Nat}, l.length < fuel → follow next test fuel first = some (l.find? test) := by
  induction h with
  | nil =>
    intro fuel hfuel
    obtain ⟨fuel, rfl⟩ := Nat.exists_eq_succ_of_ne_zero (Nat.ne_of_gt hfuel)
    rfl
  | @cons i l _ ih =>
    intro fuel hfuel
    obtain ⟨fuel, rfl⟩ := Nat.exists_eq_succ_of_ne_zero (Nat.ne_of_gt (Nat.zero_lt_of_lt hfuel))
    rw [follow, List.find?_cons]
    cases test i with
    | true => rfl
    | false => exact ih (Nat.lt_of_succ_lt_succ hfuel)

/-! ## Buckets -/

/-- The entries below `n` with the hash `h`, the highest first. -/
def bucket (hash : Nat → Nat) (h : Nat) : Nat → List Nat
  | 0 => []
  | i + 1 => if hash i = h then i :: bucket hash h i else bucket hash h i

variable {i n : Nat}

theorem mem_bucket : ∀ {n : Nat}, i ∈ bucket hash h n → i < n
  | n + 1, hi => by
    rw [bucket] at hi
    split at hi
    · rcases List.mem_cons.mp hi with rfl | hi
      · exact Nat.lt_succ_self _
      · exact Nat.lt_succ_of_lt (mem_bucket hi)
    · exact Nat.lt_succ_of_lt (mem_bucket hi)

theorem length_bucket_le (hash : Nat → Nat) (h : Nat) : ∀ (n : Nat), (bucket hash h n).length ≤ n
  | 0 => Nat.le_refl _
  | n + 1 => by
    have ih := length_bucket_le hash h n
    rw [bucket]
    split
    · exact Nat.succ_le_succ ih
    · exact Nat.le_succ_of_le ih

/-- All entries below `n` are hooked in. -/
def Hooked (hash : Nat → Nat) (heads next : Nat → Option Nat) (n : Nat) : Prop :=
  ∀ h, Chain next (heads h) (bucket hash h n)

theorem Hooked.zero (hash : Nat → Nat) (next : Nat → Option Nat)
    (hempty : ∀ h, heads h = none) : Hooked hash heads next 0 :=
  fun h => (hempty h).symm ▸ .nil

/-- The next entry goes to the front of its chain. -/
theorem Hooked.step {heads' next' : Nat → Option Nat}
    (h : Hooked hash heads next n) (hhead : heads' (hash n) = some n) (hlink : next' n = heads (hash n))
    (hheads : ∀ k, k ≠ hash n → heads' k = heads k) (hnext : ∀ i, i < n → next' i = next i) :
    Hooked hash heads' next' (n + 1) := by
  intro k
  have hold : Chain next' (heads k) (bucket hash k n) := (h k).congr fun i hi => hnext i (mem_bucket hi)
  rw [bucket]
  split
  next hk =>
    rw [← hk, hhead]
    refine .cons ?_
    rw [hlink, hk]
    exact hold
  next hk =>
  rw [hheads k (Ne.symm hk)]
  exact hold

/-! ## The highest entry -/

/-- The highest entry below `n` that passes the test -/
def highest (test : Nat → Bool) : Nat → Option Nat
  | 0 => none
  | i + 1 => if test i then some i else highest test i

/-- The highest index that passes a test, … -/
theorem highest_eq_some_iff : ∀ {n : Nat},
    highest test n = some i ↔ i < n ∧ test i = true ∧ ∀ j, i < j → j < n → test j = false
  | 0 => by simp [highest]
  | n + 1 => by
    rw [highest]
    split
    next hn =>
      constructor
      · intro h
        cases h
        exact ⟨Nat.lt_succ_self _, hn, fun j hij hj => absurd hj (Nat.not_lt.mpr hij)⟩
      · intro ⟨hi, _, hlast⟩
        rcases Nat.lt_or_eq_of_le (Nat.le_of_lt_succ hi) with hlt | rfl
        · exact absurd (hlast n hlt (Nat.lt_succ_self _)) (by simp [hn])
        · rfl
    next hn =>
    rw [highest_eq_some_iff]
    constructor
    · intro ⟨hi, htest, hlast⟩
      refine ⟨Nat.lt_succ_of_lt hi, htest, fun j hij hj => ?_⟩
      rcases Nat.lt_or_eq_of_le (Nat.le_of_lt_succ hj) with hlt | rfl
      · exact hlast j hij hlt
      · exact (Bool.not_eq_true _).mp hn
    · intro ⟨hi, htest, hlast⟩
      have hne : i ≠ n := fun h => hn (h ▸ htest)
      exact ⟨Nat.lt_of_le_of_ne (Nat.le_of_lt_succ hi) hne, htest,
        fun j hij hj => hlast j hij (Nat.lt_succ_of_lt hj)⟩

/-- … if there is one. -/
theorem highest_eq_none_iff : ∀ {n : Nat}, highest test n = none ↔ ∀ i, i < n → test i = false
  | 0 => by simp [highest]
  | n + 1 => by
    rw [highest]
    split
    next hn =>
      refine ⟨nofun, fun h => ?_⟩
      exact absurd (h n (Nat.lt_succ_self _)) (by simp [hn])
    next hn =>
    rw [highest_eq_none_iff]
    constructor
    · intro h i hi
      rcases Nat.lt_or_eq_of_le (Nat.le_of_lt_succ hi) with hlt | rfl
      · exact h i hlt
      · exact (Bool.not_eq_true _).mp hn
    · exact fun h i hi => h i (Nat.lt_succ_of_lt hi)

/-- One bucket is enough to look at. -/
theorem find?_bucket : ∀ {n : Nat},
    (∀ i, i < n → test i = true → hash i = h) → (bucket hash h n).find? test = highest test n
  | 0, _ => rfl
  | n + 1, honly => by
    have ih : (bucket hash h n).find? test = highest test n :=
      find?_bucket fun i hi => honly i (Nat.lt_succ_of_lt hi)
    rw [bucket, highest]
    by_cases htest : test n = true
    · rw [if_pos (honly n (Nat.lt_succ_self _) htest), if_pos htest, List.find?_cons_of_pos htest]
    · rw [← ih]
      split
      next => rw [List.find?_cons_of_neg htest]
      next => rfl

/-- Linear and hashed search agree. -/
theorem Hooked.follow_eq_highest
    (hooked : Hooked hash heads next n) (honly : ∀ i, i < n → test i = true → hash i = h) :
    follow next test (n + 1) (heads h) = some (highest test n) := by
  rw [follow_eq (hooked h) test (Nat.lt_succ_of_le (length_bucket_le ..)), find?_bucket honly]

end Barebox.Lib
