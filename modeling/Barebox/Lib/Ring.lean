import Mathlib

/-!
# A ring without a count

Values are put into a ring at one index and taken out at another, and both indices wrap.
The ring counts as empty when they are the same, which they are again when the last free
slot has been filled: `contents_put` says that all that was in the ring is lost then.
-/

namespace Barebox.Lib

/-- A ring of `n + 1` slots -/
structure Ring (n : Nat) (α : Type) where
  slot : Fin (n + 1) → α
  write : Fin (n + 1)
  read : Fin (n + 1)

namespace Ring

variable {n : Nat} {α : Type} (r : Ring n α) (x : α)

def put : Ring n α := { r with slot := Function.update r.slot r.write x, write := r.write + 1 }

def get : Option α × Ring n α :=
  if r.read = r.write then (none, r) else (some (r.slot r.read), { r with read := r.read + 1 })

/-- What can be taken out, first the next one -/
def contents : List α := (List.range (r.write - r.read).val).map fun i => r.slot (r.read + Fin.ofNat (n + 1) i)

theorem contents_length : r.contents.length = (r.write - r.read).val := by
  rw [contents, List.length_map, List.length_range]

/-- The number of a slot is its distance from the read index. -/
theorem add_ofNat_eq_iff {a b : Fin (n + 1)} {i : Nat} (hi : i < n + 1) :
    a + Fin.ofNat (n + 1) i = b ↔ i = (b - a).val := by
  rw [← eq_sub_iff_add_eq', Fin.ext_iff, Fin.val_ofNat, Nat.mod_eq_of_lt hi]

/-- A full ring looks empty. -/
theorem contents_put : (r.put x).contents = if r.contents.length < n then r.contents ++ [x] else [] := by
  have hdiff : (r.put x).write - (r.put x).read = r.write - r.read + 1 := add_sub_right_comm ..
  have hlt := (r.write - r.read).isLt
  rw [contents_length, contents, hdiff, Fin.val_add_one]
  split
  next hlast => rw [if_neg (by rw [hlast]; exact Nat.lt_irrefl n), List.range_zero, List.map_nil]
  next hlast =>
    rw [if_pos (Fin.val_lt_last hlast), List.range_succ, List.map_append]
    congr 1
    · refine List.map_congr_left fun i hi => Function.update_of_ne (fun heq => ?_) ..
      have hi := List.mem_range.mp hi
      exact absurd ((add_ofNat_eq_iff (by omega)).mp heq) (Nat.ne_of_lt hi)
    · have hslot : r.read + Fin.ofNat (n + 1) (r.write - r.read).val = r.write := (add_ofNat_eq_iff hlt).mpr rfl
      show [Function.update r.slot r.write x (r.read + _)] = [x]
      rw [hslot, Function.update_self]

/-- The oldest comes first. -/
theorem get_cases : (r.contents = [] ∧ r.get = (none, r)) ∨
    ∃ x, r.get.1 = some x ∧ r.contents = x :: r.get.2.contents := by
  unfold get contents
  split
  next heq => exact Or.inl ⟨by rw [heq, sub_self]; rfl, rfl⟩
  next hne =>
    refine Or.inr ⟨_, rfl, ?_⟩
    have hdiff : r.write - r.read ≠ 0 := sub_ne_zero.mpr (Ne.symm hne)
    obtain ⟨m, hm⟩ := Nat.exists_eq_succ_of_ne_zero (Fin.val_ne_zero_iff.mpr hdiff)
    rw [← sub_sub, Fin.val_sub_one_of_ne_zero hdiff, hm, List.range_succ_eq_map, List.map_cons, List.map_map]
    congr 1
    · exact congrArg r.slot (add_zero _)
    · refine List.map_congr_left fun i _ => congrArg r.slot ?_
      rw [add_assoc]
      exact congrArg (r.read + ·) (Fin.ext (by simp [Fin.val_add, Nat.add_comm]))

end Ring

end Barebox.Lib
