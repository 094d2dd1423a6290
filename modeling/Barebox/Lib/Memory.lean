import Mathlib

/-!
# Copies between memories

A memory is a value for every address. `copy` is `memcpy`, and `peek` reads a
list of values; a copy is read back inside of its destination, and nothing
else is changed.
-/

namespace Barebox.Lib

/-- A value for every address. -/
abbrev Memory (β : Type) : Type := Nat → β

variable {β : Type}

/-- `n` values at `src` are copied to `dst`. -/
def copy (old : Memory β) (dst : Nat) (src : Memory β) (off n : Nat) : Memory β := fun x =>
  if dst ≤ x ∧ x < dst + n then src (off + (x - dst)) else old x

def peek (m : Memory β) (off n : Nat) : List β := (List.range n).map fun i => m (off + i)

variable {off dst x n : Nat}

theorem copy_of_mem {old src : Memory β} (h : dst ≤ x ∧ x < dst + n) :
    copy old dst src off n x = src (off + (x - dst)) := if_pos h

theorem copy_of_not_mem {old src : Memory β} (h : ¬ (dst ≤ x ∧ x < dst + n)) :
    copy old dst src off n x = old x := if_neg h

theorem copy_zero (old src : Memory β) : copy old dst src off 0 = old :=
  funext fun _ => copy_of_not_mem (by omega)

/-- A copy to where it comes from. -/
theorem copy_self (m : Memory β) : copy m dst (fun i => m (dst + i)) 0 n = m := by
  funext x
  unfold copy
  split
  case isTrue h => exact congrArg m (by omega)
  case isFalse => rfl

/-- A copy in two parts. -/
theorem copy_copy (old src : Memory β) (dst n k : Nat) :
    copy (copy old dst src 0 n) (dst + n) (fun i => src (n + i)) 0 k = copy old dst src 0 (n + k) := by
  funext x
  unfold copy
  split
  case isTrue h =>
    rw [if_pos (by omega)]
    exact congrArg src (by omega)
  case isFalse h =>
    split
    case isTrue h' => rw [if_pos (by omega)]
    case isFalse h' => rw [if_neg (by omega)]

@[simp] theorem length_peek (m : Memory β) (off n : Nat) : (peek m off n).length = n := by
  unfold peek
  rw [List.length_map, List.length_range]

theorem getElem?_peek {m : Memory β} {i : Nat} (h : i < n) :
    (peek m off n)[i]? = some (m (off + i)) := by
  unfold peek
  rw [List.getElem?_map, List.getElem?_range h]
  rfl

end Barebox.Lib
