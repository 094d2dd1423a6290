import Mathlib

/-!
# Insertion into a sorted list

Linked lists that are kept sorted insert a new element in front of the
first one at which a comparison says stop. With a total order that is
insertion sort; the comparisons found in practice are not always that well
behaved, so the lemma here asks only for what it uses.
-/

namespace Barebox.Lib

variable {α : Type}

/-- Insertion keeps a list sorted by `R` (which holds from earlier to later
elements) when stopping and not stopping at `y` both agree with `R`, and
the element inserted may also stand in front of everything behind `y`. -/
theorem orderedInsert_pairwise {stop R : α → α → Prop} [DecidableRel stop] {x : α}
    (hgo : ∀ y, ¬ stop x y → R y x) (hstop : ∀ y, stop x y → R x y)
    (hbehind : ∀ y z, stop x y → R y z → R x z) :
    ∀ {l : List α}, l.Pairwise R → (l.orderedInsert stop x).Pairwise R
  | [], _ => List.pairwise_singleton _ _
  | y :: l, h => by
    obtain ⟨hy, hl⟩ := List.pairwise_cons.mp h
    rw [List.orderedInsert_cons]
    split
    · next hs =>
      exact List.pairwise_cons.mpr ⟨List.forall_mem_cons.mpr ⟨hstop y hs, fun z hz => hbehind y z hs (hy z hz)⟩, h⟩
    next hs =>
    refine List.pairwise_cons.mpr ⟨?_, orderedInsert_pairwise hgo hstop hbehind hl⟩
    intro z hz
    rcases (List.mem_orderedInsert stop).mp hz with rfl | hz
    · exact hgo y hs
    · exact hy z hz

end Barebox.Lib
