import Mathlib

/-!
# Ranges in order

Things that have a range, from `lo` to `hi` with both ends included, kept in
a list one behind the other (`InOrder`). `place` is the search for the place of
a new range in such a list: it stops at the first range that begins behind the
new one, and gives up at one that meets it.

* `InOrder.apart` — of two ranges in order, one is behind the other;
* `place_some` — the list is cut where the new range belongs;
* `place_eq_none_iff` — the search gives up if and only if a range of the list
  meets the new one, although it does not look at all of them;
* `InOrder.insert` — put in there, the list is in order again.
-/

namespace Barebox.Lib

open List

variable {α β : Type} [LinearOrder β] {lo hi : α → β}

/-- Each range ends before the ones behind it begin. -/
def InOrder (lo hi : α → β) (l : List α) : Prop := l.Pairwise fun x y => hi x < lo y

/-- The range has a place in common with the one from `a` to `b`. -/
def Meets (lo hi : α → β) (a b : β) (x : α) : Prop := a ≤ hi x ∧ lo x ≤ b

/-- The ranges before and behind the one from `a` to `b`. -/
def place (lo hi : α → β) (a b : β) : List α → Option (List α × List α)
  | [] => some ([], [])
  | r :: rs =>
    if b < lo r then some ([], r :: rs)
    else if hi r < a then (place lo hi a b rs).map fun x => (r :: x.1, x.2)
    else none

variable {a b : β} {l pre post : List α}

theorem InOrder.congr {lo' hi' : α → β} (h : InOrder lo hi l) (hlo : ∀ x ∈ l, lo' x = lo x)
    (hhi : ∀ x ∈ l, hi' x = hi x) : InOrder lo' hi' l := by
  refine List.Pairwise.imp_of_mem (fun hx hy hxy => ?_) h
  rwa [hhi _ hx, hlo _ hy]

/-- Of two ranges one is behind the other. -/
theorem InOrder.apart {x y : α} (h : InOrder lo hi l) (hx : x ∈ l) (hy : y ∈ l) (hne : x ≠ y) :
    hi x < lo y ∨ hi y < lo x := by
  have : Std.Symm fun x y : α => hi x < lo y ∨ hi y < lo x := ⟨fun _ _ => Or.symm⟩
  have hapart : l.Pairwise fun x y => hi x < lo y ∨ hi y < lo x := Pairwise.imp Or.inl h
  exact hapart.forall hx hy hne

/-- A place between two ranges is found, or one of them is in the way. -/
theorem place_cases (lo hi : α → β) (a b : β) (l : List α) :
    place lo hi a b l = none ∧ (∃ x ∈ l, Meets lo hi a b x)
      ∨ ∃ pre post, place lo hi a b l = some (pre, post) ∧ l = pre ++ post ∧ (∀ x ∈ pre, hi x < a)
        ∧ ∀ r rs, post = r :: rs → b < lo r := by
  induction l with
  | nil => exact Or.inr ⟨[], [], rfl, rfl, nofun, nofun⟩
  | cons r rs ih =>
    rw [place]
    split
    next hb =>
      refine Or.inr ⟨[], r :: rs, rfl, rfl, nofun, fun r' rs' heq => ?_⟩
      cases heq
      exact hb
    next hb =>
    split
    next hr =>
      obtain ⟨hnone, x, hx, hm⟩ | ⟨pre, post, hsome, hl, hpre, hpost⟩ := ih
      · rw [hnone]
        exact Or.inl ⟨rfl, x, .tail _ hx, hm⟩
      · rw [hsome]
        exact Or.inr ⟨r :: pre, post, rfl, congrArg (r :: ·) hl, forall_mem_cons.mpr ⟨hr, hpre⟩, hpost⟩
    next hr => exact Or.inl ⟨rfl, r, .head _, not_lt.mp hr, not_lt.mp hb⟩

theorem place_some (h : place lo hi a b l = some (pre, post)) :
    l = pre ++ post ∧ (∀ x ∈ pre, hi x < a) ∧ ∀ r rs, post = r :: rs → b < lo r := by
  obtain ⟨hnone, -⟩ | ⟨_, _, hsome, hrest⟩ := place_cases lo hi a b l
  · rw [h] at hnone
    nomatch hnone
  · rw [h] at hsome
    cases hsome
    exact hrest

/-- Behind the new range is everything that is behind the first such range. -/
theorem place_behind (hle : ∀ x ∈ l, lo x ≤ hi x) (horder : InOrder lo hi l)
    (h : place lo hi a b l = some (pre, post)) : ∀ x ∈ post, b < lo x := by
  obtain ⟨rfl, -, hfirst⟩ := place_some h
  intro x hx
  cases post with
  | nil => nomatch hx
  | cons r rs =>
    have hr := hfirst r rs rfl
    rcases mem_cons.mp hx with rfl | hx
    · exact hr
    · have hpost : (r :: rs).Pairwise fun x y => hi x < lo y := (pairwise_append.mp horder).2.1
      have hrx : hi r < lo x := (pairwise_cons.mp hpost).1 x hx
      have hrr : lo r ≤ hi r := hle r (mem_append_right pre (.head _))
      exact lt_trans (lt_of_lt_of_le hr hrr) hrx

/-- On ordered ranges there is no place just if one is in the way. -/
theorem place_eq_none_iff (hle : ∀ x ∈ l, lo x ≤ hi x) (horder : InOrder lo hi l) :
    (place lo hi a b l = none ↔ ∃ x ∈ l, Meets lo hi a b x) := by
  obtain ⟨hnone, hm⟩ | ⟨pre, post, hsome, hl, hpre, -⟩ := place_cases lo hi a b l
  · exact iff_of_true hnone hm
  · rw [hsome]
    refine iff_of_false nofun fun ⟨x, hx, hxa, hxb⟩ => ?_
    rw [hl, mem_append] at hx
    rcases hx with hx | hx
    · exact absurd hxa (not_le.mpr (hpre x hx))
    · exact absurd hxb (not_le.mpr (place_behind hle horder hsome x hx))

theorem InOrder.insert {new : α} (h : InOrder lo hi (pre ++ post)) (hpre : ∀ x ∈ pre, hi x < lo new)
    (hpost : ∀ x ∈ post, hi new < lo x) : InOrder lo hi (pre ++ new :: post) := by
  obtain ⟨hp, hq, hpq⟩ := pairwise_append.mp h
  exact pairwise_append.mpr ⟨hp, pairwise_cons.mpr ⟨hpost, hq⟩,
    fun x hx => forall_mem_cons.mpr ⟨hpre x hx, hpq x hx⟩⟩

end Barebox.Lib
