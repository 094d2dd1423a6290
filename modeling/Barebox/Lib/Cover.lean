import Mathlib

/-!
# Covering a line with ranges

Ranges of whole numbers, both ends included, in a list: in order, not empty and not even
touching each other (`Apart`). A new range is described by two things: the parts of it that
are not covered yet (`gaps`), and the list with it in place (`join`), in which it becomes one
with all ranges that it touches.

* `mem_gaps`, `gaps_ordered` — the gaps are the uncovered part, in order;
* `mem_join`, `Apart.join` — the new list covers what the old one does and the new range, and
  is a list of the same kind;
* `length_join` — it has one range more than those that the new one does not touch.
-/

namespace Barebox.Lib

open List

structure Range where
  first : Int
  last : Int
  deriving DecidableEq

namespace Range

def Has (r : Range) (x : Int) : Prop := r.first ≤ x ∧ x ≤ r.last

instance (r : Range) (x : Int) : Decidable (r.Has x) := inferInstanceAs (Decidable (_ ∧ _))

/-- The place is in one of the ranges. -/
def Covered (l : List Range) (x : Int) : Prop := ∃ r ∈ l, r.Has x

/-- One behind the other, with something in between -/
structure Apart (l : List Range) : Prop where
  nonempty : ∀ r ∈ l, r.first ≤ r.last
  between : l.Pairwise fun a b => a.last + 1 < b.first

/-- The parts of `first .. last` that are not covered -/
def gaps (first last : Int) : List Range → List Range
  | [] => if first ≤ last then [⟨first, last⟩] else []
  | r :: l =>
    (if first ≤ min last (r.first - 1) then [⟨first, min last (r.first - 1)⟩] else [])
      ++ gaps (max first (r.last + 1)) last l

/-- The list with `first .. last` in it -/
def join (first last : Int) : List Range → List Range
  | [] => [⟨first, last⟩]
  | r :: l =>
    if r.last < first - 1 then r :: join first last l
    else if last < r.first - 1 then ⟨first, last⟩ :: r :: l
    else join (min first r.first) (max last r.last) l

variable {first last : Int} {r : Range} {l : List Range} {x : Int}

theorem covered_cons : Covered (r :: l) x ↔ r.Has x ∨ Covered l x := by
  simp [Covered]

theorem covered_append {l' : List Range} : Covered (l ++ l') x ↔ Covered l x ∨ Covered l' x := by
  simp [Covered, or_and_right, exists_or]

theorem Apart.tail (h : Apart (r :: l)) : Apart l :=
  ⟨fun s hs => h.nonempty s (mem_cons_of_mem _ hs), (pairwise_cons.mp h.between).2⟩

theorem Apart.head (h : Apart (r :: l)) : r.first ≤ r.last := h.nonempty r (mem_cons_self)

theorem Apart.behind (h : Apart (r :: l)) : ∀ s ∈ l, r.last + 1 < s.first := (pairwise_cons.mp h.between).1

theorem Apart.cons (hr : r.first ≤ r.last) (hbehind : ∀ s ∈ l, r.last + 1 < s.first) (h : Apart l) : Apart (r :: l) := by
  exact ⟨forall_mem_cons.mpr ⟨hr, h.nonempty⟩, pairwise_cons.mpr ⟨hbehind, h.between⟩⟩

/-! ## Gaps -/

theorem gaps_of_lt : ∀ {l : List Range} {first : Int}, last < first → gaps first last l = []
  | [], _, h => if_neg (Int.not_le.mpr h)
  | r :: l, first, h => by
    rw [gaps, if_neg (by omega), gaps_of_lt (by omega)]
    rfl

/-- A gap is not empty and lies in the range it is a gap of. -/
theorem le_of_mem_gaps : ∀ {l : List Range} {first : Int}, r ∈ gaps first last l →
    first ≤ r.first ∧ r.first ≤ r.last ∧ r.last ≤ last
  | [], first, h => by
    rw [gaps] at h
    split at h
    · obtain rfl := mem_singleton.mp h
      exact ⟨Int.le_refl _, by assumption, Int.le_refl _⟩
    · nomatch h
  | s :: l, first, h => by
    rcases mem_append.mp h with h | h
    · split at h
      · obtain rfl := mem_singleton.mp h
        dsimp only
        omega
      · nomatch h
    · have ih := le_of_mem_gaps h
      omega

/-- The gaps are not empty, and in order. -/
theorem gaps_ordered : ∀ {l : List Range} {first : Int}, Apart l →
    (gaps first last l).Pairwise fun a b => a.last < b.first
  | [], first, _ => by
    rw [gaps]
    split
    · exact pairwise_singleton ..
    · exact List.Pairwise.nil
  | s :: l, first, h => by
    refine pairwise_append.mpr ⟨?_, gaps_ordered h.tail, ?_⟩
    · split
      · exact pairwise_singleton ..
      · exact List.Pairwise.nil
    · intro a ha b hb
      have hle := le_of_mem_gaps hb
      have hs := h.head
      split at ha
      · obtain rfl := mem_singleton.mp ha
        dsimp only
        omega
      · nomatch ha

/-- The gaps are the points of the range that the list leaves open. -/
theorem mem_gaps {x : Int} : ∀ {l : List Range} {first : Int}, Apart l →
    (Covered (gaps first last l) x ↔ first ≤ x ∧ x ≤ last ∧ ¬ Covered l x)
  | [], first, _ => by
    rw [gaps]
    split
    next => simp [Covered, Has]
    next h =>
    simp only [Covered, not_mem_nil, false_and, exists_false, not_false_eq_true, and_true, false_iff]
    omega
  | s :: l, first, h => by
    have ih := @mem_gaps x l (max first (s.last + 1)) h.tail
    have hs := h.head
    -- what is below the head is in front of all the others
    have hfront : x < s.first → ¬ Covered l x := by
      intro hx ⟨t, ht, htx⟩
      have := h.behind t ht
      unfold Has at htx
      omega
    have hpiece : Covered (if first ≤ min last (s.first - 1) then [⟨first, min last (s.first - 1)⟩] else []) x
        ↔ first ≤ x ∧ x ≤ last ∧ x < s.first := by
      split
      next => simp only [Covered, mem_singleton, exists_eq_left, Has]; omega
      next => simp only [Covered, not_mem_nil, false_and, exists_false, false_iff]; omega
    rw [gaps, covered_append, hpiece, ih, covered_cons, Has]
    constructor
    · rintro (⟨hlo, hhi, hx⟩ | ⟨hlo, hhi, hx⟩)
      · exact ⟨hlo, hhi, fun hcov => hcov.elim (fun hin => by omega) (hfront hx)⟩
      · exact ⟨by omega, hhi, fun hcov => hcov.elim (fun hin => by omega) hx⟩
    · rintro ⟨hlo, hhi, hx⟩
      by_cases hbefore : x < s.first
      · exact Or.inl ⟨hlo, hhi, hbefore⟩
      · refine Or.inr ⟨?_, hhi, fun hcov => hx (Or.inr hcov)⟩
        have hbehind : ¬ (s.first ≤ x ∧ x ≤ s.last) := fun hin => hx (Or.inl hin)
        omega

/-! ## Joining -/

theorem join_of_lt (h : ∀ s ∈ l, last + 1 < s.first) (hle : first ≤ last) (hl : Apart l) :
    join first last l = ⟨first, last⟩ :: l := by
  cases l with
  | nil => rfl
  | cons s l =>
    have hs := h s (mem_cons_self)
    have hhead := hl.head
    rw [join, if_neg (by omega), if_pos (by omega)]

/-- Joining a range in covers its points, and no others that were not covered before. -/
theorem mem_join : ∀ {l : List Range} {first last : Int}, first ≤ last → Apart l →
    (Covered (join first last l) x ↔ (first ≤ x ∧ x ≤ last) ∨ Covered l x)
  | [], first, last, _, _ => by simp [join, Covered, Has]
  | s :: l, first, last, hle, h => by
    rw [join]
    split
    next =>
      rw [covered_cons, mem_join hle h.tail, covered_cons]
      exact or_left_comm
    next hbefore =>
    split
    next =>
      rw [covered_cons]
      rfl
    next hbehind =>
    rw [mem_join (by omega) h.tail, covered_cons, ← or_assoc]
    refine or_congr_left ?_
    unfold Has
    omega

/-- Joining keeps the ranges apart, and behind every point that all were behind. -/
theorem Apart.join : ∀ {l : List Range} {first last : Int}, first ≤ last → Apart l →
    Apart (join first last l) ∧ ∀ b, b + 1 < first → (∀ s ∈ l, b + 1 < s.first) → ∀ s ∈ Range.join first last l, b + 1 < s.first
  | [], first, last, hle, _ => by
    refine ⟨Apart.cons hle nofun ⟨nofun, List.Pairwise.nil⟩, fun b hb _ s hs => ?_⟩
    obtain rfl := mem_singleton.mp hs
    exact hb
  | t :: l, first, last, hle, h => by
    have ht := h.head
    rw [Range.join]
    split
    next hbefore =>
      obtain ⟨hapart, hlow⟩ := Apart.join hle h.tail
      refine ⟨Apart.cons ht (hlow t.last (by omega) h.behind) hapart, fun b hb hall => ?_⟩
      obtain ⟨hfirst, hall⟩ := forall_mem_cons.mp hall
      exact forall_mem_cons.mpr ⟨hfirst, hlow b hb hall⟩
    next hbefore =>
    split
    next hbehind =>
      refine ⟨Apart.cons hle (forall_mem_cons.mpr ⟨by dsimp only; omega, fun s hs => ?_⟩) h,
        fun b hb hall => forall_mem_cons.mpr ⟨hb, hall⟩⟩
      have := h.behind s hs
      dsimp only
      omega
    next hbehind =>
    obtain ⟨hapart, hlow⟩ := @Apart.join l (min first t.first) (max last t.last) (by omega) h.tail
    refine ⟨hapart, fun b hb hall s hs => hlow b ?_ (fun u hu => hall u (mem_cons_of_mem _ hu)) s hs⟩
    have := hall t (mem_cons_self)
    omega

/-- In common with `first .. last` or next to it -/
def Touches (first last : Int) (r : Range) : Prop := first - 1 ≤ r.last ∧ r.first ≤ last + 1

instance (first last : Int) (r : Range) : Decidable (r.Touches first last) := inferInstanceAs (Decidable (_ ∧ _))

/-- The ranges that are touched go, and one comes in. -/
theorem length_join : ∀ {l : List Range} {first last : Int}, first ≤ last → Apart l →
    (join first last l).length + (l.filter (Touches first last)).length = l.length + 1
  | [], _, _, _, _ => rfl
  | r :: l, first, last, hle, h => by
    have hr := h.head
    rw [join]
    split
    next hbefore =>
      have hnot : ¬ r.Touches first last := fun ht => absurd ht.1 (by omega)
      rw [filter_cons_of_neg (by simpa using hnot), length_cons, length_cons]
      have ih := @length_join l first last hle h.tail
      omega
    next hbefore =>
    split
    next hbehind =>
      have hnone : (r :: l).filter (Touches first last) = [] := by
        refine filter_eq_nil_iff.mpr fun s hs => ?_
        simp only [decide_eq_true_eq]
        intro ht
        rcases mem_cons.mp hs with rfl | hs
        · exact absurd ht.2 (by omega)
        · have hbeyond := h.behind s hs
          exact absurd ht.2 (by omega)
      rw [hnone]
      rfl
    next hbehind =>
    have htouch : r.Touches first last := ⟨by omega, by omega⟩
    -- for the ranges behind it, the joined range ends where the new one does
    have hsame : l.filter (Touches (min first r.first) (max last r.last)) = l.filter (Touches first last) := by
      refine filter_congr fun s hs => ?_
      have hbeyond := h.behind s hs
      have hs := h.tail.nonempty s hs
      rw [decide_eq_decide]
      unfold Touches
      omega
    rw [filter_cons_of_pos (by simpa using htouch), length_cons, length_cons, ← hsame]
    have ih := @length_join l (min first r.first) (max last r.last) (by omega) h.tail
    omega

end Range

end Barebox.Lib
