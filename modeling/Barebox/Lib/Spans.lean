import Mathlib

/-!
# Pieces of a tape

A single pass over positions `0, 1, 2, …` that decides piece by piece what
to keep, and records what it keeps as spans: neighbouring pieces become one
span, which is closed when a piece is dropped. `Spans.note` is the one step
of that pass; at the end, `Spans.finish` closes what is still open.

`note_covers` is all there is to know about a step: the positions covered
afterwards are those covered before and, if the piece is kept, its own.
-/

namespace Barebox.Lib

/-- `len` positions from `start` on. -/
structure Span where
  start : Nat
  len : Nat
  deriving DecidableEq

def Span.Has (sp : Span) (i : Nat) : Prop := sp.start ≤ i ∧ i < sp.start + sp.len

instance (sp : Span) (i : Nat) : Decidable (sp.Has i) := inferInstanceAs (Decidable (_ ∧ _))

theorem Span.has_start {start len : Nat} (h : 0 < len) : (Span.mk start len).Has start :=
  ⟨Nat.le_refl _, Nat.lt_add_of_pos_right h⟩

/-- Position `i` lies in one of the spans. -/
def InSpans (l : List Span) (i : Nat) : Prop := ∃ sp ∈ l, sp.Has i

instance (l : List Span) (i : Nat) : Decidable (InSpans l i) :=
  inferInstanceAs (Decidable (∃ sp ∈ l, sp.Has i))

theorem inSpans_concat {l : List Span} {sp : Span} {i : Nat} :
    InSpans (l ++ [sp]) i ↔ InSpans l i ∨ sp.Has i := by
  simp [InSpans, or_and_right, exists_or]

/-- The spans that are closed, and the start of the open one. -/
structure Spans where
  closed : List Span
  opened : Option Nat
  deriving DecidableEq

namespace Spans

/-- The piece at `pos` is kept, or not. -/
def note (s : Spans) (pos : Nat) (keep : Bool) : Spans :=
  match keep, s.opened with
  | true, none => { s with opened := some pos }
  | true, some _ => s
  | false, none => s
  | false, some st => ⟨s.closed ++ [⟨st, pos - st⟩], none⟩

/-- The pass ends at `pos`. -/
def finish (s : Spans) (pos : Nat) : List Span :=
  match s.opened with
  | none => s.closed
  | some st => s.closed ++ [⟨st, pos - st⟩]

/-- What is covered when the pass has come to `pos`. -/
def Covers (s : Spans) (pos i : Nat) : Prop :=
  InSpans s.closed i ∨ ∃ st, s.opened = some st ∧ st ≤ i ∧ i < pos

/-- Everything recorded lies before `pos`. -/
structure Below (s : Spans) (pos : Nat) : Prop where
  closed : ∀ sp ∈ s.closed, sp.start + sp.len ≤ pos
  opened : ∀ st, s.opened = some st → st ≤ pos

variable {s : Spans} {pos pos' : Nat}

theorem Below.lt (h : s.Below pos) {i : Nat} (hi : s.Covers pos i) : i < pos := by
  rcases hi with ⟨sp, hsp, -, hlt⟩ | ⟨st, -, -, hlt⟩
  · exact Nat.lt_of_lt_of_le hlt (h.closed sp hsp)
  · exact hlt

/-- A bit that is noted keeps the spans in front of the position. -/
theorem Below.note (h : s.Below pos) (hle : pos ≤ pos') (keep : Bool) :
    (s.note pos keep).Below pos' := by
  have hclosed : ∀ sp ∈ s.closed, sp.start + sp.len ≤ pos' :=
    fun sp hsp => Nat.le_trans (h.closed sp hsp) hle
  have hopened : ∀ st, s.opened = some st → st ≤ pos' :=
    fun st hst => Nat.le_trans (h.opened st hst) hle
  unfold Spans.note
  split
  next => exact ⟨hclosed, fun st hst => Option.some.inj hst ▸ hle⟩
  next => exact ⟨hclosed, hopened⟩
  next => exact ⟨hclosed, hopened⟩
  next st ho =>
    refine ⟨List.forall_mem_append.mpr ⟨hclosed, List.forall_mem_singleton.mpr ?_⟩, nofun⟩
    show st + (pos - st) ≤ pos'
    rw [Nat.add_sub_cancel' (h.opened st ho)]
    exact hle

theorem inSpans_close {l : List Span} {st i : Nat} (h : st ≤ pos) :
    InSpans (l ++ [⟨st, pos - st⟩]) i ↔ InSpans l i ∨ st ≤ i ∧ i < pos := by
  rw [inSpans_concat, Span.Has, Nat.add_sub_cancel' h]

/-- One piece more. -/
theorem note_covers (h : s.Below pos) (hle : pos ≤ pos') (keep : Bool) (i : Nat) :
    (s.note pos keep).Covers pos' i ↔ s.Covers pos i ∨ (keep = true ∧ pos ≤ i ∧ i < pos') := by
  cases ho : s.opened with
  | none => cases keep <;> simp [Spans.note, Covers, ho]
  | some st =>
    have hst := h.opened st ho
    cases keep with
    | true =>
      have hi : st ≤ i ∧ i < pos' ↔ st ≤ i ∧ i < pos ∨ pos ≤ i ∧ i < pos' := by omega
      simp [Spans.note, Covers, ho, hi, or_assoc]
    | false => simp [Spans.note, Covers, ho, inSpans_close hst]

/-- The end of the pass covers what was covered. -/
theorem mem_finish (h : s.Below pos) (i : Nat) : InSpans (s.finish pos) i ↔ s.Covers pos i := by
  cases ho : s.opened with
  | none => simp [finish, Covers, ho]
  | some st => simp [finish, Covers, ho, inSpans_close (h.opened st ho)]

end Spans

end Barebox.Lib
