import Barebox.Lib.Bytes

/-!
# Words in memory

Memory is a byte string for every object (`Store`), and a `Cell` is a
big-endian word of four bytes inside of one. Words can be edited one after
the other. Where two cells are the same or do not overlap, a word is changed
by the edits of its own cell, in their order, and no byte by any other:

* `word_run` — a word, after all edits;
* `getElem?_run` — a byte that no edit covers;
* `run_of_ref` — an object that no edit is about.

`foldlM_makes` is for code that edits as it goes, and may fail.
-/

namespace Barebox.Lib

variable {ρ : Type} [DecidableEq ρ]
variable {r : ρ}

/-- The bytes of every object. -/
abbrev Store (ρ : Type) : Type := ρ → Bytes

/-- A word, by its object and its offset there. -/
structure Cell (ρ : Type) where
  ref : ρ
  off : Nat
  deriving DecidableEq

namespace Cell

/-- The words do not overlap. -/
def Apart (c d : Cell ρ) : Prop := c.ref = d.ref → c.off + 4 ≤ d.off ∨ d.off + 4 ≤ c.off

/-- The byte belongs to the word. -/
def Covers (c : Cell ρ) (r : ρ) (i : Nat) : Prop := c.ref = r ∧ c.off ≤ i ∧ i < c.off + 4

omit [DecidableEq ρ] in
theorem Apart.symm {c d : Cell ρ} (h : c.Apart d) : d.Apart c := fun href => (h href.symm).symm

end Cell

namespace Store

/-- The word lies inside of its object. -/
def Has (s : Store ρ) (c : Cell ρ) : Prop := c.off + 4 ≤ (s c.ref).length

def word (s : Store ρ) (c : Cell ρ) : Nat := beNat (slice c.off 4 (s c.ref))

def setWord (s : Store ρ) (c : Cell ρ) (v : Nat) : Store ρ := fun r =>
  if r = c.ref then overwrite c.off (beBytes 4 v) (s r) else s r

variable {s : Store ρ} {c d : Cell ρ}

theorem setWord_self (v : Nat) :
    s.setWord c v c.ref = overwrite c.off (beBytes 4 v) (s c.ref) := if_pos rfl

theorem setWord_of_ne (h : r ≠ c.ref) (v : Nat) : s.setWord c v r = s r := if_neg h

theorem length_setWord (h : s.Has c) (v : Nat) (r : ρ) : (s.setWord c v r).length = (s r).length := by
  by_cases hr : r = c.ref
  · rw [hr, setWord_self]
    refine overwrite_length ?_
    exact h
  · rw [setWord_of_ne hr]

/-- A word is read back, … -/
theorem word_setWord_self (h : s.Has c) {v : Nat} (hv : v < 2 ^ 32) : (s.setWord c v).word c = v := by
  have hle : c.off ≤ (s c.ref).length := Nat.le_trans (Nat.le_add_right _ _) h
  have hslice : slice c.off (beBytes 4 v).length (overwrite c.off (beBytes 4 v) (s c.ref))
      = beBytes 4 v := slice_overwrite_self hle
  rw [beBytes_length] at hslice
  unfold word
  rw [setWord_self, hslice, beNat_beBytes_of_lt hv]

/-- … and cells that do not overlap it keep theirs. -/
theorem word_setWord_apart (hc : s.Has c) (h : c.Apart d) (v : Nat) :
    (s.setWord c v).word d = s.word d := by
  have hoff : c.off ≤ (s c.ref).length := Nat.le_trans (Nat.le_add_right _ _) hc
  unfold word
  by_cases hr : d.ref = c.ref
  · rw [hr, setWord_self]
    obtain hle | hle := h hr.symm
    · rw [slice_overwrite_after (by rw [beBytes_length]; exact hle) hoff]
    · rw [slice_overwrite_before hle hoff]
  · rw [setWord_of_ne hr]

theorem getElem?_setWord (hc : s.Has c) {i : Nat} (h : ¬ c.Covers r i) (v : Nat) :
    (s.setWord c v r)[i]? = (s r)[i]? := by
  by_cases hr : r = c.ref
  · subst hr
    rw [setWord_self]
    refine getElem?_overwrite ?_ ?_
    · exact hc
    · rw [beBytes_length]
      have hcovers : ¬ (c.off ≤ i ∧ i < c.off + 4) := fun hi => h ⟨rfl, hi⟩
      omega
  · rw [setWord_of_ne hr]

end Store

/-! ## Edits -/

/-- A change of a word. -/
structure Edit (ρ : Type) where
  cell : Cell ρ
  new : Nat → Nat

variable {es : List (Edit ρ)}

namespace Store

def edit (s : Store ρ) (e : Edit ρ) : Store ρ := s.setWord e.cell (e.new (s.word e.cell) % 2 ^ 32)

/-- Edits, one after the other. -/
def run (s : Store ρ) (es : List (Edit ρ)) : Store ρ := es.foldl edit s

variable {s : Store ρ} {c : Cell ρ} {e : Edit ρ}

theorem has_edit (he : s.Has e.cell) (hc : s.Has c) : (s.edit e).Has c := by
  unfold Has
  rw [edit, length_setWord he]
  exact hc

theorem run_append (es es' : List (Edit ρ)) :
    s.run (es ++ es') = (s.run es).run es' := List.foldl_append

theorem run_cons : s.run (e :: es) = (s.edit e).run es := rfl

theorem has_edits (h : ∀ e' ∈ e :: es, s.Has e'.cell) :
    ∀ e' ∈ es, (s.edit e).Has e'.cell :=
  fun e' he' => has_edit (h e (.head _)) (h e' (.tail _ he'))

/-- What each edit keeps, all of them keep. -/
theorem run_kept {β : Type} {f : Store ρ → β} {es : List (Edit ρ)} {s : Store ρ} (h : ∀ e ∈ es, s.Has e.cell)
    (hkept : ∀ e ∈ es, ∀ s : Store ρ, s.Has e.cell → f (s.edit e) = f s) : f (s.run es) = f s := by
  induction es generalizing s with
  | nil => rfl
  | cons e es ih =>
    rw [run_cons, ih (has_edits h) fun e' he' => hkept e' (.tail _ he')]
    exact hkept e (.head _) s (h e (.head _))

theorem length_run (h : ∀ e ∈ es, s.Has e.cell) (r : ρ) : (s.run es r).length = (s r).length :=
  @run_kept _ _ _ (fun s => (s r).length) _ _ h fun _ _ _ hs => length_setWord hs ..

/-- What is about other objects leaves an object alone. -/
theorem run_of_ref (h : ∀ e ∈ es, e.cell.ref ≠ r) : s.run es r = s r := by
  induction es generalizing s with
  | nil => rfl
  | cons e es ih =>
    rw [run_cons, ih fun e' he' => h e' (.tail _ he'), edit, setWord_of_ne (h e (.head _)).symm]

/-- A byte that no edit covers stays as it is. -/
theorem getElem?_run {i : Nat} (h : ∀ e ∈ es, s.Has e.cell)
    (hcovers : ∀ e ∈ es, ¬ e.cell.Covers r i) : (s.run es r)[i]? = (s r)[i]? :=
  @run_kept _ _ _ (fun s => (s r)[i]?) _ _ h fun e he _ hs => getElem?_setWord hs (hcovers e he) _

theorem word_run_apart (h : ∀ e ∈ es, s.Has e.cell) (hapart : ∀ e ∈ es, e.cell.Apart c) :
    (s.run es).word c = s.word c :=
  @run_kept _ _ _ (fun s => s.word c) _ _ h fun e he _ hs => word_setWord_apart hs (hapart e he) _

/-- A word is changed by its own edits. -/
theorem word_run {es : List (Edit ρ)} {s : Store ρ} (h : ∀ e ∈ es, s.Has e.cell)
    (hsame : ∀ e ∈ es, e.cell = c ∨ e.cell.Apart c) :
    (s.run es).word c = es.foldl (fun w e => if e.cell = c then e.new w % 2 ^ 32 else w) (s.word c) := by
  induction es generalizing s with
  | nil => rfl
  | cons e es ih =>
    have he := h e (.head _)
    have hword : (s.edit e).word c = if e.cell = c then e.new (s.word c) % 2 ^ 32 else s.word c := by
      by_cases hc : e.cell = c
      · subst hc
        rw [if_pos rfl, edit, word_setWord_self he (Nat.mod_lt _ (by decide))]
      · rw [if_neg hc, edit, word_setWord_apart he ((hsame e (.head _)).resolve_left hc)]
    rw [run_cons, ih (has_edits h) fun e' he' => hsame e' (.tail _ he'), hword, List.foldl_cons]

/-- The edits are made, each to a cell of `P`. -/
structure Makes (P : Cell ρ → Prop) (s : Store ρ) (es : List (Edit ρ)) (s' : Store ρ) : Prop where
  cells : ∀ e ∈ es, P e.cell
  eq : s' = s.run es

variable {P : Cell ρ → Prop} {s₁ s' : Store ρ} {es' : List (Edit ρ)}

theorem Makes.nil : s.Makes P [] s := ⟨nofun, rfl⟩

theorem Makes.append (h : s.Makes P es s₁) (h' : s₁.Makes P es' s') : s.Makes P (es ++ es') s' := by
  refine ⟨List.forall_mem_append.mpr ⟨h.cells, h'.cells⟩, ?_⟩
  rw [h'.eq, h.eq, run_append]

/-- Steps that are edits as long as `Inv` holds, and that keep it. -/
theorem foldlM_makes {ε α : Type} {f : Store ρ → α → Except ε (Store ρ)} (edits : α → List (Edit ρ))
    (Inv : Store ρ → Prop) {l : List α}
    (hstep : ∀ x ∈ l, ∀ s s', Inv s → f s x = .ok s' → s.Makes P (edits x) s')
    (hinv : ∀ x ∈ l, ∀ s, Inv s → Inv (s.run (edits x))) (hs : Inv s) (h : l.foldlM f s = .ok s') :
    s.Makes P (l.flatMap edits) s' := by
  induction l generalizing s s' with
  | nil =>
    cases h
    exact .nil
  | cons x l ih =>
    rw [List.foldlM_cons] at h
    cases hx : f s x with
    | error e =>
      rw [hx] at h
      cases h
    | ok s₁ =>
      rw [hx] at h
      have hone := hstep x (.head _) s s₁ hs hx
      have hs₁ : Inv s₁ := hone.eq ▸ hinv x (.head _) s hs
      exact hone.append (ih (fun y hy => hstep y (.tail _ hy)) (fun y hy => hinv y (.tail _ hy)) hs₁ h)

end Store

end Barebox.Lib
