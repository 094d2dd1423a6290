import Mathlib

/-!
# Runs of a step function

A component that is driven by a sequence of calls is a step function
`step : σ → α → σ`; a run is the left fold of the calls. Three notions
cover everything the safety arguments need:

* `run step s l` — the state after the calls `l`;
* `Along step P s l` — `P` holds of every call of the run, each judged in
  the state it is made in;
* `Along.of_inv` — the induction, packaged once: an invariant that
  survives every admissible call, and gives `Q` of every admissible call,
  gives `Q` along every run of admissible calls.
-/

namespace Barebox.Lib

variable {σ α : Type}
variable {step : σ → α → σ} {Ok Q : σ → α → Prop} {Inv : σ → Prop}

/-- The state after the calls `l`, made in order from `s`. -/
def run (step : σ → α → σ) (s : σ) (l : List α) : σ := l.foldl step s

@[simp] theorem run_nil (s : σ) : run step s [] = s := rfl

@[simp] theorem run_cons (s : σ) (a : α) (l : List α) :
    run step s (a :: l) = run step (step s a) l := rfl

theorem run_append (s : σ) (l₁ l₂ : List α) :
    run step s (l₁ ++ l₂) = run step (run step s l₁) l₂ :=
  List.foldl_append ..

/-- `P` holds of every call of the run `l` from `s`, each in the state it
is made in. -/
def Along (step : σ → α → σ) (P : σ → α → Prop) : σ → List α → Prop
  | _, [] => True
  | s, a :: l => P s a ∧ Along step P (step s a) l

instance Along.decidable (step : σ → α → σ) (P : σ → α → Prop) [∀ s a, Decidable (P s a)] :
    ∀ (s : σ) (l : List α), Decidable (Along step P s l)
  | _, [] => .isTrue trivial
  | s, a :: l =>
    have := Along.decidable step P (step s a) l
    inferInstanceAs (Decidable (_ ∧ _))

/-- A condition on the calls alone holds along every run of such calls. -/
theorem Along.of_forall {P : α → Prop} :
    ∀ (l : List α) (s : σ), (∀ a ∈ l, P a) → Along step (fun _ a => P a) s l
  | [], _, _ => trivial
  | a :: l, s, h =>
    ⟨h a (List.mem_cons_self ..),
      Along.of_forall l (step s a) fun x hx => h x (List.mem_cons_of_mem _ hx)⟩

variable {P C : σ → α → Prop}

theorem Along.append_iff : ∀ {l₁ l₂ : List α} {s : σ},
      Along step P s (l₁ ++ l₂) ↔ Along step P s l₁ ∧ Along step P (run step s l₁) l₂
  | [], _, _ => (and_iff_right trivial).symm
  | _ :: _, _, _ => (and_congr_right fun _ => Along.append_iff).trans and_assoc.symm

theorem Along.and : ∀ {l : List α} {s : σ}, Along step P s l → Along step Q s l →
      Along step (fun s a => P s a ∧ Q s a) s l
  | [], _, _, _ => trivial
  | _ :: _, _, hp, hq => ⟨⟨hp.1, hq.1⟩, hp.2.and hq.2⟩

/-- The invariant rule for the state a run ends in. -/
theorem run_inv (hstep : ∀ s a, Inv s → Ok s a → Inv (step s a)) :
    ∀ (l : List α) {s : σ}, Along step Ok s l → Inv s → Inv (run step s l)
  | [], _, _, h => h
  | _ :: l, _, hok, h => run_inv hstep l hok.2 (hstep _ _ h hok.1)

/-- The invariant rule for what holds along a run. -/
theorem Along.of_inv (hstep : ∀ s a, Inv s → Ok s a → Inv (step s a))
    (hgives : ∀ s a, Inv s → Ok s a → Q s a) :
    ∀ (l : List α) {s : σ}, Along step Ok s l → Inv s → Along step Q s l
  | [], _, _, _ => trivial
  | _ :: l, _, hok, h =>
    ⟨hgives _ _ h hok.1, Along.of_inv hstep hgives l hok.2 (hstep _ _ h hok.1)⟩

/-- Two conditions that agree as long as the second has held. -/
theorem Along.iff_of_inv (hiff : ∀ s a, Inv s → Ok s a → (Q s a ↔ C s a))
    (hstep : ∀ s a, Inv s → Ok s a → C s a → Inv (step s a)) :
    ∀ (l : List α) {s : σ}, Along step Ok s l → Inv s → (Along step Q s l ↔ Along step C s l)
  | [], _, _, _ => Iff.rfl
  | a :: l, s, hok, h => by
    rw [Along, hiff s a h hok.1]
    exact and_congr_right fun hc => Along.iff_of_inv hiff hstep l hok.2 (hstep s a h hok.1 hc)

end Barebox.Lib
