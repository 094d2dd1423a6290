import Mathlib

/-!
# Programs with state that may fail

C code that changes a structure step by step and may give up on the way is a
program in `EStateM`: an error does not take back what was done before it.
`wp x Q E s` says how `x` ends when it is started in `s`: with a result and a
state in `Q`, or with an error and a state in `E`. The `simp` lemmas run a
program down to the calls in it; `wp_mono` is for the calls.
-/

namespace Barebox.Lib

variable {ε σ α β : Type}

def wp (x : EStateM ε σ α) (Q : α → σ → Prop) (E : ε → σ → Prop) (s : σ) : Prop :=
  match x s with
  | .ok a s => Q a s
  | .error e s => E e s

variable {Q Q' : α → σ → Prop} {E E' : ε → σ → Prop} {s : σ}

theorem wp_mono {x : EStateM ε σ α} (h : wp x Q' E' s) (hQ : ∀ a s, Q' a s → Q a s)
    (hE : ∀ e s, E' e s → E e s) : wp x Q E s := by
  unfold wp at h ⊢
  cases hx : x s with
  | ok a s' =>
    rw [hx] at h
    exact hQ a s' h
  | error e s' =>
    rw [hx] at h
    exact hE e s' h

@[simp] theorem wp_pure (a : α) : wp (pure a) Q E s ↔ Q a s := Iff.rfl

@[simp] theorem wp_get {Q : σ → σ → Prop} : wp (get : EStateM ε σ σ) Q E s ↔ Q s s := Iff.rfl

@[simp] theorem wp_modify {Q : PUnit → σ → Prop} (f : σ → σ) :
    wp (modify f : EStateM ε σ PUnit) Q E s ↔ Q ⟨⟩ (f s) := Iff.rfl

variable {f : β → EStateM ε σ α}

@[simp] theorem wp_bind {x : EStateM ε σ β} :
    wp (x >>= f) Q E s ↔ wp x (fun b s => wp (f b) Q E s) E s := by
  unfold wp
  show (match EStateM.bind x f s with | .ok a s => Q a s | .error e s => E e s) ↔ _
  unfold EStateM.bind
  cases x s with
  | ok b s' => rfl
  | error e s' => rfl

theorem wp_seq {x : EStateM ε σ β} {R : β → σ → Prop} (h : wp x R E s)
    (hf : ∀ b s, R b s → wp (f b) Q E s) : wp (x >>= f) Q E s :=
  wp_bind.mpr (wp_mono h hf fun _ _ hE => hE)

/-- A loop over a list: what a turn preserves. -/
theorem wp_forM {Inv : List α → σ → Prop} {f : α → EStateM ε σ PUnit} :
    ∀ {l : List α} {s : σ}, (∀ a l s, Inv (a :: l) s → wp (f a) (fun _ s => Inv l s) E s) →
    Inv l s → wp (l.forM f) (fun _ s => Inv [] s) E s := by
  intro l
  induction l with
  | nil => exact fun _ h => h
  | cons a l ih =>
    intro s hstep h
    exact wp_seq (hstep a l s h) fun _ s' h' => ih hstep h'

end Barebox.Lib
