import Mathlib

/-!
# Loops that decide as they go

`while (1)` with returns in its body: a turn of the loop goes on with a new
state, is done, or fails. `loop` runs turns as long as there is fuel; what
it reports when there is none left (`stuck`) is up to the caller, who
either shows that it does not happen or says what it stands for.

Two rules for loops that succeed, and one for loops that come to an end:

* `loop_ok_rel` — what relates the last state to the result, and is carried
  back over a turn, relates every state to the result;
* `loop_ok₂` — two loops side by side: what relates their states and
  survives a turn of both makes the second succeed with the first, and
  relates their results;
* `Follows.returns_iff` — a loop that follows a walk over places comes to an
  end, in success or in an error other than `stuck`, if and only if the walk
  has an end and no place on it is bad.
-/

namespace Barebox.Lib

/-- How a turn of a loop ends. -/
inductive Turn (σ ε ρ : Type) where
  | next (s : σ)
  | done (r : ρ)
  | fail (e : ε)

variable {σ ε ρ : Type}

def loop (turn : σ → Turn σ ε ρ) (stuck : ε) : Nat → σ → Except ε ρ
  | 0, _ => .error stuck
  | n + 1, s =>
    match turn s with
    | .next s => loop turn stuck n s
    | .done r => .ok r
    | .fail e => .error e

variable {stuck : ε} {turn : σ → Turn σ ε ρ} {s : σ} {r : ρ}

/-- A loop that succeeds: it is done, or goes on and succeeds. -/
theorem loop_ok_cases {n : Nat} (h : loop turn stuck n s = .ok r) :
    ∃ m, n = m + 1 ∧ (turn s = .done r ∨
      ∃ s', turn s = .next s' ∧ loop turn stuck m s' = .ok r) := by
  cases n with
  | zero => cases h
  | succ m =>
    refine ⟨m, rfl, ?_⟩
    rw [loop] at h
    split at h
    · next s' hturn => exact Or.inr ⟨s', hturn, h⟩
    · next r' hturn =>
      cases h
      exact Or.inl hturn
    · cases h

theorem loop_next {s' : σ} (h : turn s = .next s') (stuck : ε) (n : Nat) :
    loop turn stuck (n + 1) s = loop turn stuck n s' := by
  rw [loop, h]

/-- With more fuel a loop that succeeds does so in the same way. -/
theorem loop_ok_add (k : Nat) {n : Nat}
    (h : loop turn stuck n s = .ok r) : loop turn stuck (n + k) s = .ok r := by
  induction n generalizing s r with
  | zero => cases h
  | succ n ih =>
    rw [Nat.add_right_comm, loop]
    obtain ⟨m, hm, hturn | ⟨s', hturn, hrest⟩⟩ := loop_ok_cases h
    · rw [hturn]
    · cases hm
      rw [hturn]
      exact ih hrest

theorem loop_ok_unique {n k : Nat} {r' : ρ}
    (h : loop turn stuck n s = .ok r) (h' : loop turn stuck k s = .ok r') : r = r' := by
  have hn := loop_ok_add k h
  have hk := loop_ok_add n h'
  rw [Nat.add_comm, hn] at hk
  exact Except.ok.inj hk

/-- A relation that goes back over a turn, from a result. -/
theorem loop_ok_rel {P : σ → ρ → Prop} (hdone : ∀ s r, turn s = .done r → P s r)
    (hnext : ∀ s s' r, turn s = .next s' → P s' r → P s r) (n : Nat)
    (h : loop turn stuck n s = .ok r) : P s r := by
  induction n generalizing s r with
  | zero => cases h
  | succ n ih =>
    obtain ⟨m, hm, hturn | ⟨s', hturn, hrest⟩⟩ := loop_ok_cases h
    · exact hdone s r hturn
    · cases hm
      exact hnext s s' r hturn (ih hrest)

section

variable {τ δ κ : Type}

/-- Two loops in step: if one ends well so does the other. -/
theorem loop_ok₂ {turn' : τ → Turn τ δ κ} {stuck' : δ} {R : Nat → σ → τ → Prop} {Q : κ → Prop}
    (hdone : ∀ n s t, R (n + 1) s t → turn s = .done r → ∃ r', turn' t = .done r' ∧ Q r')
    (hnext : ∀ n s s' t, R (n + 1) s t → turn s = .next s' → loop turn stuck n s' = .ok r →
      ∃ t', turn' t = .next t' ∧ R n s' t') (n : Nat) {t : τ} (hR : R n s t)
    (h : loop turn stuck n s = .ok r) : ∃ r', loop turn' stuck' n t = .ok r' ∧ Q r' := by
  induction n generalizing s t with
  | zero => cases h
  | succ n ih =>
    rw [loop]
    obtain ⟨m, hm, hturn | ⟨s', hturn, hrest⟩⟩ := loop_ok_cases h
    · obtain ⟨r', hturn', hQ⟩ := hdone n s t hR hturn
      rw [hturn']
      exact ⟨r', rfl, hQ⟩
    · cases hm
      obtain ⟨t', hturn', hR'⟩ := hnext n s s' t hR hturn hrest
      rw [hturn']
      exact ih hR' hrest

end

section

variable {π : Type}

/-- The place a walk comes to in `k` steps. -/
def walk (next : π → Option π) : Nat → π → Option π
  | 0, p => some p
  | k + 1, p => (next p).bind (walk next k)

/-- The turns of a loop go from place to place; at a bad place the loop is
stuck, and a walk that ends is an end of the loop. -/
structure Follows (turn : σ → Turn σ ε ρ) (stuck : ε) (place : σ → π) (next : π → Option π)
    (Good : π → Prop) : Prop where
  go : ∀ s p, Good (place s) → next (place s) = some p → ∃ s', turn s = .next s' ∧ place s' = p
  stop : ∀ s, Good (place s) → next (place s) = none →
    (∃ r, turn s = .done r) ∨ ∃ e, e ≠ stuck ∧ turn s = .fail e
  bad : ∀ s, ¬ Good (place s) → turn s = .fail stuck

variable {turn : σ → Turn σ ε ρ} {stuck : ε} {place : σ → π} {next : π → Option π} {Good : π → Prop}

/-- A loop that returns has only been at places that are allowed, … -/
theorem Follows.good_of_returns (h : Follows turn stuck place next Good) : ∀ (n : Nat) {s : σ},
    loop turn stuck n s ≠ .error stuck →
      (∀ k p, walk next k (place s) = some p → Good p) ∧ ∃ k, walk next k (place s) = none
  | 0, _, hne => absurd rfl hne
  | n + 1, s, hne => by
    have hgood : Good (place s) := by
      refine Classical.byContradiction fun hbad => hne ?_
      rw [loop, h.bad s hbad]
    cases hnext : next (place s) with
    | none =>
      refine ⟨fun k p hk => ?_, 1, by rw [walk, hnext]; rfl⟩
      cases k with
      | zero =>
        cases hk
        exact hgood
      | succ k =>
        rw [walk, hnext] at hk
        cases hk
    | some p =>
      obtain ⟨s', hturn, rfl⟩ := h.go s p hgood hnext
      rw [loop, hturn] at hne
      obtain ⟨hall, k, hend⟩ := h.good_of_returns n hne
      refine ⟨fun j q hj => ?_, k + 1, by rw [walk, hnext]; exact hend⟩
      cases j with
      | zero =>
        cases hj
        exact hgood
      | succ j =>
        rw [walk, hnext] at hj
        exact hall j q hj

/-- … and one whose walk ends and stays there returns. -/
theorem Follows.returns_of_good (h : Follows turn stuck place next Good) : ∀ (k : Nat) {s : σ},
    walk next k (place s) = none → (∀ j p, walk next j (place s) = some p → Good p) →
      ∃ n, loop turn stuck n s ≠ .error stuck
  | 0, _, hend, _ => nomatch hend
  | k + 1, s, hend, hall => by
    have hgood := hall 0 _ rfl
    cases hnext : next (place s) with
    | none =>
      refine ⟨1, ?_⟩
      rw [loop]
      rcases h.stop s hgood hnext with ⟨r, hturn⟩ | ⟨e, he, hturn⟩
      · rw [hturn]
        exact nofun
      · rw [hturn]
        exact fun h => he (Except.error.inj h)
    | some p =>
      obtain ⟨s', hturn, rfl⟩ := h.go s p hgood hnext
      rw [walk, hnext] at hend
      have hall' : ∀ j q, walk next j (place s') = some q → Good q := by
        intro j q hj
        refine hall (j + 1) q ?_
        rw [walk, hnext]
        exact hj
      obtain ⟨n, hn⟩ := h.returns_of_good k hend hall'
      refine ⟨n + 1, ?_⟩
      rw [loop, hturn]
      exact hn

theorem Follows.returns_iff (h : Follows turn stuck place next Good) (s : σ) :
    (∃ n, loop turn stuck n s ≠ .error stuck) ↔
      (∀ k p, walk next k (place s) = some p → Good p) ∧ ∃ k, walk next k (place s) = none :=
  ⟨fun ⟨n, hn⟩ => h.good_of_returns n hn, fun ⟨hall, k, hend⟩ => h.returns_of_good k hend hall⟩

end

end Barebox.Lib
