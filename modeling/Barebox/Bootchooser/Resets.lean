import Barebox.Bootchooser.Model

/-!
# When the bootchooser resets

Priorities are to be reset if all of them are zero, attempts if no enabled
target has any left. `bootchooser_get` looks at sums instead, and takes
them in an `int`: they are zero as well if the values add up to a multiple
of `2 ^ 32`. Otherwise the resets come when they should (`resets_iff`).

The attempts are summed up over all targets, disabled ones included. That
makes no difference: `bootchooser_target_new` leaves a disabled target no
attempts, and priorities are reset when there is none at all.
-/

namespace Barebox

open Lib List

/-- What the documentation says about the two "all-zero" resets. -/
structure ResetsDocumented (g : BootchooserGlobals) (resetPor : Bool)
    (targets : List BootchooserTarget) : Prop where
  priorities : g.resetPrioritiesAllZero → (prioritiesReset g targets ↔ ∀ t ∈ targets, t.priority = 0)
  attempts : g.resetAttemptsAllZero →
    let targets := beforeAttemptsReset g resetPor targets
    (attemptsReset g targets ↔ ∀ t ∈ targets, t.enabled → t.remainingAttempts = 0)

/-- Values that do not add up to a multiple of `2 ^ 32`, except to zero. -/
def AddsUp (values : List UInt32) : Prop :=
  (values.map UInt32.toNat).sum % 2 ^ 32 = 0 → (values.map UInt32.toNat).sum = 0

theorem sum_toNat (values : List UInt32) :
    values.sum.toNat = (values.map UInt32.toNat).sum % 2 ^ 32 := by
  induction values with
  | nil => rfl
  | cons v values ih => simp [UInt32.toNat_add, ih]

/-- The sum of all priorities stands for "all are zero" unless it wraps to zero. -/
theorem sum_eq_zero_iff_addsUp (values : List UInt32) :
    (values.sum = 0 ↔ ∀ v ∈ values, v = 0) ↔ AddsUp values := by
  have hsum : values.sum = 0 ↔ (values.map UInt32.toNat).sum % 2 ^ 32 = 0 := by
    rw [← sum_toNat, ← UInt32.toNat_inj]
    rfl
  have hall : (∀ v ∈ values, v = 0) ↔ (values.map UInt32.toNat).sum = 0 := by
    simp [← UInt32.toNat_inj, List.sum_eq_zero_iff_forall_eq_nat]
  rw [hsum, hall]
  refine ⟨fun h => h.mp, fun h => ⟨h, fun hzero => ?_⟩⟩
  rw [hzero, Nat.zero_mod]

/-! ## Disabled targets have no attempts -/

def DisabledIdle (targets : List BootchooserTarget) : Prop :=
  ∀ t ∈ targets, t.priority = 0 → t.remainingAttempts = 0

variable {g : BootchooserGlobals} {targets : List BootchooserTarget}

/-- A target that is disabled has no attempts left. -/
theorem collectTargets_idle (getenv : Bytes → Option Bytes) (statePrefix : Bytes)
    (names : List Bytes) : ∀ (id : Nat) {targets : List BootchooserTarget}, DisabledIdle targets →
      DisabledIdle (collectTargets g getenv statePrefix names id targets) := by
  induction names with
  | nil =>
    intro id targets h
    exact h
  | cons name names ih =>
    intro id targets h
    refine ih (id + 1) fun t ht hdisabled => ?_
    rcases (mem_orderedInsert insertBefore).mp ht with rfl | ht
    · -- a new target is checked for attempts it must not have
      unfold bootchooserTargetNew at hdisabled ⊢
      simp_all
    · exact h t ht hdisabled

theorem DisabledIdle.resetAttempts (h : DisabledIdle targets) :
    DisabledIdle (bootchooserResetAttempts targets) := by
  intro t ht hdisabled
  obtain ⟨u, hu, rfl⟩ := mem_map.mp ht
  split at hdisabled
  · next henabled => simp_all [BootchooserTarget.enabled, BootchooserTarget.setAttempts]
  · next henabled =>
    rw [if_neg henabled]
    exact h u hu hdisabled

/-- Nor does the reset of the priorities give them any, unless it comes when
it should not. -/
theorem DisabledIdle.before (h : DisabledIdle targets)
    (hreset : prioritiesReset g targets → ∀ t ∈ targets, t.priority = 0) (resetPor : Bool) :
    DisabledIdle (beforeAttemptsReset g resetPor targets) := by
  have hpriorities : DisabledIdle
      (if prioritiesReset g targets then bootchooserResetPriorities targets else targets) := by
    split
    · next hr =>
      intro t ht _
      obtain ⟨u, hu, rfl⟩ := mem_map.mp ht
      exact h u hu (hreset hr u hu)
    · exact h
  unfold beforeAttemptsReset
  dsimp only
  split
  · exact hpriorities.resetAttempts
  · exact hpriorities

/-- When the test of the code is the one that is meant, for priorities … -/
theorem prioritiesReset_iff (hall : g.resetPrioritiesAllZero) :
    (prioritiesReset g targets ↔ ∀ t ∈ targets, t.priority = 0)
      ↔ AddsUp (targets.map (·.priority)) := by
  rw [← sum_eq_zero_iff_addsUp]
  simp [prioritiesReset, hall]

/-- … and for attempts. -/
theorem DisabledIdle.attemptsReset_iff (h : DisabledIdle targets) (hall : g.resetAttemptsAllZero) :
    (attemptsReset g targets ↔ ∀ t ∈ targets, t.enabled → t.remainingAttempts = 0)
      ↔ AddsUp (targets.map (·.remainingAttempts)) := by
  have henabled : (∀ t ∈ targets, t.enabled → t.remainingAttempts = 0)
      ↔ ∀ t ∈ targets, t.remainingAttempts = 0 := by
    refine forall₂_congr fun t ht => ⟨fun hz => ?_, fun hz _ => hz⟩
    by_cases hp : t.priority = 0
    · exact h t ht hp
    · exact hz (by simpa [BootchooserTarget.enabled] using hp)
  rw [henabled, ← sum_eq_zero_iff_addsUp]
  simp [attemptsReset, hall]

/-- **The resets** come when they are documented to exactly if neither sum
wraps around to zero. -/
theorem resets_iff (g : BootchooserGlobals) (getenv : Bytes → Option Bytes) (statePrefix : Bytes)
    (names : List Bytes) (resetPor : Bool) :
    let targets := collectTargets g getenv statePrefix names 1 []
    let before := beforeAttemptsReset g resetPor targets
    ResetsDocumented g resetPor targets ↔
      (g.resetPrioritiesAllZero → AddsUp (targets.map (·.priority))) ∧
        (g.resetAttemptsAllZero → AddsUp (before.map (·.remainingAttempts))) := by
  intro targets before
  have hidle : DisabledIdle targets := collectTargets_idle getenv statePrefix names 1 (by simp [DisabledIdle])
  have hbefore (hp : g.resetPrioritiesAllZero → AddsUp (targets.map (·.priority))) :
      DisabledIdle before := by
    refine hidle.before (fun hr => ?_) resetPor
    have hall : g.resetPrioritiesAllZero := (Bool.and_eq_true_iff.mp hr).1
    exact ((prioritiesReset_iff hall).mpr (hp hall)).mp hr
  refine ⟨fun h => ?_, fun ⟨hp, ha⟩ => ⟨fun hall => ?_, fun hall => ?_⟩⟩
  · have hp : g.resetPrioritiesAllZero → AddsUp (targets.map (·.priority)) :=
      fun hall => (prioritiesReset_iff hall).mp (h.priorities hall)
    exact ⟨hp, fun hall => ((hbefore hp).attemptsReset_iff hall).mp (h.attempts hall)⟩
  · exact (prioritiesReset_iff hall).mpr (hp hall)
  · exact ((hbefore hp).attemptsReset_iff hall).mpr (ha hall)

/-- Two targets of priority `2 ^ 31` each are reset to their default, 20. -/
theorem resets_two_halves :
    let g : BootchooserGlobals := ⟨cstr "a b", [], 3, 20, false, false, false, false, true, false⟩
    let getenv := fun name => [(cstr "nv.bootchooser.a.priority", cstr "2147483648"),
      (cstr "nv.bootchooser.b.priority", cstr "2147483648")].lookup name
    let targets := collectTargets g getenv (cstr "nv.bootchooser") [cstr "a", cstr "b"] 1 []
    targets.map (·.priority) = [2147483648, 2147483648] ∧
      (applyResets g false targets).1.map (·.priority) = [20, 20] ∧
      ¬ ResetsDocumented g false targets := by
  refine ⟨by decide, by decide, fun h => ?_⟩
  have hzero := (h.priorities rfl).mp (by decide)
  revert hzero
  decide

end Barebox
