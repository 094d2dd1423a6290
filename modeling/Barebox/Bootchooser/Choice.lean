import Barebox.Bootchooser.Model
import Barebox.Lib.Run

/-!
# The target the bootchooser picks

`bootchooser_get_target` picks the first usable target, so it picks the
best one as long as the list is in order of priority. Disabled targets do
not count: `Ordered` lets a priority of zero stand anywhere.

Collecting the targets puts them in order. Everything that leaves the
priorities alone, or sets some to zero, keeps them there — the resets of
attempts, `last_chosen`, disabling, `set_attempts`, the choice itself. What
is left are the two places that assign priorities without looking at the
list: the reset of the priorities, which needs defaults that do not
increase along the list, and `set_priority`, which needs a value that fits
between its neighbours.
-/

namespace Barebox

open Lib List

/-! ## Order -/

/-- Higher priorities first, disabled targets anywhere. -/
def Ordered (targets : List BootchooserTarget) : Prop :=
  targets.Pairwise fun t u => t.priority = 0 ∨ u.priority ≤ t.priority

/-- The list of targets as it is collected is in order, disabled targets
included. -/
theorem collectTargets_sorted (g : BootchooserGlobals) (getenv : Bytes → Option Bytes)
    (statePrefix : Bytes) (names : List Bytes) : ∀ (id : Nat) {targets : List BootchooserTarget},
    (targets.Pairwise fun t u => u.priority ≤ t.priority) →
      (collectTargets g getenv statePrefix names id targets).Pairwise
        fun t u => u.priority ≤ t.priority := by
  induction names with
  | nil =>
    intro id targets h
    exact h
  | cons name names ih =>
    intro id targets h
    refine ih (id + 1) (orderedInsert_pairwise ?_ ?_ ?_ h)
    · intro pos hgo
      exact UInt32.not_lt.mp hgo
    · intro pos hstop
      exact UInt32.le_of_lt hstop
    · intro pos u hstop hu
      exact UInt32.le_trans hu (UInt32.le_of_lt hstop)

variable {targets : List BootchooserTarget} {f : BootchooserTarget → BootchooserTarget}

/-- Leaving priorities alone, or setting them to zero, keeps the order. -/
theorem Ordered.map (h : Ordered targets)
    (hf : ∀ t, (f t).priority = t.priority ∨ (f t).priority = 0) : Ordered (targets.map f) := by
  refine pairwise_map.mpr (h.imp ?_)
  intro t u htu
  rcases hf t with ht | ht
  · rcases hf u with hu | hu
    · rw [ht, hu]
      exact htu
    · rw [hu]
      exact Or.inr (UInt32.zero_le)
  · exact Or.inl ht

/-- The same for one target of the list, which may also get a priority
that fits between its neighbours. -/
theorem Ordered.modify (h : Ordered targets) (i : Nat)
    (hf : ∀ t, targets[i]? = some t → (f t).priority = t.priority ∨ (f t).priority = 0 ∨
      ((∀ u ∈ targets.take i, u.priority = 0 ∨ (f t).priority ≤ u.priority) ∧
        ∀ u ∈ targets.drop (i + 1), u.priority ≤ (f t).priority)) : Ordered (targets.modify i f) := by
  by_cases hi : i < targets.length
  case neg =>
    rw [modify_eq_self (Nat.le_of_not_lt hi)]
    exact h
  have hsplit : targets = targets.take i ++ targets[i] :: targets.drop (i + 1) := by
    rw [← drop_eq_getElem_cons hi, take_append_drop]
  have hold := h
  rw [hsplit] at hold
  -- the new one against those before it and those behind it
  obtain ⟨hpre, hpost, hcross⟩ := pairwise_append.mp hold
  obtain ⟨hbehind, hrest⟩ := pairwise_cons.mp hpost
  have hnew := hf targets[i] (getElem?_eq_getElem hi)
  rw [modify_eq_take_cons_drop hi]
  refine pairwise_append.mpr ⟨hpre, pairwise_cons.mpr ⟨?_, hrest⟩, ?_⟩
  · intro u hu
    rcases hnew with hsame | hzero | ⟨-, hpost⟩
    · rw [hsame]
      exact hbehind u hu
    · exact Or.inl hzero
    · exact Or.inr (hpost u hu)
  · intro t ht u hu
    rcases mem_cons.mp hu with rfl | hu
    · rcases hnew with hsame | hzero | ⟨hpre, -⟩
      · rw [hsame]
        exact hcross t ht _ (mem_cons_self)
      · rw [hzero]
        exact Or.inr UInt32.zero_le
      · exact hpre t ht
    · exact hcross t ht u (mem_cons_of_mem _ hu)

/-! ## `bootchooser_get` -/

/-- The targets in the order of the list, before any reset. -/
def listedTargets (g : BootchooserGlobals) (p : BootchooserPlatform) (statePrefix : Bytes) :
    List BootchooserTarget :=
  collectTargets g p.getenv statePrefix (targetNames g.availableTargets) 1 []

/-- If the priorities are reset, the defaults do not increase along the
list. -/
def DefaultsOrdered (g : BootchooserGlobals) (p : BootchooserPlatform) : Prop :=
  ∀ statePrefix state, statePrefixOf g p = .ok (statePrefix, state) →
    prioritiesReset g (listedTargets g p statePrefix) = true →
      (listedTargets g p statePrefix).Pairwise fun t u =>
        t.defaultPriority = 0 ∨ u.defaultPriority ≤ t.defaultPriority

theorem Ordered.resetAttempts (h : Ordered targets) : Ordered (bootchooserResetAttempts targets) := by
  refine h.map ?_
  intro t
  split
  · exact Or.inl rfl
  · exact Or.inl rfl

/-- A reset of the priorities keeps the order if the defaults have it. -/
theorem applyResets_ordered {g : BootchooserGlobals} (resetPor : Bool) (h : Ordered targets)
    (hdefaults : prioritiesReset g targets = true → targets.Pairwise fun t u =>
      t.defaultPriority = 0 ∨ u.defaultPriority ≤ t.defaultPriority) :
    Ordered (applyResets g resetPor targets).1 := by
  have hprio : Ordered (if prioritiesReset g targets then bootchooserResetPriorities targets
      else targets) := by
    split
    next hreset => exact pairwise_map.mpr (hdefaults hreset)
    next hreset => exact h
  have hattempts : ∀ {ts : List BootchooserTarget} (b : Bool), Ordered ts →
      Ordered (if b then bootchooserResetAttempts ts else ts) := by
    intro ts b hts
    cases b with
    | false => exact hts
    | true => exact hts.resetAttempts
  exact hattempts _ (hattempts _ hprio)

/-- Targets are sorted as they are found, by their priority. -/
theorem bootchooserGet_ordered {g g' : BootchooserGlobals} {p : BootchooserPlatform}
    {bc : Bootchooser} (h : bootchooserGet g p = .ok (bc, g')) (hdefaults : DefaultsOrdered g p) :
    Ordered bc.targets := by
  unfold bootchooserGet at h
  split at h
  · cases h
  next statePrefix state hprefix =>
  dsimp only at h
  split at h
  · cases h
  have hlisted : Ordered (listedTargets g p statePrefix) :=
    (collectTargets_sorted g p.getenv statePrefix _ 1 List.Pairwise.nil).imp Or.inr
  have hreset := applyResets_ordered p.resetPor hlisted (hdefaults statePrefix state hprefix)
  cases h
  have hdisable : ∀ {ts : List BootchooserTarget}, Ordered ts →
      Ordered (if g.disableOnZeroAttempts then
        ts.map fun t => if t.remainingAttempts = 0 then t.disable else t else ts) := by
    intro ts hts
    split
    · refine hts.map ?_
      intro t
      split
      · exact Or.inr rfl
      · exact Or.inl rfl
    · exact hts
  refine hdisable ?_
  split
  · split
    · exact hreset.modify _ fun t _ => Or.inl rfl
    · exact hreset
  · exact hreset

/-! ## The choice -/

theorem firstOk_none : ∀ {targets : List BootchooserTarget}, firstOk targets = none →
    ∀ t ∈ targets, t.ok = false
  | [], _ => nofun
  | u :: us, h => by
    unfold firstOk at h
    split at h
    · cases h
    next hu =>
    exact forall_mem_cons.mpr ⟨Bool.eq_false_iff.mpr hu, firstOk_none (Option.map_eq_none_iff.mp h)⟩

/-- The target found is usable; the ones in front of it are not. -/
theorem firstOk_some : ∀ {targets : List BootchooserTarget} {i : Nat} {t : BootchooserTarget},
    firstOk targets = some (i, t) →
      t.ok = true ∧ ∃ pre post, targets = pre ++ t :: post ∧ pre.length = i ∧
        ∀ u ∈ pre, u.ok = false
  | [], _, _, h => by cases h
  | v :: vs, i, t, h => by
    unfold firstOk at h
    split at h
    · next hv =>
      cases h
      exact ⟨hv, [], vs, rfl, rfl, fun u hu => absurd hu (by simp)⟩
    · next hv =>
      obtain ⟨⟨j, t'⟩, hrest, heq⟩ := Option.map_eq_some_iff.mp h
      cases heq
      obtain ⟨hok, pre, post, rfl, hlen, hpre⟩ := firstOk_some hrest
      exact ⟨hok, v :: pre, post, rfl, by rw [length_cons, hlen],
        forall_mem_cons.mpr ⟨Bool.eq_false_iff.mpr hv, hpre⟩⟩

/-- The choice hands out a usable target of maximal priority, or fails
because no target is usable. -/
def PicksBest (bc : Bootchooser) : Prop :=
  match bootchooserGetTarget bc with
  | .ok (chosen, _) =>
    ∃ t ∈ bc.targets, chosen = { t with remainingAttempts := t.remainingAttempts - 1 } ∧
      t.ok = true ∧ ∀ u ∈ bc.targets, u.ok = true → u.priority ≤ t.priority
  | .error _ => ∀ u ∈ bc.targets, u.ok = false

/-- In a list that is ordered the first target that is left is the best. -/
theorem Ordered.picksBest {bc : Bootchooser} (h : Ordered bc.targets) : PicksBest bc := by
  unfold PicksBest bootchooserGetTarget
  cases hfirst : firstOk bc.targets with
  | none => exact firstOk_none hfirst
  | some found =>
    obtain ⟨i, t⟩ := found
    obtain ⟨hok, pre, post, htargets, -, hpre⟩ := firstOk_some hfirst
    refine ⟨t, by rw [htargets]; simp, rfl, hok, ?_⟩
    have hne : t.priority ≠ 0 := by
      intro hzero
      rw [BootchooserTarget.ok, hzero] at hok
      cases hok
    intro u hu huok
    rw [htargets] at hu h
    rcases mem_append.mp hu with hu | hu
    · -- in front of the chosen one there is nothing usable
      rw [hpre u hu] at huok
      cases huok
    rcases mem_cons.mp hu with rfl | hu
    · exact UInt32.le_refl _
    · obtain ⟨-, hpost, -⟩ := pairwise_append.mp h
      rcases (pairwise_cons.mp hpost).1 u hu with hzero | hle
      · exact absurd hzero hne
      · exact hle

/-! ## Runs -/

/-- What is done with a bootchooser; targets are given by their position. -/
inductive BootchooserOp where
  | setPriority (i : Nat) (priority : Int)
  | setAttempts (i : Nat) (attempts : Int)
  | getTarget

def BootchooserOp.apply (bc : Bootchooser) : BootchooserOp → Bootchooser
  | .setPriority i priority =>
    { bc with targets := bc.targets.modify i (·.setPriority priority) }
  | .setAttempts i attempts =>
    { bc with targets := bc.targets.modify i (·.setAttempts attempts) }
  | .getTarget =>
    match bootchooserGetTarget bc with
    | .ok (_, bc) => bc
    | .error _ => bc

/-- A priority that is set is zero, or not above those in front of it (the
enabled ones) and not below those behind it. -/
def KeepsOrder (bc : Bootchooser) : BootchooserOp → Prop
  | .setPriority i priority => ∀ t ∈ bc.targets[i]?,
    t.priorityFor priority = 0 ∨
    ((∀ u ∈ bc.targets.take i, u.priority = 0 ∨ t.priorityFor priority ≤ u.priority) ∧
      ∀ u ∈ bc.targets.drop (i + 1), u.priority ≤ t.priorityFor priority)
  | _ => True

instance (bc : Bootchooser) : DecidablePred (KeepsOrder bc)
  | .setPriority _ _ => inferInstanceAs (Decidable (∀ t ∈ bc.targets[_]?, _))
  | .setAttempts _ _ => inferInstanceAs (Decidable True)
  | .getTarget => inferInstanceAs (Decidable True)

/-- The step: an operation that keeps the order. -/
theorem BootchooserOp.apply_ordered (bc : Bootchooser) (op : BootchooserOp)
    (h : Ordered bc.targets) (hop : KeepsOrder bc op) : Ordered (op.apply bc).targets := by
  cases op with
  | setPriority i priority =>
    refine h.modify i ?_
    intro t ht
    exact Or.inr (hop t ht)
  | setAttempts i attempts => exact h.modify i fun t _ => Or.inl rfl
  | getTarget =>
    show Ordered (match bootchooserGetTarget bc with
      | .ok (_, bc) => bc
      | .error _ => bc).targets
    unfold bootchooserGetTarget
    cases hfirst : firstOk bc.targets with
    | none => exact h
    | some found =>
      obtain ⟨i, t⟩ := found
      obtain ⟨-, pre, post, htargets, hlen, -⟩ := firstOk_some hfirst
      show Ordered (bc.targets.set i { t with remainingAttempts := t.remainingAttempts - 1 })
      rw [htargets] at h ⊢
      rw [set_append_right _ _ (Nat.le_of_eq hlen), hlen, Nat.sub_self, set_cons_zero]
      unfold Ordered at h ⊢
      rw [pairwise_append, pairwise_cons] at h ⊢
      simpa only [forall_mem_cons] using h

/-- **The bootchooser picks the best target**, from any environment and
after any run of calls — if the defaults are in order when the priorities
are reset, and each priority that is set fits its place in the list. -/
theorem bootchooser_picks_best {g g' : BootchooserGlobals} {p : BootchooserPlatform}
    {bc : Bootchooser} (hget : bootchooserGet g p = .ok (bc, g')) (hdefaults : DefaultsOrdered g p)
    (ops : List BootchooserOp) (hops : Along BootchooserOp.apply KeepsOrder bc ops) :
    PicksBest (run BootchooserOp.apply bc ops) := by
  have hordered : Ordered (run BootchooserOp.apply bc ops).targets :=
    run_inv BootchooserOp.apply_ordered ops hops (bootchooserGet_ordered hget hdefaults)
  exact hordered.picksBest

/-- Two targets, both resets on. -/
def twoTargets : BootchooserGlobals where
  availableTargets := cstr "a b"
  statePrefix := []
  globalDefaultAttempts := 3
  globalDefaultPriority := 1
  disableOnZeroAttempts := false
  lastBootSuccessful := false
  resetAttemptsPowerOn := false
  resetAttemptsAllZero := true
  resetPrioritiesAllZero := true
  attemptsResetted := false

/-- An environment with the priorities of both, and the default priority
of the second. -/
def twoTargetsPlatform (a b defaultB : Bytes) : BootchooserPlatform where
  getenv name := [(cstr "nv.bootchooser.a.priority", a), (cstr "nv.bootchooser.b.priority", b),
    (cstr "global.bootchooser.b.default_priority", defaultB)].lookup name
  configState := false
  stateByName _ := false
  resetPor := false

/-- The bootchooser made from them. -/
def twoTargetsBootchooser (a b defaultB : Bytes) : Bootchooser :=
  match bootchooserGet twoTargets (twoTargetsPlatform a b defaultB) with
  | .ok (bc, _) => bc
  | .error _ => ⟨[], none, false, []⟩

theorem bootchooser_picks_best_raised :
    PicksBest (run BootchooserOp.apply (twoTargetsBootchooser (cstr "10") (cstr "20") (cstr "1"))
      [.setPriority 1 15, .getTarget, .setPriority 0 0, .setAttempts 1 7]) :=
  have hget : bootchooserGet twoTargets (twoTargetsPlatform (cstr "10") (cstr "20") (cstr "1"))
      = .ok (twoTargetsBootchooser (cstr "10") (cstr "20") (cstr "1"), twoTargets) := by
    decide +kernel
  have hdefaults : DefaultsOrdered twoTargets
      (twoTargetsPlatform (cstr "10") (cstr "20") (cstr "1")) := by
    intro statePrefix state hprefix hreset
    cases hprefix
    decide +kernel
  bootchooser_picks_best hget hdefaults _ (by decide +kernel)

/-- Both targets disabled, the second with the higher default: the reset
enables them, and the first is picked. -/
theorem bootchooser_picks_best_reset :
    ¬ ∀ (g g' : BootchooserGlobals) (p : BootchooserPlatform) (bc : Bootchooser),
      bootchooserGet g p = .ok (bc, g') → ∀ ops : List BootchooserOp,
        PicksBest (run BootchooserOp.apply bc ops) := by
  intro h
  have hbest := h twoTargets twoTargets (twoTargetsPlatform (cstr "0") (cstr "0") (cstr "2"))
    (twoTargetsBootchooser (cstr "0") (cstr "0") (cstr "2")) (by decide +kernel) []
  have hgot : (bootchooserGetTarget (twoTargetsBootchooser (cstr "0") (cstr "0") (cstr "2"))).map
      (fun x => (x.1.name, x.1.priority)) = .ok (cstr "a", 1) := by
    decide +kernel
  have hb : ∃ u ∈ (twoTargetsBootchooser (cstr "0") (cstr "0") (cstr "2")).targets,
      u.ok = true ∧ u.priority = 2 := by
    decide +kernel
  obtain ⟨u, hu, huok, hprio⟩ := hb
  unfold PicksBest at hbest
  rw [run_nil] at hbest
  split at hbest
  · next chosen bc heq =>
    obtain ⟨t, -, rfl, -, hmax⟩ := hbest
    rw [heq] at hgot
    have hone : t.priority = 1 := (Prod.mk.inj (Except.ok.inj hgot)).2
    have hle := hmax u hu huok
    rw [hprio, hone] at hle
    revert hle
    decide
  · next heq =>
    rw [heq] at hgot
    cases hgot

end Barebox
