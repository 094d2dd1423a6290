import Barebox.Bootchooser.Choice

/-!
# Booting with the bootchooser

`bootchooser_boot` starts one target after the other until one of them
boots, or none is left. Its loop is driven by a flag, `tryagain`, that
`bootchooser_boot_one` sets on each of its paths; what bounds the loop is
the `remaining_attempts` of the targets, of which every start takes one.

The measure is `budget`: the attempts of the targets that have a priority.
A start takes one from it (`TakesAttempt.budget`), and an iteration that
starts nothing is the last one. So the loop ends after at most `budget + 1`
iterations, and starts a target as often as it has attempts
(`bootchooser_boot_attempts`).

Mirroring notes:
- what `bootentry_create_from_name` and `boot_entry` do is up to a world
  `ω` that they change as they like; the bootchooser is out of their reach.
- `boot_entry` reports `0` or not; which error it is does not matter here.
- the boot argument for Linux and the messages are left out, and so are
  `verbose` and `dryrun`, which are handed to `boot_entry`.
- an `Iteration` is what an observer of the loop would note down; the code
  has no such record.
-/

namespace Barebox

open Lib

/-- The rest of the program, as far as booting is concerned. -/
structure BootServices (ω ε : Type) where
  /-- the number reported, and the entries that were added -/
  bootentryCreateFromName : Bytes → ω → (Int × List ε) × ω
  bootEntry : ε → ω → Ret × ω

/-- What the loop works on. -/
structure BootState (ω : Type) where
  bc : Bootchooser
  lastBootSuccessful : Bool
  world : ω

section

variable {ω ε : Type}

/-- `bootentries_for_each_entry`, with `ret` so far: how it ended, and
`tryagain`. -/
def bootEntries (sv : BootServices ω ε) : List ε → Ret → ω → (Ret × Bool) × ω
  | [], ret, w => ((ret, true), w)
  | entry :: entries, _, w =>
    match sv.bootEntry entry w with
    | (.ok, w) => ((.ok, false), w)
    | (ret, w) => bootEntries sv entries ret w

/-- `bootchooser_boot_one`: its return code, `tryagain`, and the state. -/
def bootchooserBootOne (sv : BootServices ω ε) (s : BootState ω) : (Ret × Bool) × BootState ω :=
  match bootchooserGetTarget s.bc with
  | .error e => ((.err e, false), s)
  | .ok (target, bc) =>
    match sv.bootentryCreateFromName target.boot s.world with
    | ((n, entries), w) =>
      -- "Nothing bootable found on '%s'"
      if n ≤ 0 then ((.err .ENODEV, true), { s with bc := bc, world := w })
      else
        let (r, w) := bootEntries sv entries (.err .ENOENT) w
        (r, ⟨bc, false, w⟩)

/-- The bootchooser before and after an iteration of the loop. -/
structure Iteration where
  before : Bootchooser
  after : Bootchooser

/-- The loop of `bootchooser_boot`, for at most `n` iterations. -/
def bootchooserBoot (sv : BootServices ω ε) (retry : Bool) :
    Nat → BootState ω → Option (List Iteration × Ret)
  | 0, _ => none
  | n + 1, s =>
    match bootchooserBootOne sv s with
    | ((ret, tryagain), s') =>
      let it : Iteration := ⟨s.bc, s'.bc⟩
      if retry && tryagain then
        (bootchooserBoot sv retry n s').map fun (its, ret) => (it :: its, ret)
      else some ([it], ret)

/-! ## One iteration -/

/-- The position of the target that `bootchooser_get_target` hands out. -/
def Iteration.started (it : Iteration) : Option Nat := (firstOk it.before.targets).map (·.1)

/-- The attempts the loop can use up. -/
def budget (targets : List BootchooserTarget) : Nat :=
  ((targets.filter (·.enabled)).map (·.remainingAttempts.toNat)).sum

/-- The target at position `i`, which has a priority, loses one attempt,
and nothing else of any target changes. -/
def TakesAttempt (before after : Bootchooser) (i : Nat) : Prop :=
  ∃ t attempts, before.targets[i]? = some t ∧ t.priority ≠ 0 ∧
    attempts.toNat + 1 = t.remainingAttempts.toNat ∧
    after.targets = before.targets.set i { t with remainingAttempts := attempts }

/-- What an iteration has done to the targets. -/
def Iteration.Accounted (it : Iteration) : Prop :=
  match it.started with
  | none => it.after = it.before
  | some i => TakesAttempt it.before it.after i

theorem sub_one_toNat {n : UInt32} (h : n ≠ 0) : (n - 1).toNat + 1 = n.toNat := by
  have hne : n.toNat ≠ 0 := fun h0 => h (UInt32.toNat_inj.mp h0)
  have hle : (1 : UInt32) ≤ n := UInt32.le_iff_toNat_le.mpr (Nat.pos_of_ne_zero hne)
  rw [UInt32.toNat_sub_of_le _ _ hle]
  exact Nat.sub_add_cancel (Nat.pos_of_ne_zero hne)

/-- Either way of `bootchooser_get_target`. -/
theorem bootchooserGetTarget_cases (bc : Bootchooser) :
    (firstOk bc.targets = none ∧ bootchooserGetTarget bc = .error .ENOENT) ∨
    ∃ i found t bc', firstOk bc.targets = some (i, found) ∧
      bootchooserGetTarget bc = .ok (t, bc') ∧ TakesAttempt bc bc' i := by
  unfold bootchooserGetTarget
  cases hfirst : firstOk bc.targets with
  | none => exact Or.inl ⟨rfl, rfl⟩
  | some found =>
    obtain ⟨i, t⟩ := found
    refine Or.inr ⟨i, t, _, _, rfl, rfl, t, t.remainingAttempts - 1, ?_⟩
    obtain ⟨hok, pre, post, htargets, hlen, -⟩ := firstOk_some hfirst
    simp only [BootchooserTarget.ok, Bool.and_eq_true, decide_eq_true_eq] at hok
    refine ⟨?_, hok.1, sub_one_toNat hok.2, rfl⟩
    rw [htargets, ← hlen, List.getElem?_append_right (Nat.le_refl _), Nat.sub_self]
    rfl

/-- An iteration starts nothing and is the last one, or it starts a
target. -/
theorem bootchooserBootOne_cases (sv : BootServices ω ε) (s : BootState ω) :
    (firstOk s.bc.targets = none ∧ ∃ ret, bootchooserBootOne sv s = ((ret, false), s)) ∨
    ∃ i found ret tryagain s', firstOk s.bc.targets = some (i, found) ∧
      bootchooserBootOne sv s = ((ret, tryagain), s') ∧ TakesAttempt s.bc s'.bc i := by
  unfold bootchooserBootOne
  rcases bootchooserGetTarget_cases s.bc with ⟨hnone, hget⟩ | ⟨i, found, t, bc', hsome, hget, htakes⟩
  · rw [hget]
    exact Or.inl ⟨hnone, _, rfl⟩
  rw [hget]
  refine Or.inr ⟨i, found, ?_⟩
  dsimp only
  split
  next hn => exact ⟨_, _, _, hsome, rfl, htakes⟩
  next hn => exact ⟨_, _, _, hsome, rfl, htakes⟩

/-! ## The measure -/

theorem budget_cons (t : BootchooserTarget) (ts : List BootchooserTarget) :
    budget (t :: ts) = (if t.priority = 0 then 0 else t.remainingAttempts.toNat) + budget ts := by
  unfold budget
  by_cases hp : t.priority = 0
  · simp [BootchooserTarget.enabled, hp]
  · simp [BootchooserTarget.enabled, hp]

/-- A start takes one from the budget. -/
theorem budget_set {t : BootchooserTarget} {attempts : UInt32} (hp : t.priority ≠ 0)
    (hone : attempts.toNat + 1 = t.remainingAttempts.toNat) :
    ∀ {targets : List BootchooserTarget} {i : Nat}, targets[i]? = some t →
      budget (targets.set i { t with remainingAttempts := attempts }) + 1 = budget targets
  | [], _, h => by cases h
  | u :: us, 0, h => by
    cases h
    rw [List.set_cons_zero, budget_cons, budget_cons, if_neg hp, if_neg hp]
    show attempts.toNat + budget us + 1 = t.remainingAttempts.toNat + budget us
    omega
  | u :: us, i + 1, h => by
    have ih : budget (us.set i _) + 1 = budget us := budget_set hp hone h
    rw [List.set_cons_succ, budget_cons, budget_cons]
    omega

theorem TakesAttempt.budget {before after : Bootchooser} {i : Nat}
    (h : TakesAttempt before after i) : budget after.targets + 1 = budget before.targets := by
  obtain ⟨t, attempts, ht, hp, hone, hafter⟩ := h
  rw [hafter]
  exact budget_set hp hone ht

/-! ## The loop -/

/-- Iterations that follow each other, and all account for what they do. -/
def AccountedFrom : Bootchooser → List Iteration → Prop
  | _, [] => True
  | bc, it :: its => it.before = bc ∧ it.Accounted ∧ AccountedFrom it.after its

/-- A target is started at most as often as it has attempts left. -/
theorem AccountedFrom.count {i : Nat} : ∀ {its : List Iteration} {bc : Bootchooser},
    AccountedFrom bc its → ∀ {t : BootchooserTarget}, bc.targets[i]? = some t →
      its.countP (fun it => it.started = some i) ≤ t.remainingAttempts.toNat
  | [], _, _, _, _ => Nat.zero_le _
  | it :: its, bc, ⟨hbefore, hacc, hrest⟩, t, ht => by
    subst hbefore
    rw [List.countP_cons]
    unfold Iteration.Accounted at hacc
    split at hacc
    · next hstart =>
      rw [hstart]
      rw [← hacc] at ht
      exact hrest.count ht
    · next j hstart =>
      obtain ⟨u, attempts, hu, -, hone, hafter⟩ := hacc
      rw [hstart]
      by_cases hij : j = i
      · -- this one, which loses an attempt
        subst hij
        obtain rfl : u = t := Option.some.inj (hu.symm.trans ht)
        have hlt : j < it.before.targets.length := (List.getElem?_eq_some_iff.mp hu).1
        have hnow : it.after.targets[j]? = some { u with remainingAttempts := attempts } := by
          rw [hafter, List.getElem?_set_self hlt]
        have hle := hrest.count hnow
        simp only [decide_true, if_true]
        exact Nat.le_trans (Nat.succ_le_succ hle) (Nat.le_of_eq hone)
      · have hsame : it.after.targets[i]? = some t := by
          rw [hafter, List.getElem?_set_ne hij]
          exact ht
        rw [if_neg (by simpa using hij)]
        exact hrest.count hsame

/-- **The loop ends**, within the budget. -/
theorem bootchooserBoot_ends (sv : BootServices ω ε) (retry : Bool) (n : Nat) (s : BootState ω)
    (hn : budget s.bc.targets < n) :
      ∃ its ret, bootchooserBoot sv retry n s = some (its, ret) ∧
        its.length ≤ budget s.bc.targets + 1 ∧ AccountedFrom s.bc its := by
  induction n generalizing s with
  | zero => omega
  | succ n ih =>
    rw [bootchooserBoot]
    rcases bootchooserBootOne_cases sv s with ⟨hnone, ret, hone⟩ |
      ⟨i, found, ret, tryagain, s', hsome, hone, htakes⟩
    · have hacc : Iteration.Accounted ⟨s.bc, s.bc⟩ := by
        unfold Iteration.Accounted Iteration.started
        rw [hnone]
        exact rfl
      rw [hone]
      simp only [Bool.and_false, Bool.false_eq_true, if_false]
      exact ⟨_, _, rfl, Nat.succ_le_succ (Nat.zero_le _), rfl, hacc, trivial⟩
    · have hacc : Iteration.Accounted ⟨s.bc, s'.bc⟩ := by
        unfold Iteration.Accounted Iteration.started
        rw [hsome]
        exact htakes
      -- an attempt is spent, so the budget carries the induction
      have hbudget := htakes.budget
      rw [hone]
      dsimp only
      split
      · obtain ⟨its, ret', hrest, hlen, hits⟩ := ih s' (by omega)
        rw [hrest]
        refine ⟨_, _, rfl, ?_, rfl, hacc, hits⟩
        show its.length + 1 ≤ _
        omega
      · exact ⟨_, _, rfl, Nat.succ_le_succ (Nat.zero_le _), rfl, hacc, trivial⟩

end

end Barebox
