import Barebox.Strtox
import Barebox.Lib.SortedInsert

/-!
# The bootchooser — `common/bootchooser.c`

A boot target has a priority and a number of remaining attempts, both kept
in the environment. `bootchooser_get` collects the targets into a list
that is sorted by priority as it grows, and then applies the resets the
configuration asks for. `bootchooser_get_target` takes the first target of
the list that is enabled and has attempts left.

The list is sorted on insertion and never again: not by the reset of the
priorities, and not by `bootchooser_target_set_priority`.

Mirroring notes:
- targets are referred to by pointers; since the list never changes its
  order, a position in it is as good. `last_chosen` is one.
- `global_default_attempts` and `global_default_priority` are `int` and
  land in `unsigned int` fields; they are modelled as the latter.
- the sums that decide about resets are taken in an `int`, that is, modulo
  `2 ^ 32`.
- `bootchooser_get` is modelled for the first call; further calls hand out
  the same object.
- `bootchooser_get_target` saves the bootchooser and ignores how that ends;
  the saved copy is not part of the object.
-/

namespace Barebox

open Lib

/-- The static variables of the file, as far as they are used here. -/
structure BootchooserGlobals where
  availableTargets : Bytes
  statePrefix : Bytes
  globalDefaultAttempts : UInt32
  globalDefaultPriority : UInt32
  disableOnZeroAttempts : Bool
  lastBootSuccessful : Bool
  /-- `RESET_ATTEMPTS_POWER_ON` and `RESET_ATTEMPTS_ALL_ZERO`. -/
  resetAttemptsPowerOn : Bool
  resetAttemptsAllZero : Bool
  /-- `RESET_PRIORITIES_ALL_ZERO`. -/
  resetPrioritiesAllZero : Bool
  attemptsResetted : Bool
  deriving DecidableEq

/-- What `bootchooser_get` asks the rest of the program. -/
structure BootchooserPlatform where
  getenv : Bytes → Option Bytes
  /-- `CONFIG_STATE` -/
  configState : Bool
  stateByName : Bytes → Bool
  /-- `reset_source_get() == RESET_POR` -/
  resetPor : Bool

/-- `struct bootchooser_target`. -/
structure BootchooserTarget where
  priority : UInt32
  remainingAttempts : UInt32
  id : Nat
  name : Bytes
  defaultAttempts : UInt32
  defaultPriority : UInt32
  boot : Bytes
  targetPrefix : Bytes
  statePrefix : Bytes
  deriving DecidableEq

/-- `struct bootchooser`; `state` says whether there is one. -/
structure Bootchooser where
  targets : List BootchooserTarget
  lastChosen : Option Nat
  state : Bool
  statePrefix : Bytes
  deriving DecidableEq

/-! ## Targets -/

namespace BootchooserTarget

/-- `bootchooser_target_ok` -/
def ok (t : BootchooserTarget) : Bool := t.priority ≠ 0 && t.remainingAttempts ≠ 0

/-- `bootchooser_target_enabled` -/
def enabled (t : BootchooserTarget) : Bool := t.priority ≠ 0

/-- `bootchooser_target_disable` -/
def disable (t : BootchooserTarget) : BootchooserTarget :=
  { t with priority := 0, remainingAttempts := 0 }

/-- What `bootchooser_target_set_priority` makes of its argument. -/
def priorityFor (t : BootchooserTarget) (priority : Int) : UInt32 :=
  if 0 ≤ priority then UInt32.ofInt priority else t.defaultPriority

/-- `bootchooser_target_set_priority` -/
def setPriority (priority : Int) (t : BootchooserTarget) : BootchooserTarget :=
  { t with priority := t.priorityFor priority }

/-- `bootchooser_target_set_attempts` -/
def setAttempts (attempts : Int) (t : BootchooserTarget) : BootchooserTarget :=
  { t with
    remainingAttempts := if 0 ≤ attempts then UInt32.ofInt attempts else t.defaultAttempts }

end BootchooserTarget

/-- `getenv_u32` -/
def getenvU32 (getenv : Bytes → Option Bytes) (pre name : Bytes) : Option UInt32 :=
  (getenv (pre ++ cstr "." ++ name)).map fun val => UInt32.ofNat (simpleStrtoull val 0).1

/-- `bootchooser_target_new`, with the `id` its caller gives it. -/
def bootchooserTargetNew (g : BootchooserGlobals) (getenv : Bytes → Option Bytes)
    (statePrefix name : Bytes) (id : Nat) : BootchooserTarget :=
  let targetPrefix := cstr "global.bootchooser." ++ name
  let statePrefix := statePrefix ++ cstr "." ++ name
  let defaultPriority :=
    (getenvU32 getenv targetPrefix (cstr "default_priority")).getD g.globalDefaultPriority
  let defaultAttempts :=
    (getenvU32 getenv targetPrefix (cstr "default_attempts")).getD g.globalDefaultAttempts
  let priority := (getenvU32 getenv statePrefix (cstr "priority")).getD defaultPriority
  let attempts := (getenvU32 getenv statePrefix (cstr "remaining_attempts")).getD defaultAttempts
  { priority := priority
    -- "Disabled target %s has remaining attempts %d, setting to 0"
    remainingAttempts := if attempts ≠ 0 ∧ priority = 0 then 0 else attempts
    id := id
    name := name
    defaultAttempts := defaultAttempts
    defaultPriority := defaultPriority
    boot := (getenv (targetPrefix ++ cstr ".boot")).getD name
    targetPrefix := targetPrefix
    statePrefix := statePrefix }

/-! ## The list -/

/-- All that `strsep` at blanks hands out, one call after the other. -/
def strsepAll : Bytes → List Bytes
  | [] => [[]]
  | c :: s =>
    if c = 0x20 then [] :: strsepAll s
    else
      match strsepAll s with
      | [] => [[c]]
      | tok :: toks => (c :: tok) :: toks

/-- The names `bootchooser_get` makes targets from: it stops at the first
empty one. -/
def targetNames (available : Bytes) : List Bytes := (strsepAll available).takeWhile (· ≠ [])

/-- `bootchooser_target_compare` as `list_add_sort` uses it: the new target
goes in front of the first one with a lower priority. -/
def insertBefore (new pos : BootchooserTarget) : Prop := pos.priority < new.priority

instance : DecidableRel insertBefore := fun _ _ => inferInstanceAs (Decidable (_ < _))

/-- The loop over the names. -/
def collectTargets (g : BootchooserGlobals) (getenv : Bytes → Option Bytes) (statePrefix : Bytes) :
    List Bytes → Nat → List BootchooserTarget → List BootchooserTarget
  | [], _, targets => targets
  | name :: names, id, targets =>
    collectTargets g getenv statePrefix names (id + 1)
      (targets.orderedInsert insertBefore (bootchooserTargetNew g getenv statePrefix name id))

/-- `bootchooser_reset_attempts` -/
def bootchooserResetAttempts (targets : List BootchooserTarget) : List BootchooserTarget :=
  targets.map fun t => if t.enabled then t.setAttempts (-1) else t

/-- `bootchooser_reset_priorities` -/
def bootchooserResetPriorities (targets : List BootchooserTarget) : List BootchooserTarget :=
  targets.map (·.setPriority (-1))

/-- The condition of the "All targets disabled" branch. -/
def prioritiesReset (g : BootchooserGlobals) (targets : List BootchooserTarget) : Bool :=
  g.resetPrioritiesAllZero && (targets.map (·.priority)).sum = 0

/-- The condition of the power-on branch. -/
def powerOnReset (g : BootchooserGlobals) (resetPor : Bool) : Bool :=
  g.resetAttemptsPowerOn && resetPor && !g.attemptsResetted

/-- The condition of the "All enabled targets have 0 remaining attempts" branch. -/
def attemptsReset (g : BootchooserGlobals) (targets : List BootchooserTarget) : Bool :=
  g.resetAttemptsAllZero && (targets.map (·.remainingAttempts)).sum = 0

/-- The list in front of the last reset. -/
def beforeAttemptsReset (g : BootchooserGlobals) (resetPor : Bool)
    (targets : List BootchooserTarget) : List BootchooserTarget :=
  let targets := if prioritiesReset g targets then bootchooserResetPriorities targets else targets
  if powerOnReset g resetPor then bootchooserResetAttempts targets else targets

/-- The three resets, in order, and `attempts_resetted` afterwards. -/
def applyResets (g : BootchooserGlobals) (resetPor : Bool) (targets : List BootchooserTarget) :
    List BootchooserTarget × Bool :=
  let targets := beforeAttemptsReset g resetPor targets
  (if attemptsReset g targets then bootchooserResetAttempts targets else targets,
    g.attemptsResetted || powerOnReset g resetPor)

/-- `last_chosen`, if the environment has one and it names a target. -/
def lastChosenOf (getenv : Bytes → Option Bytes) (statePrefix : Bytes)
    (targets : List BootchooserTarget) : Option Nat :=
  match getenvU32 getenv statePrefix (cstr "last_chosen") with
  | none => none
  | some id => if id = 0 then none else targets.findIdx? fun t => t.id = id.toNat

/-- The prefix of the state variables, and whether they belong to a state. -/
def statePrefixOf (g : BootchooserGlobals) (p : BootchooserPlatform) : Except Errno (Bytes × Bool) :=
  if g.statePrefix = [] then .ok (cstr "nv.bootchooser", false)
  else if p.configState then
    if p.stateByName (g.statePrefix.takeWhile (· ≠ 0x2e)) then .ok (g.statePrefix, true)
    else .error .ENODEV
  else .error .ENODEV

/-- `bootchooser_get`. -/
def bootchooserGet (g : BootchooserGlobals) (p : BootchooserPlatform) :
    Except Errno (Bootchooser × BootchooserGlobals) :=
  match statePrefixOf g p with
  | .error e => .error e
  | .ok (statePrefix, state) =>
    let names := targetNames g.availableTargets
    if names = [] then .error .EINVAL
    else
      let (targets, attemptsResetted) :=
        applyResets g p.resetPor (collectTargets g p.getenv statePrefix names 1 [])
      let lastChosen := lastChosenOf p.getenv statePrefix targets
      let targets :=
        match lastChosen with
        | some i => if g.lastBootSuccessful then targets.modify i (·.setAttempts (-1)) else targets
        | none => targets
      let targets :=
        if g.disableOnZeroAttempts then
          targets.map fun t => if t.remainingAttempts = 0 then t.disable else t
        else targets
      .ok (⟨targets, lastChosen, state, statePrefix⟩, { g with attemptsResetted := attemptsResetted })

/-! ## The choice -/

/-- The loop of `bootchooser_get_target`. -/
def firstOk : List BootchooserTarget → Option (Nat × BootchooserTarget)
  | [] => none
  | t :: ts => if t.ok then some (0, t) else (firstOk ts).map fun (i, t) => (i + 1, t)

/-- `bootchooser_get_target`: the target as it is afterwards, and the
bootchooser. -/
def bootchooserGetTarget (bc : Bootchooser) : Except Errno (BootchooserTarget × Bootchooser) :=
  match firstOk bc.targets with
  | none => .error .ENOENT
  | some (i, t) =>
    let t := { t with remainingAttempts := t.remainingAttempts - 1 }
    .ok (t, { bc with targets := bc.targets.set i t, lastChosen := some i })

end Barebox
