import Barebox.Lib.Ring
import Barebox.Lib.Run
import Barebox.Ctype

/-!
# The queue of keys — `commands/doom/doomgeneric_barebox.c`

Events from the keyboard are queued as they come, and DOOM takes them out frame by frame.
An event should be lost only if there is no room for it among sixteen. But the queue has
two indices and no count. When a sixteenth event comes before the first was taken out, it
looks empty, and all sixteen are lost: `key_queue_iff` says that this is the only case.

Mirroring notes:
- `keys` is `keycode_bb_keys`. It has 256 bytes, and the one behind them is looked at as
  well, for a code of `NR_KEYS`.
- `value` is 0 for a key that is released, 1 for one that is pressed.
-/

namespace Barebox.Doom

open Lib List

/-- `struct input_event` -/
structure InputEvent where
  code : UInt16
  value : Fin 2

/-- `convertToDoomKey`, where none is -1 -/
def convertToDoomKey (keys : Nat → UInt8) (key : Nat) : Option UInt8 :=
  match key with
  | 28 => some 13
  | 105 => some 0xac
  | 106 => some 0xae
  | 103 => some 0xad
  | 108 => some 0xaf
  | 97 | 29 | 44 => some 0xa3
  | 57 => some 0xa2
  | 18 | 54 => some 0xb6
  | 1 | 14 => some 27
  | _ =>
    if key > 256 then none
    else if isprint (keys key) then some (keys key)
    else none

/-- `s_KeyQueue` with its indices -/
abbrev KeyQueue := Ring 15 UInt16

def KeyQueue.start : KeyQueue := ⟨fun _ => 0, 0, 0⟩

def keyData (key : UInt8) (value : Fin 2) : UInt16 := UInt16.ofNat (key.toNat ||| value.val <<< 8)

/-- `key_input_notify` -/
def keyInputNotify (keys : Nat → UInt8) (q : KeyQueue) (ev : InputEvent) : KeyQueue :=
  match convertToDoomKey keys ev.code.toNat with
  | none => q
  | some key => q.put (keyData key ev.value)

/-- `*pressed` and `*doomKey` -/
def keyOf (keyData : UInt16) : Nat × UInt8 := (keyData.toNat >>> 8, UInt8.ofNat (keyData.toNat &&& 0xff))

/-- `DG_GetKey` -/
def dgGetKey (q : KeyQueue) : Option (Nat × UInt8) × KeyQueue := (q.get.1.map keyOf, q.get.2)

inductive KeyCall where
  | notify (ev : InputEvent)
  | getKey

def KeyCall.step (keys : Nat → UInt8) (q : KeyQueue) : KeyCall → KeyQueue
  | .notify ev => keyInputNotify keys q ev
  | .getKey => (dgGetKey q).2

/-! ## What is expected -/

/-- The events that are still to be returned -/
def unread (q : KeyQueue) : List (Nat × UInt8) := q.contents.map keyOf

/-- An event comes to those that are unread; one is lost if there are sixteen of them. -/
def Queued (l : List (Nat × UInt8)) (e : Nat × UInt8) (l' : List (Nat × UInt8)) : Prop :=
  if l.length < 16 then l' = l ++ [e] else l'.length = 16 ∧ l' <+ l ++ [e]

def Fifo (keys : Nat → UInt8) (q : KeyQueue) : KeyCall → Prop
  | .notify ev =>
    match convertToDoomKey keys ev.code.toNat with
    | none => unread (keyInputNotify keys q ev) = unread q
    | some key => Queued (unread q) (ev.value, key) (unread (keyInputNotify keys q ev))
  | .getKey => (dgGetKey q).1 = (unread q).head? ∧ unread (dgGetKey q).2 = (unread q).tail

/-- With an event that is queued, there are not sixteen. -/
def HasRoom (keys : Nat → UInt8) (q : KeyQueue) : KeyCall → Prop
  | .notify ev => convertToDoomKey keys ev.code.toNat ≠ none → (unread q).length < 15
  | .getKey => True

theorem keyOf_keyData (key : UInt8) (value : Fin 2) : keyOf (keyData key value) = (value.val, key) := by
  have hall : ∀ (value : Fin 2) (key : Fin 256), keyOf (keyData (.ofFin key) value) = (value.val, .ofFin key) := by
    decide +kernel
  exact hall value key.toFin

theorem unread_put (q : KeyQueue) (key : UInt8) (value : Fin 2) : unread (q.put (keyData key value))
    = if (unread q).length < 15 then unread q ++ [(value.val, key)] else [] := by
  unfold unread
  rw [q.contents_put, length_map]
  split
  next => rw [map_append, map_singleton, keyOf_keyData]
  next => rfl

/-- A call keeps the order just if there is room. -/
theorem fifo_iff_hasRoom (keys : Nat → UInt8) (q : KeyQueue) (c : KeyCall) : Fifo keys q c ↔ HasRoom keys q c := by
  cases c with
  | notify ev =>
    cases hkey : convertToDoomKey keys ev.code.toNat with
    | none => simp [Fifo, HasRoom, keyInputNotify, hkey]
    | some key =>
      simp only [Fifo, HasRoom, keyInputNotify, hkey, unread_put]
      have hlt : (unread q).length < 16 := by
        rw [unread, length_map, q.contents_length]
        exact Fin.isLt _
      rw [Queued, if_pos hlt, forall_prop_of_true (Option.some_ne_none _)]
      split
      next hroom => exact ⟨fun _ => hroom, fun _ => rfl⟩
      next hroom => exact ⟨fun h => absurd h (by simp), fun h => absurd h hroom⟩
  | getKey =>
    refine iff_of_true ?_ trivial
    unfold Fifo dgGetKey unread
    rcases q.get_cases with ⟨hnil, hget⟩ | ⟨x, hx, hcons⟩
    · rw [hget, hnil]
      exact ⟨rfl, rfl⟩
    · rw [hx, hcons]
      exact ⟨rfl, rfl⟩

/-- The queue is a FIFO if and only if no event comes when fifteen are unread. -/
theorem key_queue_iff (keys : Nat → UInt8) (calls : List KeyCall) :
    Along (KeyCall.step keys) (Fifo keys) .start calls ↔ Along (KeyCall.step keys) (HasRoom keys) .start calls := by
  have heq : Fifo keys = HasRoom keys := funext₂ fun q c => propext (fifo_iff_hasRoom keys q c)
  rw [heq]

/-- Sixteen times the enter key -/
theorem key_queue_sixteen : ¬ ∀ (keys : Nat → UInt8) (calls : List KeyCall),
    Along (KeyCall.step keys) (Fifo keys) .start calls := by
  intro h
  let enter : KeyCall := .notify ⟨28, 1⟩
  obtain ⟨-, hlast, -⟩ := Along.append_iff.mp (h (fun _ => 0) (replicate 15 enter ++ [enter]))
  exact absurd ((fifo_iff_hasRoom _ _ _).mp hlast nofun) (by decide +kernel)

end Barebox.Doom
