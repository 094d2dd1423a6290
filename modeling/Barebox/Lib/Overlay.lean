import Mathlib

/-!
# Writes over a memory

A write is a partial function: the value it has for each address it goes to. Writes are
laid over a memory one after the other (`overlays`). What an address holds in the end is
known without their order in two cases:

* `overlays_of_none` — no write goes there;
* `overlays_of_all` — some write does, and all that do have the same value.
-/

namespace Barebox.Lib

variable {α β : Type}

def overlay (mem : α → β) (w : α → Option β) : α → β := fun a => (w a).getD (mem a)

def overlays (mem : α → β) (ws : List (α → Option β)) : α → β := ws.foldl overlay mem

variable {ws : List (α → Option β)}

theorem overlays_of_none {a : α} (mem : α → β) (h : ∀ w ∈ ws, w a = none) :
    overlays mem ws a = mem a := by
  induction ws generalizing mem with
  | nil => rfl
  | cons w ws ih =>
    have hrest := ih (overlay mem w) fun w' hw' => h w' (List.mem_cons_of_mem _ hw')
    refine hrest.trans ?_
    unfold overlay
    rw [h w (List.mem_cons_self ..)]
    rfl

theorem overlays_of_all {a : α} {v : β} (mem : α → β)
    (h : (∃ w ∈ ws, w a ≠ none) ∨ mem a = v) (hall : ∀ w ∈ ws, ∀ b, w a = some b → b = v) :
    overlays mem ws a = v := by
  induction ws generalizing mem with
  | nil =>
    rcases h with ⟨w, hw, -⟩ | h
    · nomatch hw
    · exact h
  | cons w ws ih =>
    refine ih (overlay mem w) ?_ fun w' hw' => hall w' (List.mem_cons_of_mem _ hw')
    cases hwa : w a with
    | some b =>
      refine Or.inr ?_
      unfold overlay
      rw [hwa]
      exact hall w (List.mem_cons_self ..) b hwa
    | none =>
      rcases h with ⟨w', hw', hne⟩ | h
      · cases hw' with
        | head => exact absurd hwa hne
        | tail _ hw' => exact Or.inl ⟨w', hw', hne⟩
      · refine Or.inr ?_
        unfold overlay
        rw [hwa]
        exact h

end Barebox.Lib
