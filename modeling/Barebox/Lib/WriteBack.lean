import Mathlib

/-!
# Write-back caches

A cache has lines, each with a range of addresses and their contents, in
front of a store. Lines that are dirty hold something the store does not
have yet. What a reader is shown is one memory: `Shows D k a` says that the
cache `k` and its store together are the memory `a`, but for the addresses
in `D`, of which nothing is known.

The operations are the steps a cache is made of, and each has a rule that
says when it keeps `Shows`: `writeBack`, `drop`, `reuse`, `load`, and
`write`, which is the only one that changes the memory. `Shows.flushed` is that the store
is the memory when no line is dirty.
-/

namespace Barebox.Lib

open Classical

/-- Lines of addresses `α` with values `β` in front of a store. -/
@[ext]
structure Cache (ι α β : Type) where
  store : α → β
  resident : Set ι
  dirty : Set ι
  range : ι → Set α
  data : ι → α → β

namespace Cache

variable {ι α β : Type} [DecidableEq ι]

/-- The contents of a line go to the store. -/
noncomputable def writeBack (k : Cache ι α β) (l : ι) : Cache ι α β :=
  { k with
    store := fun x => if x ∈ k.range l then k.data l x else k.store x
    dirty := k.dirty \ {l} }

/-- A line is taken out. -/
def drop (k : Cache ι α β) (l : ι) : Cache ι α β := { k with resident := k.resident \ {l} }

/-- A line gets another range and other contents. -/
def reuse (k : Cache ι α β) (l : ι) (r : Set α) (d : α → β) : Cache ι α β :=
  { k with range := Function.update k.range l r, data := Function.update k.data l d }

/-- A line is put in, with a range and contents. -/
def load (k : Cache ι α β) (l : ι) (r : Set α) (d : α → β) : Cache ι α β :=
  { k.reuse l r d with resident := insert l k.resident }

/-- Values are written to a line, which is dirty then. -/
noncomputable def write (k : Cache ι α β) (l : ι) (w : Set α) (v : α → β) : Cache ι α β :=
  { k with
    dirty := insert l k.dirty
    data := Function.update k.data l fun x => if x ∈ w then v x else k.data l x }

/-- The cache and its store are the memory `a` outside of `D`. -/
structure Shows (D : Set α) (k : Cache ι α β) (a : α → β) : Prop where
  cached : ∀ l ∈ k.resident, ∀ x ∈ k.range l, x ∉ D → k.data l x = a x
  stored : ∀ x ∉ D, (∀ l ∈ k.resident, x ∈ k.range l → l ∉ k.dirty) → k.store x = a x

/-- No address is in two lines. -/
def Apart (k : Cache ι α β) : Prop :=
  ∀ l ∈ k.resident, ∀ l' ∈ k.resident, ∀ x ∈ k.range l, x ∈ k.range l' → l = l'

variable {D : Set α} {k : Cache ι α β} {a : α → β} {l : ι}

omit [DecidableEq ι] in
theorem Shows.writeBack (h : Shows D k a) (hl : l ∈ k.resident) : Shows D (k.writeBack l) a := by
  refine ⟨h.cached, ?_⟩
  intro x hx hclean
  show (if x ∈ k.range l then k.data l x else k.store x) = a x
  split
  next hmem => exact h.cached l hl x hmem hx
  next hmem =>
  refine h.stored x hx fun l' hl' hx' hdirty => ?_
  -- it is another line that `x` is in
  have hne : l' ≠ l := fun heq => hmem (heq ▸ hx')
  exact hclean l' hl' hx' ⟨hdirty, hne⟩

omit [DecidableEq ι] in
theorem Shows.drop (h : Shows D k a) (hl : l ∉ k.dirty) : Shows D (k.drop l) a := by
  refine ⟨fun l' hl' => h.cached l' hl'.1, ?_⟩
  intro x hx hclean
  refine h.stored x hx fun l' hl' hx' => ?_
  by_cases heq : l' = l
  · exact heq ▸ hl
  · exact hclean l' ⟨hl', heq⟩ hx'

theorem Shows.reuse (h : Shows D k a) (hl : l ∉ k.resident) (r : Set α) (d : α → β) :
    Shows D (k.reuse l r d) a := by
  have hother : ∀ l' ∈ k.resident, l' ≠ l := fun l' hl' heq => hl (heq ▸ hl')
  refine ⟨?_, ?_⟩
  · intro l' hl' x hx hxD
    dsimp only [Cache.reuse] at hx ⊢
    rw [Function.update_of_ne (hother l' hl')] at hx ⊢
    exact h.cached l' hl' x hx hxD
  · intro x hx hclean
    refine h.stored x hx fun l' hl' hx' => hclean l' hl' ?_
    dsimp only [Cache.reuse]
    rw [Function.update_of_ne (hother l' hl')]
    exact hx'

/-- A line may be loaded where there is none, with what the store has. -/
theorem Shows.load (h : Shows D k a) (hl : l ∉ k.resident) {r : Set α} {d : α → β}
    (hfree : ∀ x ∈ r, ∀ l' ∈ k.resident, x ∉ k.range l')
    (hd : ∀ x ∈ r, x ∉ D → d x = k.store x) : Shows D (k.load l r d) a := by
  have hreuse := h.reuse hl r d
  refine ⟨?_, ?_⟩
  · intro l' hl' x hx hxD
    obtain rfl | hl' := hl'
    · dsimp only [Cache.load, Cache.reuse] at hx ⊢
      rw [Function.update_self] at hx ⊢
      rw [hd x hx hxD]
      exact h.stored x hxD fun l' hl' hx' => absurd hx' (hfree x hx l' hl')
    · exact hreuse.cached l' hl' x hx hxD
  · intro x hx hclean
    exact hreuse.stored x hx fun l' hl' hx' => hclean l' (Or.inr hl') hx'

theorem Shows.write (h : Shows D k a) (hapart : k.Apart) (hl : l ∈ k.resident) {w : Set α}
    (hw : ∀ x ∈ w, x ∈ k.range l) (v : α → β) :
    Shows D (k.write l w v) (fun x => if x ∈ w then v x else a x) := by
  refine ⟨?_, ?_⟩
  · intro l' hl' x hx hxD
    dsimp only [Cache.write]
    by_cases heq : l' = l
    · subst heq
      rw [Function.update_self, h.cached l' hl' x hx hxD]
    · have hxw : x ∉ w := fun hxw => heq (hapart l' hl' l hl x hx (hw x hxw))
      rw [Function.update_of_ne heq, if_neg hxw]
      exact h.cached l' hl' x hx hxD
  · intro x hx hclean
    have hxw : x ∉ w := fun hxw => hclean l hl (hw x hxw) (Or.inl rfl)
    rw [if_neg hxw]
    exact h.stored x hx fun l' hl' hx' hdirty => hclean l' hl' hx' (Or.inr hdirty)

omit [DecidableEq ι] in
/-- With no line dirty the store is up to date. -/
theorem Shows.flushed (h : Shows D k a) (hclean : ∀ l ∈ k.resident, l ∉ k.dirty) {x : α}
    (hx : x ∉ D) : k.store x = a x := h.stored x hx fun l hl _ => hclean l hl

omit [DecidableEq ι] in
theorem Shows.congr {a' : α → β} (h : Shows D k a) (ha : ∀ x, a x = a' x) : Shows D k a' :=
  funext ha ▸ h

omit [DecidableEq ι] in
theorem Shows.mono {D' : Set α} (h : Shows D k a) (hD : ∀ x ∈ D, x ∈ D') : Shows D' k a :=
  ⟨fun l hl x hx hxD => h.cached l hl x hx fun hx => hxD (hD x hx),
    fun x hx => h.stored x fun h => hx (hD x h)⟩

end Cache

end Barebox.Lib
