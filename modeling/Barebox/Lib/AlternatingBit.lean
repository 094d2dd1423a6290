import Mathlib

/-!
# Two peers, one bit

Two peers send items to each other, one at a time, numbered modulo two.
Every frame carries an acknowledgement: the number its sender expects next.
The channels are FIFO and lose frames.

A frame has no room for the numbers themselves, so that a frame that has
been underway for long looks like a new one. What excludes this is the order
of the channel: `Carries` gives each frame in it the numbers it was sent
with, and these only ever grow along the channel, above what the receiver
has already seen. Of two neighbouring numbers the bit tells which.

`Connected` is the state of both peers and both channels, and is kept by
everything a peer may do: `enqueue`, `start` an item, `emit` a frame, and
with a frame taken from the channel (`Receiving`), `ack` and `accept`.
-/

namespace Barebox.Lib.AlternatingBit

variable {α : Type}

/-- An item and its number, if there is one, and the number expected next. -/
structure Frame (α : Type) where
  data : Option (Bool × α)
  an : Bool

/-- One peer: the items it was given, how many of them it has sent, and how
many of these were acknowledged; and the items it has accepted. -/
structure Peer (α : Type) where
  queued : List α
  sent : Nat
  done : Nat
  accepted : List α
  done_le : done ≤ sent
  sent_le : sent ≤ done + 1
  sent_le_queued : sent ≤ queued.length

namespace Peer

/-- Nothing has happened yet. -/
def blank : Peer α := ⟨[], 0, 0, [], Nat.le_refl _, Nat.le_succ _, Nat.le_refl _⟩

def enqueue (x : Peer α) (l : List α) : Peer α :=
  { x with
    queued := x.queued ++ l
    sent_le_queued := by
      have := x.sent_le_queued
      rw [List.length_append]
      omega }

/-- The next item is sent. -/
def start (x : Peer α) (hidle : x.sent = x.done) (hlt : x.sent < x.queued.length) : Peer α :=
  { x with
    sent := x.sent + 1
    done_le := by omega
    sent_le := by omega
    sent_le_queued := hlt }

/-- All that was sent has been acknowledged. -/
def ack (x : Peer α) : Peer α :=
  { x with
    done := x.sent
    done_le := Nat.le_refl _
    sent_le := Nat.le_succ _ }

def accept (x : Peer α) (a : α) : Peer α := { x with accepted := x.accepted ++ [a] }

end Peer

/-- Frame `f` was sent when the sender was at item `d`, and had accepted
`c` items. -/
structure SentAt (queued : List α) (d c : Nat) (f : Frame α) : Prop where
  an : f.an = !c.bodd
  data : ∀ sn a, f.data = some (sn, a) → sn = d.bodd ∧ ∃ k, d = k + 1 ∧ queued[k]? = some a

variable {f : Frame α} {queued queued' : List α} {x y : Peer α}

theorem SentAt.mono {d c : Nat} (hq : queued <+: queued')
    (h : SentAt queued d c f) : SentAt queued' d c f := by
  refine ⟨h.an, fun sn a hdata => ?_⟩
  obtain ⟨hsn, k, hk, hget⟩ := h.data sn a hdata
  obtain ⟨rest, rfl⟩ := hq
  exact ⟨hsn, k, hk, List.getElem?_append_left (List.getElem?_eq_some_iff.mp hget).1 ▸ hget⟩

/-- The frames in a channel, with growing numbers: items from `d₀` to
`sent`, acknowledgements from `c₀` to `accepted`. -/
def Carries (queued : List α) (sent accepted : Nat) : Nat → Nat → List (Frame α) → Prop
  | _, _, [] => True
  | d₀, c₀, f :: fs => ∃ d c, (d₀ ≤ d ∧ d ≤ sent) ∧ (c₀ ≤ c ∧ c ≤ accepted) ∧
      SentAt queued d c f ∧ Carries queued sent accepted d c fs

namespace Carries

variable {sent sent' accepted accepted' d₀ c₀ d₁ c₁ : Nat} {fs gs : List (Frame α)}

/-- What a wire carries is from some point on, … -/
theorem mono_low (hd : d₁ ≤ d₀) (hc : c₁ ≤ c₀) (h : Carries queued sent accepted d₀ c₀ fs) :
    Carries queued sent accepted d₁ c₁ fs := by
  cases fs with
  | nil => trivial
  | cons f fs =>
    obtain ⟨d, c, hd', hc', hf, hfs⟩ := h
    exact ⟨d, c, ⟨Nat.le_trans hd hd'.1, hd'.2⟩, ⟨Nat.le_trans hc hc'.1, hc'.2⟩, hf, hfs⟩

/-- … and up to where the sender is. -/
theorem mono_high (hs : sent ≤ sent') (ha : accepted ≤ accepted') (hq : queued <+: queued') :
    ∀ (fs : List (Frame α)) {d₀ c₀ : Nat}, Carries queued sent accepted d₀ c₀ fs →
      Carries queued' sent' accepted' d₀ c₀ fs
  | [], _, _, _ => trivial
  | _ :: fs, _, _, ⟨d, c, hd, hc, hf, hfs⟩ =>
    ⟨d, c, ⟨hd.1, Nat.le_trans hd.2 hs⟩, ⟨hc.1, Nat.le_trans hc.2 ha⟩, hf.mono hq,
      mono_high hs ha hq fs hfs⟩

/-- Losing frames keeps the order. -/
theorem sublist (hsub : gs.Sublist fs) : ∀ {d₀ c₀ : Nat},
    Carries queued sent accepted d₀ c₀ fs → Carries queued sent accepted d₀ c₀ gs := by
  induction hsub with
  | slnil => exact fun h => h
  | cons f _ ih =>
    intro d₀ c₀ ⟨d, c, hd, hc, _, hfs⟩
    exact ih (hfs.mono_low hd.1 hc.1)
  | cons_cons f _ ih =>
    intro d₀ c₀ ⟨d, c, hd, hc, hf, hfs⟩
    exact ⟨d, c, hd, hc, hf, ih hfs⟩

/-- The sender adds a frame that says where it is now. -/
theorem concat (hf : SentAt queued sent accepted f) :
    ∀ (fs : List (Frame α)) {d₀ c₀ : Nat}, d₀ ≤ sent → c₀ ≤ accepted →
      Carries queued sent accepted d₀ c₀ fs → Carries queued sent accepted d₀ c₀ (fs ++ [f])
  | [], _, _, hd, hc, _ => ⟨sent, accepted, ⟨hd, Nat.le_refl _⟩, ⟨hc, Nat.le_refl _⟩, hf, trivial⟩
  | _ :: fs, _, _, _, _, ⟨d, c, hd, hc, hg, hfs⟩ =>
    ⟨d, c, hd, hc, hg, concat hf fs hd.2 hc.2 hfs⟩

end Carries

/-- One direction, from `x` to `y`. -/
structure Channel (x y : Peer α) (wire : List (Frame α)) : Prop where
  accepted : y.accepted <+: x.queued
  le_sent : y.accepted.length ≤ x.sent
  done_le : x.done ≤ y.accepted.length
  carries : Carries x.queued x.sent x.accepted.length y.accepted.length y.done wire

/-- What was acknowledged has been accepted. -/
theorem Channel.done_prefix {wire : List (Frame α)} (h : Channel x y wire) :
    x.queued.take x.done <+: y.accepted := by
  obtain ⟨rest, hrest⟩ := h.accepted
  rw [← hrest, List.take_append_of_le_length h.done_le]
  exact List.take_prefix ..

/-- Both directions. -/
structure Connected (x y : Peer α) (out back : List (Frame α)) : Prop where
  fwd : Channel x y out
  bwd : Channel y x back

namespace Connected

variable {out back back' : List (Frame α)}

theorem blank : Connected (.blank : Peer α) .blank [] [] :=
  have h : Channel (.blank : Peer α) .blank [] :=
    ⟨List.prefix_refl _, Nat.le_refl _, Nat.le_refl _, trivial⟩
  ⟨h, h⟩

section

variable (h : Connected x y out back)
include h

theorem symm : Connected y x back out := ⟨h.bwd, h.fwd⟩

theorem lose (hsub : back'.Sublist back) : Connected x y out back' :=
  ⟨h.fwd, { h.bwd with carries := h.bwd.carries.sublist hsub }⟩

theorem enqueue (l : List α) : Connected (x.enqueue l) y out back :=
  have hq : x.queued <+: x.queued ++ l := List.prefix_append ..
  { fwd :=
      { accepted := h.fwd.accepted.trans hq
        le_sent := h.fwd.le_sent
        done_le := h.fwd.done_le
        carries := h.fwd.carries.mono_high (Nat.le_refl _) (Nat.le_refl _) hq }
    bwd := ⟨h.bwd.accepted, h.bwd.le_sent, h.bwd.done_le, h.bwd.carries⟩ }

theorem emit (hf : SentAt x.queued x.sent x.accepted.length f) : Connected x y (out ++ [f]) back :=
  ⟨{ h.fwd with carries := h.fwd.carries.concat hf out h.fwd.le_sent h.bwd.done_le }, h.bwd⟩

theorem start (hidle : x.sent = x.done)
    (hlt : x.sent < x.queued.length) : Connected (x.start hidle hlt) y out back :=
  { fwd :=
      { accepted := h.fwd.accepted
        le_sent := Nat.le_succ_of_le h.fwd.le_sent
        done_le := h.fwd.done_le
        carries :=
          h.fwd.carries.mono_high (Nat.le_succ _) (Nat.le_refl _) (List.prefix_refl _) }
    bwd := ⟨h.bwd.accepted, h.bwd.le_sent, h.bwd.done_le, h.bwd.carries⟩ }

end

end Connected

/-- The peer `x` has taken a frame from the channel. -/
structure Receiving (x y : Peer α) (f : Frame α) (out back : List (Frame α)) : Prop extends
    Connected x y out back where
  taken : Carries y.queued y.sent y.accepted.length x.accepted.length x.done (f :: back)

namespace Receiving

variable {out back : List (Frame α)}

theorem of_connected (h : Connected x y out (f :: back)) : Receiving x y f out back :=
  ⟨h.lose (List.sublist_cons_self ..), h.bwd.carries⟩

/-- The frame asks for the item after the last one sent: all that was sent
has been accepted. -/
theorem ack (h : Receiving x y f out back) (han : f.an = !x.sent.bodd) :
    Receiving x.ack y f out back := by
  obtain ⟨d, c, hd, hc, hf, hback⟩ := h.taken
  -- the bit tells `x.sent` from the number before it
  have hge : x.sent ≤ c := by
    have hbit : c.bodd = x.sent.bodd := by
      rw [hf.an] at han
      exact Bool.not_inj han
    have hmod := congrArg Bool.toNat hbit
    rw [← Nat.mod_two_of_bodd, ← Nat.mod_two_of_bodd] at hmod
    have := x.sent_le
    omega
  exact
    { fwd := ⟨h.fwd.accepted, h.fwd.le_sent, Nat.le_trans hge hc.2, h.fwd.carries⟩
      bwd :=
        ⟨h.bwd.accepted, h.bwd.le_sent, h.bwd.done_le, hback.mono_low hd.1 hge⟩
      taken := ⟨d, c, hd, ⟨hge, hc.2⟩, hf, hback⟩ }

/-- The frame carries the item that is expected. -/
theorem accept {sn : Bool} {a : α} (h : Receiving x y f out back) (hdata : f.data = some (sn, a))
    (hsn : sn = !x.accepted.length.bodd) : Connected (x.accept a) y out back := by
  obtain ⟨d, c, hd, hc, hf, hback⟩ := h.taken
  obtain ⟨hbit, k, hk, hget⟩ := hf.data sn a hdata
  -- at most one item is underway, and the bit says that it is not the last one accepted
  obtain rfl : k = x.accepted.length := by
    have hmod := congrArg Bool.toNat (hbit.symm.trans hsn)
    rw [← Nat.bodd_succ, ← Nat.mod_two_of_bodd, ← Nat.mod_two_of_bodd] at hmod
    have := h.bwd.done_le
    have := y.sent_le
    omega
  have hprefix : x.accepted ++ [a] <+: y.queued := by
    obtain ⟨rest, hrest⟩ := h.bwd.accepted
    rw [← hrest, List.getElem?_append_right (Nat.le_refl _), Nat.sub_self] at hget
    cases rest with
    | nil => cases hget
    | cons b rest =>
      cases hget
      exact ⟨rest, by rw [List.append_assoc, ← hrest]; rfl⟩
  have hlen : (x.accept a).accepted.length = x.accepted.length + 1 := List.length_append
  exact
    { fwd :=
        { accepted := h.fwd.accepted
          le_sent := h.fwd.le_sent
          done_le := h.fwd.done_le
          carries := by
            rw [hlen]
            exact h.fwd.carries.mono_high (Nat.le_refl _) (Nat.le_succ _) (List.prefix_refl _) }
      bwd :=
        { accepted := hprefix
          le_sent := by
            omega
          done_le := by
            rw [hlen]
            exact Nat.le_succ_of_le h.bwd.done_le
          carries := by
            rw [hlen]
            exact hback.mono_low (Nat.le_of_eq hk.symm) hc.1 } }

end Receiving

end Barebox.Lib.AlternatingBit
