import Barebox.Of.Bounds

/-!
# The walk over the tags comes to an end — `drivers/of/fdt.c`

`dt_struct_advance` adds in 32 bits, and a property has a length of 32 bits
from the blob. A length near `2 ^ 32` leads back, to an earlier tag or to
the same one again: the loop of `__of_unflatten_dtb` does not check that. A
copy of so many bytes is not made, so it takes the variant that copies
nothing, which is the one for FIT images.

A name never leads back, since its end is looked for. So every turn leads on
exactly if no property leads back (`unflatten_progress_iff`), and then there
are no more turns than bytes.
-/

namespace Barebox.Of

open Lib

/-- A buffer whose size is an `int`. -/
abbrev IntSized : Type := { mem : Bytes // mem.length < 2 ^ 31 }

/-- The state after `k` turns of the loop. -/
inductive TurnsTo (mem : Bytes) (constprops : Bool) (f : FdtHeader) (root : Node) : Nat → Unflatten → Prop where
  | start : TurnsTo mem constprops f root 0 ⟨f.offDtStruct, .outside root⟩
  | next {k : Nat} {s s' : Unflatten} : TurnsTo mem constprops f root k s →
    unflattenTurn mem constprops f s = .next s' → TurnsTo mem constprops f root (k + 1) s'

/-- The loop comes to an end, and every turn before that leads on. -/
structure Progress (mem : Bytes) (constprops : Bool) (f : FdtHeader) (root : Node) : Prop where
  ends : ∃ k, ∀ s, ¬ TurnsTo mem constprops f root k s
  forward : ∀ k s s', TurnsTo mem constprops f root k s → unflattenTurn mem constprops f s = .next s' →
    s.dt < s'.dt

/-- A tag of `size` bytes that is followed by itself, or by what stands in
front of it. -/
def LeadsBack (dt size : Nat) : Prop := 2 ^ 32 < dt + size ∧ dt % 4 + size ≤ 2 ^ 32

variable {mem : Bytes} {constprops : Bool} {f : FdtHeader}

theorem be32At_lt {off n : Nat} (h : be32At mem off = some n) : n < 2 ^ 32 := by
  unfold be32At at h
  split at h
  · next hoff =>
    cases h
    have hlt := beNat_lt (slice off 4 mem)
    rwa [slice_length hoff] at hlt
  · cases h

/-- The name of a node ends inside the buffer. -/
theorem NameInside.end_lt {name depth len : Nat} (h : NameInside mem f name depth)
    (hlen : nameLen mem f name = some len) (hle : len ≤ f.maxlen name) : name + len < mem.length := by
  have hmax := maxlen_lt f name
  unfold NameInside at h
  unfold nameLen at hlen
  dsimp only at h
  split at h
  · exact (List.getElem?_eq_some_iff.mp (strnlenAt_terminated hlen (by omega))).1
  next hn =>
  -- all `2 ^ 32` bytes would be searched, which is none at all
  rw [Decidable.not_not.mp hn, strnlenAt_zero] at hlen
  cases hlen
  split at h
  · exact h
  · obtain ⟨i, hi⟩ := h
    have hin := (List.getElem?_eq_some_iff.mp hi).1
    omega

/-- The walk goes forward unless the sum of offset and size wraps. -/
theorem advancePlace_forward {dt size depth : Nat} {p : Place} (h : advancePlace f dt size depth = some p)
    (hdt : dt < 2 ^ 31) (hsize : 4 ≤ size ∧ size < 2 ^ 32 + 12) :
    p.dt ≤ f.structEnd ∧ (dt < p.dt ↔ ¬ LeadsBack dt size) := by
  have hle := dtStructAdvance_le f dt size
  unfold advancePlace at h
  split at h
  · cases h
  next hne =>
  have hne : dtStructAdvance f dt size ≠ 0 := hne
  cases h
  refine ⟨hle, ?_⟩
  unfold dtStructAdvance align4 LeadsBack at *
  dsimp only at *
  split at hne
  · exact absurd rfl hne
  · next hend =>
    rw [if_neg hend]
    omega

/-- A step leads on unless it is over a property that leads back. -/
theorem nextTag_forward_iff {p p' : Place} (hmem : mem.length < 2 ^ 31) (hin : TagInside mem constprops f p)
    (h : nextTag mem f p = some p') : p'.dt ≤ f.structEnd ∧
      (p.dt < p'.dt ↔ ∀ len, tagAt mem p.dt = some .prop → be32At mem (p.dt + 4) = some len →
        ¬ LeadsBack p.dt (12 + len)) := by
  obtain ⟨hword, hname, -⟩ := hin
  -- anything but a property lies inside the buffer
  have hinside : ∀ {size depth : Nat}, advancePlace f p.dt size depth = some p' → 4 ≤ size →
      p.dt + size ≤ mem.length → tagAt mem p.dt ≠ some .prop → p'.dt ≤ f.structEnd ∧
        (p.dt < p'.dt ↔ ∀ len, tagAt mem p.dt = some .prop → be32At mem (p.dt + 4) = some len →
          ¬ LeadsBack p.dt (12 + len)) := by
    intro size depth hadv hsize hle htag
    obtain ⟨hend, hforward⟩ := advancePlace_forward hadv (by omega) (by omega)
    refine ⟨hend, hforward.trans (iff_of_true (fun hback => ?_) fun len hprop => absurd hprop htag)⟩
    have := hback.1
    omega
  unfold nextTag nextBegin nextProp at h
  split at h
  · next htag =>
    split at h
    · cases h
    next len hlen =>
    split at h
    · cases h
    next hle =>
    split at h
    · have hend := (hname htag).end_lt hlen (Nat.le_of_not_lt hle)
      exact hinside h (by omega) (by omega) (by rw [htag]; decide)
    · cases h
  · next htag =>
    split at h
    · cases h
    · exact hinside h (Nat.le_refl 4) hword (by rw [htag]; decide)
  · next htag =>
    split at h
    · next len nameoff hlen hoff =>
      have hlt := be32At_lt hlen
      split at h
      · cases h
      obtain ⟨hend, hforward⟩ := advancePlace_forward h (by omega) (by omega)
      refine ⟨hend, hforward.trans ⟨fun hgood len' _ hlen' => ?_, fun hall => hall len htag hlen⟩⟩
      rwa [← Option.some.inj (hlen.symm.trans hlen')]
    · cases h
  · next htag => exact hinside h (Nat.le_refl 4) hword (by rw [htag]; decide)
  · cases h
  · cases h

/-- **One turn** leads on unless it is over a property that leads back. -/
theorem unflattenTurn_forward_iff {s s' : Unflatten} (hmem : mem.length < 2 ^ 31)
    (h : unflattenTurn mem constprops f s = .next s') : s'.dt ≤ f.structEnd ∧
      (s.dt < s'.dt ↔ ∀ len, tagAt mem s.dt = some .prop → be32At mem (s.dt + 4) = some len →
        ¬ LeadsBack s.dt (12 + len)) := by
  have hinside := @unflattenTurn_goesInside mem constprops f s
  rw [h] at hinside
  have hin : TagInside mem constprops f s.place :=
    Classical.byContradiction fun hout => nomatch hinside.fault hout
  have hgoes := hinside.goes hin
  cases hnext : nextTag mem f s.place with
  | none =>
    rw [hnext] at hgoes
    rcases hgoes with ⟨_, hdone⟩ | ⟨_, _, hfail⟩
    · cases hdone
    · cases hfail
  | some p =>
    rw [hnext] at hgoes
    obtain ⟨_, heq, rfl⟩ := hgoes
    cases heq
    exact nextTag_forward_iff hmem hin hnext

/-- Turns that lead on are no more than the bytes of the block. -/
theorem turns_le {root : Node} {k : Nat} {s : Unflatten}
    (hforward : ∀ k s s', TurnsTo mem constprops f root k s → unflattenTurn mem constprops f s = .next s' →
      s.dt < s'.dt) (h : TurnsTo mem constprops f root k s) : k ≤ s.dt := by
  induction h with
  | start => exact Nat.zero_le _
  | next hs hturn ih =>
    have hlt := hforward _ _ _ hs hturn
    omega

/-- **Progress.** The loop of `__of_unflatten_dtb` leads on in every turn,
and so comes to an end, exactly if it meets no property that leads back. -/
theorem unflatten_progress_iff (mem : IntSized) (constprops : Bool) (f : FdtHeader) (root : Node) :
    Progress mem.1 constprops f root ↔
      ∀ k s s' len, TurnsTo mem.1 constprops f root k s → unflattenTurn mem.1 constprops f s = .next s' →
        tagAt mem.1 s.dt = some .prop → be32At mem.1 (s.dt + 4) = some len → ¬ LeadsBack s.dt (12 + len) := by
  constructor
  · intro h k s s' len hs hturn
    exact (unflattenTurn_forward_iff mem.2 hturn).2.mp (h.forward k s s' hs hturn) len
  · intro h
    have hforward : ∀ k s s', TurnsTo mem.1 constprops f root k s → unflattenTurn mem.1 constprops f s = .next s' →
        s.dt < s'.dt := by
      intro k s s' hs hturn
      exact (unflattenTurn_forward_iff mem.2 hturn).2.mpr fun len => h k s s' len hs hturn
    refine ⟨⟨f.structEnd + 1, fun s hs => ?_⟩, hforward⟩
    have hge := turns_le hforward hs
    cases hs with
    | next _ hturn =>
      have hle := (unflattenTurn_forward_iff mem.2 hturn).1
      omega

/-- A root node with a property of `2 ^ 32 - 12` bytes, by its length. -/
def sameAgain : Bytes :=
  beBytes 4 fdtMagic ++ beBytes 4 80 ++ beBytes 4 56 ++ beBytes 4 78 ++ beBytes 4 40
    ++ beBytes 4 17 ++ beBytes 4 16 ++ beBytes 4 0 ++ beBytes 4 2 ++ beBytes 4 20
    ++ beBytes 16 0 ++ beBytes 4 1 ++ beBytes 4 0 ++ beBytes 4 3 ++ beBytes 4 0xfffffff4 ++ beBytes 4 0
    ++ beBytes 4 0x6100

def sameAgainHeader : FdtHeader := ⟨80, 56, 20, 78, 2⟩

/-- It is added to the root, and followed by itself. -/
theorem sameAgain_turn (node : Node) : ∃ p, unflattenTurn sameAgain true sameAgainHeader ⟨64, .inside node []⟩
    = .next ⟨64, .inside (node.addProp p) []⟩ := by
  have htag : be32At sameAgain 64 = some 3 := by decide
  have hlen : be32At sameAgain 68 = some 0xfffffff4 := by decide
  have hoff : be32At sameAgain 72 = some 0 := by decide
  have hname : cstringAt sameAgain 78 = some (cstr "a") := by decide
  refine ⟨⟨cstr "a", slice 76 0xfffffff4 sameAgain, 0xfffffff4, some 76⟩, ?_⟩
  simp [unflattenTurn, htag, Tag.ofNat?, unflattenProp, hlen, hoff, dtString,
    sameAgainHeader, hname, newProperty, unflattenAdvance, dtStructAdvance, align4,
    FdtHeader.structEnd]

/-- The loop does not end. -/
theorem unflatten_spins : HeaderOk sameAgain sameAgainHeader ∧
    ofUnflattenReservemap ofNewRoot sameAgain = .ok ofNewRoot ∧
    ¬ Progress sameAgain true sameAgainHeader ofNewRoot := by
  refine ⟨⟨by decide, by decide, by decide, by decide, by decide, by decide, by decide⟩, rfl, fun h => ?_⟩
  have hspins : ∀ k, ∃ node, TurnsTo sameAgain true sameAgainHeader ofNewRoot (k + 1) ⟨64, .inside node []⟩ := by
    intro k
    induction k with
    | zero => exact ⟨ofNewRoot, .next .start rfl⟩
    | succ k ih =>
      obtain ⟨node, hk⟩ := ih
      obtain ⟨p, hturn⟩ := sameAgain_turn node
      exact ⟨_, .next hk hturn⟩
  obtain ⟨k, hk⟩ := h.ends
  cases k with
  | zero => exact hk _ .start
  | succ k =>
    obtain ⟨node, hs⟩ := hspins k
    exact hk _ hs

end Barebox.Of
