import Barebox.Memory.Model

/-!
# The largest free range of a bank — `common/memory.c`

`memory_bank_find_space` looks at the gaps before, between and behind the
children of a bank, with sums and differences modulo `2 ^ w`. What it gives is
free, and no free range of the bank is longer (`find_space_largest`), also
where the bank or a child ends at the last address.

Mirroring notes:
- `ret` is what is in `*retstart` and `*retend`. The caller's values stay there
  when the bank is full.
-/

namespace Barebox.Memory

open Lib Ioport List

variable {w : Nat} {t : Tree}

/-- The largest gap so far. -/
structure Search where
  maxfree : Nat
  ret : Nat × Nat

/-- `res->start + resource_size(res)` -/
def behind (w : Nat) (res : Resource) : Nat := (res.start + resourceSize w res) % 2 ^ w

/-- The gap from `freeptr` up to `limit`, with the last address `end_`. -/
def Search.gap (w : Nat) (s : Search) (freeptr limit end_ : Nat) : Search :=
  let size := (limit + 2 ^ w - freeptr) % 2 ^ w
  if size > s.maxfree then ⟨size, (freeptr, end_)⟩ else s

/-- A turn of the loop in `memory_bank_find_space` -/
def checkChild (w : Nat) (t : Tree) : Nat × Search → Nat → Nat × Search
  | (freeptr, s), child =>
    (behind w (t.at_ child),
      s.gap w freeptr (t.start child) ((t.start child + 2 ^ w - 1) % 2 ^ w))

/-- `memory_bank_find_space` -/
def memoryBankFindSpace (w : Nat) (t : Tree) (bank : Bank) (ret : Nat × Nat) : Nat × Nat :=
  let res := t.at_ bank.res
  match res.children.getLast? with
  | none => (res.start, res.end_)
  | some last =>
    let (_, s) := res.children.foldl (checkChild w t) (res.start, ⟨0, ret⟩)
    (s.gap w (behind w (t.at_ last)) (behind w res) res.end_).ret

/-- The children of a resource are inside of it, and one behind the other. -/
structure Filled (w : Nat) (t : Tree) (res : Nat) (r : Resource) : Prop where
  node : t.nodes res = some r
  le : r.start ≤ r.end_
  lt : r.end_ < 2 ^ w
  inside : ∀ c ∈ r.children, r.start ≤ t.start c ∧ t.start c ≤ t.end_ c ∧ t.end_ c ≤ r.end_
  inOrder : InOrder t.start t.end_ r.children

theorem behind_eq {res : Resource} (h : res.start ≤ res.end_) :
    behind w res = (res.end_ + 1) % 2 ^ w := by
  have hsum : res.start + (res.end_ - res.start + 1) = res.end_ + 1 := by omega
  rw [behind, resourceSize, Nat.add_mod_mod, hsum]

/-- A difference of two addresses, of which both may be the one behind the
last. -/
theorem gap_size {n p q : Nat} (hpq : p ≤ q) (hq : q ≤ n) (hlt : q - p < n) :
    (q % n + n - p % n) % n = q - p := by
  rcases Nat.lt_or_eq_of_le hq with hq | rfl
  · have hsum : q + n - p = q - p + n := by omega
    rw [Nat.mod_eq_of_lt hq, Nat.mod_eq_of_lt (Nat.lt_of_le_of_lt hpq hq), hsum, Nat.add_mod_right]
    exact Nat.mod_eq_of_lt hlt
  · rcases Nat.lt_or_eq_of_le hpq with hp | rfl
    · rw [Nat.mod_self, Nat.zero_add, Nat.mod_eq_of_lt hp]
      exact Nat.mod_eq_of_lt hlt
    · rw [Nat.mod_self, Nat.zero_add, Nat.sub_zero, Nat.mod_self, Nat.sub_self]

/-- A free range is below `p` or from there on, and those below are not longer
than the one found. -/
structure Best (t : Tree) (res p : Nat) (s : Search) : Prop where
  edge : ∀ {a b}, Free t res a b → b < p ∨ p ≤ a
  small : ∀ {a b}, Free t res a b → b < p → b - a < s.maxfree
  found : 0 < s.maxfree → Free t res s.ret.1 s.ret.2 ∧ s.ret.2 - s.ret.1 + 1 = s.maxfree

section

variable {res : Nat} {r : Resource} (h : Filled w t res r)
include h

theorem Filled.free_iff {a b : Nat} : Free t res a b ↔ a ≤ b ∧ r.start ≤ a ∧ b ≤ r.end_
    ∧ ∀ c ∈ r.children, t.end_ c < a ∨ b < t.start c := by
  constructor
  · rintro ⟨r', hr', hfree⟩
    cases hr'.symm.trans h.node
    exact hfree
  · exact fun hfree => ⟨r, h.node, hfree⟩

/-- The gap from `p` up to `q` is looked at; no free range begins before `p'`
then. -/
theorem Filled.gap {p q p' end_ : Nat} {s : Search} (hbest : Best t res p s) (hp : r.start ≤ p)
    (hpq : p ≤ q) (hqp : q ≤ p') (hq : q ≤ r.end_ + 1) (hlt : q - p < 2 ^ w)
    (hend : p < q → end_ + 1 = q) (hfree : ∀ c ∈ r.children, t.end_ c < p ∨ q ≤ t.start c)
    (hside : ∀ {a b}, Free t res a b → b < q ∨ p' ≤ a) :
    Best t res p' (s.gap w (p % 2 ^ w) (q % 2 ^ w) end_) := by
  have hlast := h.lt
  -- a free range below `q` is below `p` or in the gap
  have hsmall : ∀ {a b}, Free t res a b → b < p' → b - a < s.maxfree ∨ b - a < q - p := by
    intro a b hab hb
    have hle := (h.free_iff.mp hab).1
    rcases hbest.edge hab with hbp | hap
    · exact Or.inl (hbest.small hab hbp)
    · rcases hside hab with hbq | hap'
      · exact Or.inr (by omega)
      · omega
  have hedge : ∀ {a b}, Free t res a b → b < p' ∨ p' ≤ a := by
    intro a b hab
    exact (hside hab).imp_left fun hb => Nat.lt_of_lt_of_le hb hqp
  unfold Search.gap
  rw [gap_size hpq (by omega) hlt]
  dsimp only
  split
  next hgt =>
    have hpn : p % 2 ^ w = p := Nat.mod_eq_of_lt (by omega)
    refine ⟨hedge, fun hab hb => ?_, fun _ => ?_⟩
    · have := hsmall hab hb
      show _ < q - p
      omega
    · show Free t res (p % 2 ^ w) end_ ∧ end_ - p % 2 ^ w + 1 = q - p
      rw [hpn, h.free_iff]
      refine ⟨⟨by omega, hp, by omega, fun c hc => ?_⟩, by omega⟩
      exact (hfree c hc).imp_right fun hc => by omega
  next hle =>
  refine ⟨hedge, fun hab hb => ?_, hbest.found⟩
  have := hsmall hab hb
  omega

/-- The loop gets behind the last child. -/
theorem Filled.foldl : ∀ (l : List Nat) {p : Nat} {s : Search}, (∀ c ∈ l, c ∈ r.children ∧ p ≤ t.start c) →
    InOrder t.start t.end_ l → (∀ c ∈ r.children, t.end_ c < p ∨ c ∈ l) → r.start ≤ p → Best t res p s →
    p ≤ r.end_ + 1 →
    ∃ q s', l.foldl (checkChild w t) (p % 2 ^ w, s) = (q % 2 ^ w, s') ∧ (∀ c ∈ r.children, t.end_ c < q)
      ∧ r.start ≤ q ∧ q ≤ r.end_ + 1 ∧ Best t res q s' := by
  have hlast := h.lt
  intro l
  induction l with
  | nil =>
    intro p s _ _ hdone hp hbest hpe
    exact ⟨p, s, rfl, fun c hc => (hdone c hc).resolve_right not_mem_nil, hp, hpe, hbest⟩
  | cons c l ih =>
    intro p s hl hord hdone hp hbest _
    obtain ⟨hc, hpc⟩ := hl c mem_cons_self
    obtain ⟨hbehind, hord'⟩ := pairwise_cons.mp hord
    obtain ⟨hstart, hle, hce⟩ := h.inside c hc
    have hstep : checkChild w t (p % 2 ^ w, s) c = ((t.end_ c + 1) % 2 ^ w,
        s.gap w (p % 2 ^ w) (t.start c % 2 ^ w) ((t.start c + 2 ^ w - 1) % 2 ^ w)) := by
      rw [checkChild, behind_eq hle, Nat.mod_eq_of_lt (by omega : t.start c < 2 ^ w)]
      rfl
    rw [foldl_cons, hstep]
    refine ih (fun d hd => ⟨(hl d (mem_cons_of_mem c hd)).1, hbehind d hd⟩) hord' (fun d hd => ?_)
      (by omega) (h.gap hbest hp hpc (by omega) (by omega) (by omega) (fun hlt => ?_) (fun d hd => ?_)
        fun hab => ((h.free_iff.mp hab).2.2.2 c hc).symm) (by omega)
    · rcases hdone d hd with hd | hd
      · exact Or.inl (by omega)
      · exact (mem_cons.mp hd).imp_left fun heq => Nat.lt_succ_of_le (by rw [heq])
    · have hsum : t.start c + 2 ^ w - 1 = t.start c - 1 + 2 ^ w := by omega
      rw [hsum, Nat.add_mod_right, Nat.mod_eq_of_lt (by omega)]
      omega
    · refine (hdone d hd).imp_right fun hmem => ?_
      rcases mem_cons.mp hmem with rfl | hmem
      · exact Nat.le_refl _
      · have := hbehind d hmem
        omega

end

/-- What is found in a bank with a free address is free, and at least as long
as every free range. -/
theorem find_space_largest (w : Nat) (t : Tree) (bank : Bank) (ret : Nat × Nat) (r : Resource)
    (h : Filled w t bank.res r) (hfree : ∃ a, Free t bank.res a a) :
    Free t bank.res (memoryBankFindSpace w t bank ret).1 (memoryBankFindSpace w t bank ret).2
      ∧ ∀ a b, Free t bank.res a b →
        b - a ≤ (memoryBankFindSpace w t bank ret).2 - (memoryBankFindSpace w t bank ret).1 := by
  have hle := h.le
  have hlt := h.lt
  have hstart : ∀ {a b}, Free t bank.res a b → r.start ≤ a := fun hab => (h.free_iff.mp hab).2.1
  have hend : ∀ {a b}, Free t bank.res a b → b ≤ r.end_ := fun hab => (h.free_iff.mp hab).2.2.1
  unfold memoryBankFindSpace
  rw [Tree.at_eq h.node]
  dsimp only
  split
  next hlast =>
    have hnil := getLast?_eq_none_iff.mp hlast
    refine ⟨h.free_iff.mpr ⟨hle, Nat.le_refl _, Nat.le_refl _, fun c hc => ?_⟩, fun a b hab => ?_⟩
    · rw [hnil] at hc
      nomatch hc
    · have ha := hstart hab
      have hb := hend hab
      omega
  next last hlast =>
  have hfirst : Best t bank.res r.start ⟨0, ret⟩ := by
    refine ⟨fun hab => Or.inr (hstart hab), fun hab hb => ?_, fun hpos => absurd hpos (Nat.lt_irrefl 0)⟩
    have hab' := h.free_iff.mp hab
    omega
  obtain ⟨q, s, hloop, hall, hq, hqe, hbest⟩ := h.foldl r.children
    (fun c hc => ⟨hc, (h.inside c hc).1⟩) h.inOrder (fun c hc => Or.inr hc) (Nat.le_refl _) hfirst (by omega)
  rw [Nat.mod_eq_of_lt (by omega)] at hloop
  -- the pointer is behind the last child already
  have hbehind : behind w (t.at_ last) = q % 2 ^ w := by
    obtain ⟨init, hinit⟩ := getLast?_eq_some_iff.mp hlast
    rw [hinit, foldl_append] at hloop
    exact congrArg Prod.fst hloop
  have hmem := hall last (mem_of_getLast? hlast)
  rw [hloop, hbehind, behind_eq hle]
  have hbest' := h.gap hbest hq hqe (Nat.le_refl _) (Nat.le_refl _) (by omega) (fun _ => rfl)
    (fun c hc => Or.inl (hall c hc)) (fun hab => Or.inl (Nat.lt_succ_of_le (hend hab)))
  obtain ⟨x, hx⟩ := hfree
  have hpos := hbest'.small hx (Nat.lt_succ_of_le (hend hx))
  obtain ⟨hfound, hlen⟩ := hbest'.found (Nat.zero_lt_of_lt hpos)
  refine ⟨hfound, fun a b hab => Nat.le_of_lt_succ ?_⟩
  exact Nat.lt_of_lt_of_eq (hbest'.small hab (Nat.lt_succ_of_le (hend hab))) hlen.symm

/-- A bank and a child that end at the last address. -/
def topTree : Tree where
  nodes
    | 0 => some ⟨"ram0", 16, 255, none, [1, 2]⟩
    | 1 => some ⟨"malloc space", 32, 47, some 0, []⟩
    | 2 => some ⟨"stack", 240, 255, some 0, []⟩
    | _ => none
  next := 3

theorem find_space_top : memoryBankFindSpace 8 topTree ⟨16, 240, 0⟩ (0, 0) = (48, 239)
    ∧ ∀ a b, Free topTree 0 a b → b - a ≤ 191 := by
  refine ⟨by decide, (find_space_largest 8 topTree ⟨16, 240, 0⟩ (0, 0) _ ⟨rfl, ?_, ?_, ?_, ?_⟩ ?_).2⟩
  · decide
  · decide
  · decide
  · exact pairwise_pair.mpr (by decide)
  · exact ⟨48, _, rfl, by decide⟩

end Barebox.Memory
