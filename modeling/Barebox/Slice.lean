import Mathlib

/-!
# Slices: is a resource in use?

barebox has no locks. A slice counts how often its resource was acquired and lists the
slices it depends on; a poller asks `slice_acquired` before it touches the resource. The
walk through the dependencies marks the slices it is in with a count of -1, in the very
field it tests, and takes a mark it meets for a cycle. Here: without cycles no mark is ever
met, however slices are shared, the answer is that of the graph, and every count is back
where it was.

Mirroring notes:
* a slice is its identity; its memory comes zeroed, as `slice_init` leaves the count alone;
* the C code recurses as deep as the graph goes; `depth` bounds how deep calls may nest.
-/

namespace Barebox.Slice

open Relation Function List

abbrev Counts (S : Type) := S → Int

/-- The fields of every slice, and the list `slices`. -/
structure Slices (S : Type) where
  acquired : Counts S
  deps : S → List S
  slices : List S

inductive Stop where
  | tooDeep
  /-- "Recursive dependency detected in slice". -/
  | panic

abbrev Test (S : Type) := Counts S → S → Except Stop (Bool × Counts S)

/-- The loop of `slice_acquired`, left at the first dependency in use. -/
def anyAcquired {S : Type} (test : Test S) : List S → Counts S → Except Stop (Bool × Counts S)
  | [], acquired => .ok (false, acquired)
  | se :: deps, acquired => do
    let (ret, acquired) ← test acquired se
    if ret then .ok (true, acquired) else anyAcquired test deps acquired

variable {S : Type} [DecidableEq S]

def sliceAcquired (deps : S → List S) : Nat → Test S
  | 0, _, _ => .error .tooDeep
  | depth + 1, acquired, s =>
    if 0 < acquired s then .ok (true, acquired)
    else if acquired s < 0 then .error .panic
    else do
      let (ret, acquired) ← anyAcquired (sliceAcquired deps depth) (deps s) (update acquired s (-1))
      .ok (ret, update acquired s 0)

section
variable (st : Slices S) (s : S)

/-- `__slice_acquire`: an `int`; a count that drops below zero is reported and reset. -/
def addAcquired (add : Int) : Slices S :=
  let count := (st.acquired s + add).bmod (2 ^ 32)
  { st with acquired := update st.acquired s (if count < 0 then 0 else count) }

def sliceAcquire : Slices S := addAcquired st s 1

def sliceRelease : Slices S := addAcquired st s (-1)

def sliceDependsOn (dep : S) : Slices S :=
  { st with deps := update st.deps s (st.deps s ++ [dep]) }

def sliceInit : Slices S :=
  { st with deps := update st.deps s [], slices := st.slices ++ [s] }

/-- `slice_exit`: only slices on the list lose the dependency. -/
def sliceExit : Slices S :=
  let slices := st.slices.filter (· ≠ s)
  let deps := update st.deps s []
  { st with slices, deps := fun t => if t ∈ slices then (deps t).filter (· ≠ s) else deps t }

end

/-- What the calls can make of slices in zeroed memory. -/
inductive History : Slices S → Prop
  | start : History ⟨fun _ => 0, fun _ => [], []⟩
  | init {st s} : History st → s ∉ st.slices → History (sliceInit st s)
  | dependsOn {st s dep} : History st → s ∈ st.slices → dep ∈ st.slices →
      History (sliceDependsOn st s dep)
  | exit {st s} : History st → s ∈ st.slices → History (sliceExit st s)
  | acquire {st s} : History st → s ∈ st.slices → History (sliceAcquire st s)
  | release {st s} : History st → s ∈ st.slices → History (sliceRelease st s)

variable {acquired : Counts S} {st : Slices S} {s : S}

/-- No count is negative, and dependencies of a slice on the list are on the list. -/
structure Wf (st : Slices S) : Prop where
  nonneg : ∀ s, 0 ≤ st.acquired s
  closed : ∀ s ∈ st.slices, ∀ dep ∈ st.deps s, dep ∈ st.slices

theorem Wf.addAcquired (h : Wf st) (add : Int) : Wf (addAcquired st s add) := by
  refine ⟨fun t => ?_, h.closed⟩
  dsimp only [Slice.addAcquired]
  rw [update_apply]
  split
  · split <;> omega
  · exact h.nonneg t

/-- No slice is released more often than it was acquired. -/
theorem History.wf (h : History st) : Wf st := by
  induction h with
  | start => exact ⟨fun _ => Int.le_refl 0, nofun⟩
  | init _ _ ih =>
    refine ⟨ih.nonneg, fun t ht dep hdep => mem_append_left _ ?_⟩
    dsimp only [sliceInit] at ht hdep
    rw [update_apply] at hdep
    split at hdep
    · exact nomatch hdep
    next hts => exact ih.closed t ((mem_append.1 ht).resolve_right (by simpa using hts)) dep hdep
  | dependsOn _ hs hnew ih =>
    refine ⟨ih.nonneg, fun t ht dep hdep => ?_⟩
    dsimp only [sliceDependsOn] at ht hdep
    rw [update_apply] at hdep
    split at hdep
    · obtain hdep | hdep := mem_append.1 hdep
      · exact ih.closed _ hs dep hdep
      · exact mem_singleton.1 hdep ▸ hnew
    · exact ih.closed t ht dep hdep
  | exit _ _ ih =>
    refine ⟨ih.nonneg, fun t ht dep hdep => ?_⟩
    dsimp only [sliceExit] at ht hdep ⊢
    rw [if_pos ht, mem_filter] at hdep
    rw [mem_filter] at ht ⊢
    rw [update_of_ne (of_decide_eq_true ht.2)] at hdep
    exact ⟨ih.closed t ht.1 dep hdep.1, hdep.2⟩
  | acquire _ _ ih => exact ih.addAcquired 1
  | release _ _ ih => exact ih.addAcquired (-1)

/-- The counts while the calls for the slices of `path` are under way. -/
def marked (acquired : Counts S) (path : List S) : Counts S := fun s =>
  if s ∈ path then -1 else acquired s

theorem update_marked {path : List S} :
    update (marked acquired path) s (-1) = marked acquired (s :: path) := by
  funext t
  by_cases ht : t = s <;> simp [marked, ht]

theorem update_marked_cons {path : List S} (h0 : acquired s = 0) (hs : s ∉ path) :
    update (marked acquired (s :: path)) s 0 = marked acquired path := by
  funext t
  by_cases ht : t = s <;> simp [marked, ht, hs, h0]

omit [DecidableEq S] in
/-- The loop over the dependencies leaves the marks as it finds them. -/
theorem anyAcquired_eq {test : Test S} {P : S → Prop} : ∀ {deps : List S},
    (∀ dep ∈ deps, ∃ ret, test acquired dep = .ok (ret, acquired) ∧ (ret = true ↔ P dep)) →
    ∃ ret, anyAcquired test deps acquired = .ok (ret, acquired) ∧ (ret = true ↔ ∃ dep ∈ deps, P dep)
  | [], _ => ⟨false, rfl, by simp⟩
  | dep :: deps, h => by
    obtain ⟨ret, htest, hret⟩ := h dep mem_cons_self
    obtain ⟨rest, hany, hrest⟩ := anyAcquired_eq fun d hd => h d (mem_cons_of_mem _ hd)
    unfold anyAcquired
    rw [htest]
    cases ret with
    | true => exact ⟨true, rfl, by simp [← hret]⟩
    | false => exact ⟨rest, hany, by simp [← hret, hrest]⟩

/-- `dep` is one of the dependencies of `s`. -/
def DependsOn (deps : S → List S) (s dep : S) : Prop := dep ∈ deps s

/-- The walk inside the calls for `path`: each of them leads to `s`, so that no mark is met,
and all are on the list, so that the calls nest no deeper than it is long. -/
theorem sliceAcquired_marked (hwf : Wf st) (hacyclic : ∀ s, ¬ TransGen (DependsOn st.deps) s s)
    {depth : Nat} : ∀ {path : List S} {s : S}, s ∈ st.slices → path.Nodup →
    (∀ p ∈ path, p ∈ st.slices ∧ TransGen (DependsOn st.deps) p s) →
    st.slices.length ≤ depth + path.length →
    ∃ ret, sliceAcquired st.deps depth (marked st.acquired path) s =
        .ok (ret, marked st.acquired path) ∧
      (ret = true ↔ ∃ d, ReflTransGen (DependsOn st.deps) s d ∧ 0 < st.acquired d) := by
  induction depth with
  | zero =>
    intro path s hs hnodup hpath hlen
    have hnot : s ∉ path := fun h => hacyclic s (hpath s h).2
    -- the path and `s` are distinct slices, more than there are
    have hle := ((nodup_cons.2 ⟨hnot, hnodup⟩).subperm (cons_subset.2 ⟨hs, fun p hp => (hpath p hp).1⟩)).length_le
    rw [length_cons] at hle
    omega
  | succ depth ih =>
    intro path s hs hnodup hpath hlen
    have hnot : s ∉ path := fun h => hacyclic s (hpath s h).2
    have hs0 := hwf.nonneg s
    unfold sliceAcquired
    rw [show marked st.acquired path s = st.acquired s from if_neg hnot]
    split
    next hpos => exact ⟨true, rfl, fun _ => ⟨s, .refl, hpos⟩, fun _ => rfl⟩
    next hpos =>
      have h0 : st.acquired s = 0 := by omega
      -- the mark is on `s` while its dependencies are asked
      obtain ⟨ret, hany, hret⟩ := anyAcquired_eq fun dep (hdep : dep ∈ st.deps s) =>
        ih (hwf.closed s hs dep hdep) (nodup_cons.2 ⟨hnot, hnodup⟩)
          (forall_mem_cons.2 ⟨⟨hs, .single hdep⟩, fun p hp =>
            ⟨(hpath p hp).1, (hpath p hp).2.tail hdep⟩⟩) (by rw [length_cons]; omega)
      rw [if_neg (by omega), update_marked, hany]
      refine ⟨ret, congrArg (fun a => Except.ok (ret, a)) (update_marked_cons h0 hnot), hret.trans ?_⟩
      constructor
      · rintro ⟨dep, hdep, d, hd, hpos⟩
        exact ⟨d, .head hdep hd, hpos⟩
      · rintro ⟨d, hd, hpos⟩
        obtain rfl | ⟨dep, hdep, hd⟩ := hd.cases_head
        · omega
        · exact ⟨dep, hdep, d, hd, hpos⟩

/-- On every acyclic graph `slice_acquired` returns, with no mark met and no count changed,
and says whether the slice or one it depends on in any number of steps is acquired. -/
theorem slice_acquired_exact (h : History st) (hs : s ∈ st.slices)
    (hacyclic : ∀ s, ¬ TransGen (DependsOn st.deps) s s) {depth : Nat}
    (hdepth : st.slices.length ≤ depth) :
    ∃ ret, sliceAcquired st.deps depth st.acquired s = .ok (ret, st.acquired) ∧
      (ret = true ↔ ∃ d, ReflTransGen (DependsOn st.deps) s d ∧ 0 < st.acquired d) := by
  have hunmarked : marked st.acquired [] = st.acquired := funext fun _ => if_neg not_mem_nil
  have hwalk := sliceAcquired_marked h.wf hacyclic hs .nil (by simp) hdepth
  rwa [hunmarked] at hwalk

/-- An LED and its regulator (1 and 2) are both on a bus (3) that is in use. -/
def ledOnBus : Slices Nat :=
  let st := [0, 1, 2, 3].foldl sliceInit ⟨fun _ => 0, fun _ => [], []⟩
  sliceAcquire (sliceDependsOn (sliceDependsOn (sliceDependsOn (sliceDependsOn st 0 1) 0 2) 1 3) 2 3) 3

theorem slice_acquired_led :
    sliceAcquired ledOnBus.deps 4 ledOnBus.acquired 0 = .ok (true, ledOnBus.acquired) := by
  have hup : ∀ s dep, DependsOn ledOnBus.deps s dep → s < dep := by
    intro s dep h
    by_cases h0 : s = 0 <;> by_cases h1 : s = 1 <;> by_cases h2 : s = 2 <;> by_cases h3 : s = 3 <;>
      simp_all [ledOnBus, DependsOn, sliceAcquire, addAcquired, sliceDependsOn, sliceInit]
    omega
  have hhistory : History ledOnBus := by
    refine .acquire (.dependsOn (.dependsOn (.dependsOn (.dependsOn
      (.init (.init (.init (.init .start ?_) ?_) ?_) ?_) ?_ ?_) ?_ ?_) ?_ ?_) ?_ ?_) ?_
    all_goals decide
  obtain ⟨ret, hret, htrue⟩ := slice_acquired_exact hhistory (s := 0) (by decide) (fun s h => by
    have hlt := TransGen.mono hup s s h
    rw [transGen_eq_self] at hlt
    omega) (Nat.le_refl 4)
  obtain rfl : ret = true := htrue.mpr ⟨3, .head (by decide : 1 ∈ ledOnBus.deps 0)
    (.single (by decide : 3 ∈ ledOnBus.deps 1)), by decide⟩
  exact hret

end Barebox.Slice
