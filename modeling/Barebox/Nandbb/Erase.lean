import Barebox.Nandbb.Model

/-!
# Erasing the NAND device — `nand_bb_erase`

The loop takes the erasesize off the count for each eraseblock, and stops when
nothing is left. A count that is not a multiple of the erasesize steps over
zero, and all the rest of the device is erased. `nand_bb_erase_iff` says when
the blocks that are erased are those that were asked for.
-/

namespace Barebox.Nandbb

open List

variable {mtd : Mtd}

/-- The addresses of the good eraseblocks from block `b` on. A rest at the end of
the device is not an eraseblock. -/
def blocksFrom (mtd : Mtd) (b : Nat) : List Nat :=
  ((range' b (mtd.size / mtd.erasesize - b)).filter fun i => !mtd.bad i).map (· * mtd.erasesize)

def goodBlocks (mtd : Mtd) : List Nat := blocksFrom mtd 0

/-- How many eraseblocks `count` bytes take. -/
def blocksFor (mtd : Mtd) (count : Nat) : Nat := (count + (mtd.erasesize - 1)) / mtd.erasesize

theorem blocksFrom_end {b : Nat} (h : mtd.size / mtd.erasesize ≤ b) : blocksFrom mtd b = [] := by
  unfold blocksFrom
  rw [Nat.sub_eq_zero_of_le h]
  rfl

theorem blocksFrom_bad {b : Nat} (h : b < mtd.size / mtd.erasesize) (hbad : mtd.bad b = true) :
    blocksFrom mtd b = blocksFrom mtd (b + 1) := by
  unfold blocksFrom
  rw [show mtd.size / mtd.erasesize - b = mtd.size / mtd.erasesize - (b + 1) + 1 by omega,
    List.range'_succ, filter_cons_of_neg (by simp [hbad])]

theorem blocksFrom_good {b : Nat} (h : b < mtd.size / mtd.erasesize) (hgood : mtd.bad b = false) :
    blocksFrom mtd b = b * mtd.erasesize :: blocksFrom mtd (b + 1) := by
  unfold blocksFrom
  rw [show mtd.size / mtd.erasesize - b = mtd.size / mtd.erasesize - (b + 1) + 1 by omega,
    List.range'_succ, filter_cons_of_pos (by simp [hgood]), map_cons]

/-- The erases that are tried: one that fails is the last. -/
def tried (mtd : Mtd) : List Nat → List Nat
  | [] => []
  | a :: l => a :: if (mtd.eraseError a).isSome then [] else tried mtd l

/-! ## The loop -/

theorem blockIsbad_mul (b : Nat) : mtd.blockIsbad (b * mtd.erasesize) = mtd.bad b := by
  unfold Mtd.blockIsbad
  rw [Nat.mul_div_cancel b mtd.pos]

/-- What is asked for: `some n` with `n` eraseblocks to go, `none` when the
count does not come to zero. -/
def limit (n : Option Nat) (l : List Nat) : List Nat :=
  match n with
  | some n => l.take n
  | none => l

/-- `count` is what the loop has for `n` blocks to go. -/
def Asks (mtd : Mtd) (count : Int) : Option Nat → Prop
  | some n => count = (n * mtd.erasesize : Nat)
  | none => ∀ n : Nat, count ≠ (n * mtd.erasesize : Nat)

/-- One block less to go. -/
theorem Asks.sub {count : Int} {n : Option Nat} (h : Asks mtd count n) (hcount : count ≠ 0) :
    ∃ n', Asks mtd (count - mtd.erasesize) n' ∧ ∀ a l, limit n (a :: l) = a :: limit n' l := by
  cases n with
  | none =>
    refine ⟨none, fun n hn => h (n + 1) ?_, fun a l => rfl⟩
    rw [Nat.succ_mul]
    omega
  | some n =>
    cases n with
    | zero =>
      rw [Asks, Nat.zero_mul] at h
      exact absurd h hcount
    | succ n =>
      refine ⟨some n, ?_, fun a l => rfl⟩
      rw [Asks, Nat.succ_mul] at h
      rw [Asks]
      omega

/-- Nothing is asked for just if the count is zero. -/
theorem Asks.eq_zero_iff {count : Int} {n : Option Nat} (h : Asks mtd count n) :
    count = 0 ↔ n = some 0 := by
  have hpos := mtd.pos
  cases n with
  | none =>
    refine ⟨fun hz => absurd ?_ (h 0), nofun⟩
    rw [hz, Nat.zero_mul]
    rfl
  | some n =>
    rw [h, Option.some.injEq]
    constructor
    · intro hz
      have hz : n * mtd.erasesize = 0 := by omega
      rcases Nat.mul_eq_zero.mp hz with hn | he
      · exact hn
      · omega
    · intro hn
      rw [hn, Nat.zero_mul]
      rfl

/-- The loop tries the good blocks that it is at, as many as are asked for. -/
theorem eraseLoop_erased (fuel : Nat) : ∀ (b : Nat) {count : Int} {n : Option Nat},
    Asks mtd count n → mtd.size / mtd.erasesize < fuel + b →
    (eraseLoop mtd fuel (b * mtd.erasesize) count).1 = tried mtd (limit n (blocksFrom mtd b)) := by
  induction fuel with
  | zero =>
    intro b count n _ hfuel
    rw [blocksFrom_end (by omega)]
    cases n with
    | none => rfl
    | some n =>
      rw [limit, take_nil]
      rfl
  | succ fuel ih =>
    intro b count n hn hfuel
    -- the next block ends inside of the device
    have hinside : b < mtd.size / mtd.erasesize ↔ b * mtd.erasesize + mtd.erasesize ≤ mtd.size := by
      rw [← Nat.succ_mul, ← Nat.le_div_iff_mul_le mtd.pos]
      rfl
    rw [eraseLoop]
    split
    next hz =>
      rw [hn.eq_zero_iff.mp hz, limit]
      rfl
    next hnz =>
    split
    next hend =>
      rw [blocksFrom_end (by omega)]
      cases n with
      | none => rfl
      | some n =>
        rw [limit, take_nil]
        rfl
    next hnotend =>
    rw [blockIsbad_mul, ← Nat.succ_mul]
    split
    next hbad =>
      rw [blocksFrom_bad (hinside.mpr (by omega)) hbad]
      exact ih (b + 1) hn (by omega)
    next hgood =>
    obtain ⟨n', hn', hlimit⟩ := hn.sub hnz
    rw [blocksFrom_good (hinside.mpr (by omega)) (Bool.eq_false_iff.mpr hgood), hlimit, tried]
    split
    next e herr => rw [herr, Option.isSome_some, if_pos rfl]
    next herr =>
    rw [herr]
    exact congrArg _ (ih (b + 1) hn' (by omega))

/-! ## What is erased -/

theorem tried_eq_nil_iff (l : List Nat) : tried mtd l = [] ↔ l = [] := by
  cases l with
  | nil => exact iff_of_true rfl rfl
  | cons a l => exact ⟨nofun, nofun⟩

/-- The blocks that are tried are the first `n` if and only if no erase before the
last of them fails, and the loop does not go on behind it. -/
theorem tried_eq_take_iff (mtd : Mtd) (l : List Nat) : ∀ (n : Nat),
    (tried mtd l = l.take (n + 1) ↔ (∀ a ∈ (l.take (n + 1)).dropLast, mtd.eraseError a = none)
      ∧ (l.length ≤ n + 1 ∨ ∃ a, (l.take (n + 1)).getLast? = some a ∧ mtd.eraseError a ≠ none)) := by
  induction l with
  | nil =>
    intro n
    refine ⟨fun _ => ⟨fun a ha => ?_, Or.inl (Nat.zero_le _)⟩, fun _ => (take_nil).symm⟩
    nomatch ha
  | cons a l ih =>
    intro n
    rw [take_succ_cons, tried, List.cons.injEq]
    cases herr : mtd.eraseError a with
    | some e =>
      -- this erase is the last one
      rw [Option.isSome_some, if_pos rfl]
      cases l.take n with
      | nil =>
        refine iff_of_true ⟨rfl, rfl⟩ ⟨nofun, Or.inr ⟨a, rfl, ?_⟩⟩
        rw [herr]
        nofun
      | cons b t =>
        refine iff_of_false nofun fun ⟨h, _⟩ => ?_
        have hnone := h a (.head _)
        rw [herr] at hnone
        nomatch hnone
    | none =>
      rw [Option.isSome_none, if_neg Bool.false_ne_true]
      cases n with
      | zero =>
        rw [take_zero, tried_eq_nil_iff]
        refine ⟨fun ⟨_, hl⟩ => ⟨fun a ha => ?_, Or.inl ?_⟩, fun ⟨_, h⟩ => ⟨rfl, ?_⟩⟩
        · nomatch ha
        · rw [hl]
          exact Nat.le_refl 1
        · rcases h with h | ⟨b, hb, hfails⟩
          · rw [length_cons] at h
            exact eq_nil_of_length_eq_zero (by omega)
          · rw [← Option.some.inj hb] at hfails
            exact absurd herr hfails
      | succ n =>
        rw [ih n]
        cases l with
        | nil =>
          refine iff_of_true ⟨rfl, ?_, ?_⟩ ⟨?_, Or.inl (Nat.le_add_left 1 _)⟩
          · exact nofun
          · exact Or.inl (Nat.zero_le _)
          · exact nofun
        | cons b l =>
          rw [take_succ_cons, dropLast_cons_cons, forall_mem_cons,
            length_cons (a := a), Nat.succ_le_succ_iff]
          exact ⟨fun ⟨_, hnone, h⟩ => ⟨⟨herr, hnone⟩, h⟩, fun ⟨⟨_, hnone⟩, h⟩ => ⟨rfl, hnone, h⟩⟩

/-- A count of whole eraseblocks stops behind the last of them. -/
theorem erased_of_dvd (n : Nat) :
    (nandBbErase mtd (n * mtd.erasesize : Nat) 0).1 = tried mtd ((goodBlocks mtd).take n) := by
  have hle := Nat.div_le_self mtd.size mtd.erasesize
  have hasks : Asks mtd (n * mtd.erasesize : Nat) (some n) := rfl
  have hloop := eraseLoop_erased (mtd.size + 1) 0 hasks (by omega)
  rw [Nat.zero_mul] at hloop
  exact hloop

/-- Any other goes to the end of the device. -/
theorem erased_of_not_dvd {count : Nat} (h : ¬ mtd.erasesize ∣ count) :
    (nandBbErase mtd count 0).1 = tried mtd (goodBlocks mtd) := by
  have hle := Nat.div_le_self mtd.size mtd.erasesize
  have hasks : Asks mtd count none := by
    intro n hn
    exact h ⟨n, by rw [Nat.mul_comm]; omega⟩
  have hloop := eraseLoop_erased (mtd.size + 1) 0 hasks (by omega)
  rw [Nat.zero_mul] at hloop
  exact hloop

/-- As long as no erase before the last fails, the blocks that are erased are those
that were asked for if and only if the count is a multiple of the erasesize, or
there are no more good blocks, or the last erase fails. -/
theorem nand_bb_erase_iff (mtd : Mtd) (count : Nat) :
    (nandBbErase mtd count 0).1 = (goodBlocks mtd).take (blocksFor mtd count)
      ↔ (∀ a ∈ ((goodBlocks mtd).take (blocksFor mtd count)).dropLast, mtd.eraseError a = none)
        ∧ (mtd.erasesize ∣ count ∨ (goodBlocks mtd).length ≤ blocksFor mtd count
          ∨ ∃ a, ((goodBlocks mtd).take (blocksFor mtd count)).getLast? = some a
            ∧ mtd.eraseError a ≠ none) := by
  have hpos := mtd.pos
  by_cases hdvd : mtd.erasesize ∣ count
  · obtain ⟨n, hn⟩ := hdvd
    rw [Nat.mul_comm] at hn
    have hblocks : blocksFor mtd count = n := by
      unfold blocksFor
      rw [hn, Nat.add_comm, Nat.add_mul_div_right _ _ hpos, Nat.div_eq_of_lt (by omega), Nat.zero_add]
    rw [hblocks, hn, erased_of_dvd]
    cases n with
    | zero =>
      refine iff_of_true rfl ⟨fun a ha => ?_, Or.inl ⟨0, ?_⟩⟩
      · nomatch ha
      · rw [Nat.zero_mul, Nat.mul_zero]
    | succ n =>
      have htake := tried_eq_take_iff mtd ((goodBlocks mtd).take (n + 1)) n
      rw [take_take, Nat.min_self] at htake
      rw [htake]
      exact and_congr_right fun _ =>
        iff_of_true (Or.inl (length_take_le _ _)) (Or.inl ⟨n + 1, Nat.mul_comm _ _⟩)
  · -- the count is not zero
    obtain ⟨n, hn⟩ : ∃ n, blocksFor mtd count = n + 1 := by
      refine Nat.exists_eq_succ_of_ne_zero (Nat.ne_of_gt (Nat.div_pos ?_ hpos))
      have hne : count ≠ 0 := fun hz => hdvd ⟨0, by rw [hz, Nat.mul_zero]⟩
      omega
    rw [hn, erased_of_not_dvd hdvd, tried_eq_take_iff, or_iff_right hdvd]

/-- Four good eraseblocks. -/
def fourBlocks : Mtd where
  size := 32768
  erasesize := 8192
  pos := by decide
  bad := fun _ => false
  readError := fun _ => none
  writeError := fun _ => none
  eraseError := fun _ => none

/-- A byte more than one eraseblock takes two, and all four are erased. -/
theorem fourBlocks_erase :
    (nandBbErase fourBlocks 8193 0).1 ≠ (goodBlocks fourBlocks).take (blocksFor fourBlocks 8193) := by
  decide

end Barebox.Nandbb
