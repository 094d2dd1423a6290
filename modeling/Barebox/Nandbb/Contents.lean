import Barebox.Nandbb.Model

/-!
# What is on the NAND device

The raw offsets of the bytes in good eraseblocks, one behind the other, are the
positions of the device: byte `k` of the device is the byte at the `k`-th of
them. A raw offset stands for the positions from it on (`goodsFrom`), and both
ways of the code to move on — over a bad block, and inside of a good one — are
about these.
-/

namespace Barebox.Nandbb

open Lib List

variable {mtd : Mtd}

/-- The raw offsets in good eraseblocks from `r` on. -/
def goodsFrom (mtd : Mtd) (r : Nat) : List Nat :=
  (range' r (mtd.size - r)).filter fun i => !mtd.blockIsbad i

def goods (mtd : Mtd) : List Nat := goodsFrom mtd 0

/-- The concatenation of the good eraseblocks. -/
def contents (mtd : Mtd) (flash : Flash) : Bytes := (goods mtd).map flash

theorem goods_sorted (mtd : Mtd) : (goods mtd).Pairwise (· < ·) :=
  List.Pairwise.filter _ (pairwise_lt_range' 1)

variable {r : Nat}

theorem goodsFrom_end (h : mtd.size ≤ r) : goodsFrom mtd r = [] := by
  unfold goodsFrom
  rw [Nat.sub_eq_zero_of_le h]
  rfl

/-- The offset is not inside of a bad eraseblock. -/
def Sound (mtd : Mtd) (r : Nat) : Prop := r % mtd.erasesize = 0 ∨ mtd.blockIsbad r = false

theorem sound_zero (mtd : Mtd) : Sound mtd 0 := Or.inl (Nat.zero_mod _)

/-- Offsets in one eraseblock. -/
theorem blockIsbad_add (mtd : Mtd) (r n : Nat) (h : r % mtd.erasesize + n < mtd.erasesize) :
    mtd.blockIsbad (r + n) = mtd.blockIsbad r := by
  have hdiv := Nat.div_add_mod r mtd.erasesize
  unfold Mtd.blockIsbad
  have heq : (r + n) / mtd.erasesize = r / mtd.erasesize := by
    rw [← hdiv, Nat.add_assoc, Nat.mul_add_div mtd.pos, Nat.mul_add_div mtd.pos,
      Nat.div_eq_of_lt h, Nat.div_eq_of_lt (Nat.mod_lt _ mtd.pos)]
  rw [heq]

/-- Over a bad eraseblock. -/
theorem goodsFrom_bad (hsound : Sound mtd r) (hbad : mtd.blockIsbad r = true) :
    goodsFrom mtd r = goodsFrom mtd (r + mtd.erasesize) ∧ Sound mtd (r + mtd.erasesize) := by
  have hstart : r % mtd.erasesize = 0 := by
    rcases hsound with h | h
    · exact h
    · rw [hbad] at h
      nomatch h
  refine ⟨?_, Or.inl (by rw [Nat.add_mod_right, hstart])⟩
  have hskip : ∀ n ≤ mtd.erasesize, (range' r n).filter (fun i => !mtd.blockIsbad i) = [] := by
    intro n hn
    rw [filter_eq_nil_iff]
    intro i hi
    obtain ⟨hle, hlt⟩ := mem_range'_1.mp hi
    have hsame := blockIsbad_add mtd r (i - r) (by omega)
    rw [Nat.add_sub_cancel' hle, hbad] at hsame
    simp [hsame]
  unfold goodsFrom
  by_cases hend : mtd.size ≤ r + mtd.erasesize
  · rw [Nat.sub_eq_zero_of_le hend, hskip _ (by omega)]
    rfl
  · rw [show mtd.size - r = mtd.erasesize + (mtd.size - (r + mtd.erasesize)) by omega,
      ← List.range'_append_1, filter_append, hskip _ (Nat.le_refl _), nil_append]

section

variable {n : Nat} (hgood : mtd.blockIsbad r = false) (hblock : r % mtd.erasesize + n ≤ mtd.erasesize)
include hgood hblock

/-- Inside of a good one. -/
theorem goodsFrom_good (hsize : r + n ≤ mtd.size) :
    goodsFrom mtd r = range' r n ++ goodsFrom mtd (r + n) := by
  unfold goodsFrom
  rw [show mtd.size - r = n + (mtd.size - (r + n)) by omega, ← List.range'_append_1,
    filter_append]
  congr 1
  rw [filter_eq_self]
  intro i hi
  obtain ⟨hle, hlt⟩ := mem_range'_1.mp hi
  have hsame := blockIsbad_add mtd r (i - r) (by omega)
  rw [Nat.add_sub_cancel' hle, hgood] at hsame
  rw [hsame]
  rfl

/-- At the end of the block, or still in it. -/
theorem sound_add : Sound mtd (r + n) := by
  rcases Nat.lt_or_ge (r % mtd.erasesize + n) mtd.erasesize with hlt | hge
  · exact Or.inr ((blockIsbad_add mtd r n hlt).trans hgood)
  · refine Or.inl ?_
    rw [← Nat.mod_add_mod, Nat.le_antisymm hblock hge, Nat.mod_self]

/-- Inside a block the good bytes follow each other. -/
theorem goodsFrom_add : goodsFrom mtd (r + n) = (goodsFrom mtd r).drop n := by
  rcases Nat.le_total (r + n) mtd.size with hle | hge
  · have hlen : (range' r n).length = n := length_range'
    rw [goodsFrom_good hgood hblock hle, drop_append, hlen, Nat.sub_self, drop_zero,
      drop_eq_nil_of_le (Nat.le_of_eq hlen), nil_append]
  · rw [goodsFrom_end hge]
    refine (drop_eq_nil_of_le (Nat.le_trans (length_filter_le _ _) ?_)).symm
    rw [length_range']
    omega

end

end Barebox.Nandbb
