import Mathlib

/-!
# Byte strings

Everything the development reads from or writes to a medium is a list of
bytes. This file is the shared arithmetic of such lists: cutting a piece
out (`slice`), writing a piece over (`overwrite`), fixed-width numbers in
both byte orders, and rounding a length up to a block boundary.

Nothing here knows what the bytes mean; the lemmas are the ones the
proofs about storage, records and flat trees all end up needing — what a
read sees after a write, on the written range and off it, and that a
number survives being stored.
-/

namespace Barebox.Lib

open List

abbrev Bytes := List UInt8

instance : LawfulBEq Bytes := inferInstance

/-! ## Cutting pieces out -/

/-- The `len` bytes from offset `off` (fewer when the list ends earlier). -/
def slice (off len : Nat) (b : Bytes) : Bytes := (b.drop off).take len

variable {off len i n : Nat} {b a new : Bytes}

theorem length_slice (off len : Nat) (b : Bytes) : (slice off len b).length = min len (b.length - off) := by
  unfold slice
  rw [length_take, length_drop]

theorem slice_length (h : off + len ≤ b.length) : (slice off len b).length = len := by
  rw [length_slice]
  omega

theorem slice_zero (len : Nat) (b : Bytes) : slice 0 len b = b.take len := rfl

theorem slice_one (h : off < b.length) : slice off 1 b = [b.getD off 0] := by
  unfold slice
  rw [drop_eq_getElem_cons h, getD_eq_getElem?_getD, getElem?_eq_getElem h]
  rfl

theorem slice_append_left (b : Bytes) (h : off + len ≤ a.length) : slice off len (a ++ b) = slice off len a := by
  unfold slice
  rw [drop_append_of_le_length (by omega), take_append_of_le_length]
  rw [length_drop]
  omega

theorem slice_append_right (b : Bytes) (h : a.length ≤ off) :
    slice off len (a ++ b) = slice (off - a.length) len b := by
  unfold slice
  rw [drop_append, drop_eq_nil_of_le h, nil_append]

theorem slice_append_exact (b : Bytes) (h : a.length = len) : slice 0 len (a ++ b) = a := by
  rw [← h]
  exact take_left

theorem slice_mid (c : Bytes) (ha : a.length = off) (hb : b.length = len) : slice off len (a ++ (b ++ c)) = b := by
  rw [slice_append_right _ (Nat.le_of_eq ha), ha, Nat.sub_self]
  exact slice_append_exact c hb

/-- A slice of a slice is a slice. -/
theorem slice_slice (b : Bytes) (h : i + n ≤ len) : slice i n (slice off len b) = slice (off + i) n b := by
  unfold slice
  rw [drop_take, drop_drop, take_take, Nat.min_eq_left (by omega)]

theorem slice_add (off n m : Nat) : slice off (n + m) b = slice off n b ++ slice (off + n) m b := by
  unfold slice
  rw [take_add, drop_drop]

theorem take_slice (b : Bytes) (h : n ≤ len) : (slice off len b).take n = slice off n b := by
  have hs : slice 0 n (slice off len b) = slice (off + 0) n b := slice_slice b (by omega)
  rwa [slice_zero] at hs

theorem take_take_of_le {m : Nat} (b : Bytes) (h : m ≤ n) : (b.take n).take m = b.take m := by
  rw [take_take, Nat.min_eq_left h]

theorem slice_take (b : Bytes) (h : off + len ≤ n) : slice off len (b.take n) = slice off len b := by
  rw [← slice_zero n b, slice_slice b h, Nat.zero_add]

theorem mem_of_mem_slice {x : UInt8} (h : x ∈ slice off len b) : x ∈ b.drop off :=
  mem_of_mem_take h

theorem slice_of_all {v : UInt8} (hlen : off + len ≤ b.length)
    (h : ∀ x ∈ b.drop off, x = v) : slice off len b = replicate len v := by
  refine eq_replicate_iff.mpr ⟨slice_length hlen, ?_⟩
  intro x hx
  exact h x (mem_of_mem_slice hx)

/-! ## Writing pieces over -/

/-- `b` with `new` written over it from offset `off`. -/
def overwrite (off : Nat) (new b : Bytes) : Bytes :=
  b.take off ++ new ++ b.drop (off + new.length)

theorem overwrite_zero : overwrite 0 new b = new ++ b.drop new.length := by
  rw [overwrite, take_zero, nil_append, Nat.zero_add]

/-- Writing behind a piece. -/
theorem overwrite_append (new b : Bytes) (h : a.length = off) :
    overwrite off new (a ++ b) = a ++ new ++ b.drop new.length := by
  unfold overwrite
  rw [take_left' h, drop_append, drop_eq_nil_of_le (by omega), nil_append, h,
    Nat.add_sub_cancel_left]

theorem overwrite_length (h : off + new.length ≤ b.length) : (overwrite off new b).length = b.length := by
  unfold overwrite
  rw [length_append, length_append, length_take, length_drop]
  omega

/-- Reading the written range back gives what was written. -/
theorem slice_overwrite_self (h : off ≤ b.length) : slice off new.length (overwrite off new b) = new := by
  have hpre := length_take_of_le h
  unfold overwrite slice
  rw [append_assoc, drop_append, drop_eq_nil_of_le (by omega), nil_append,
    hpre, Nat.sub_self, drop_zero, take_left]

/-- A read wholly before the written range does not see the write. -/
theorem slice_overwrite_before (h : i + n ≤ off)
    (hb : off ≤ b.length) : slice i n (overwrite off new b) = slice i n b := by
  have hpre := length_take_of_le hb
  unfold overwrite
  rw [append_assoc, slice_append_left _ (by omega)]
  unfold slice
  rw [drop_take, take_take, Nat.min_eq_left (by omega)]

/-- What lies behind the written range is untouched. -/
theorem drop_overwrite_after (h : off + new.length ≤ i)
    (hb : off ≤ b.length) : (overwrite off new b).drop i = b.drop i := by
  have hpre := length_take_of_le hb
  unfold overwrite
  rw [drop_append, drop_eq_nil_of_le (by rw [length_append]; omega),
    nil_append, drop_drop, length_append]
  congr 1
  omega

theorem slice_overwrite_after (h : off + new.length ≤ i)
    (hb : off ≤ b.length) : slice i n (overwrite off new b) = slice i n b := by
  unfold slice
  rw [drop_overwrite_after h hb]

/-- A byte that is not written stays as it is. -/
theorem getElem?_overwrite (hb : off + new.length ≤ b.length)
    (h : i < off ∨ off + new.length ≤ i) : (overwrite off new b)[i]? = b[i]? := by
  have hpre := length_take_of_le (show off ≤ b.length by omega)
  obtain hi | hi := h
  · unfold overwrite
    rw [append_assoc, getElem?_append_left (by omega), getElem?_take_of_lt hi]
  · have hdrop := drop_overwrite_after hi (show off ≤ b.length by omega)
    have hget := congrArg (fun l : Bytes => l[0]?) hdrop
    simpa only [getElem?_drop, Nat.add_zero] using hget

/-- Two writes side by side are one. -/
theorem overwrite_overwrite {new' : Bytes} (h : off + new.length ≤ b.length) :
    overwrite (off + new.length) new' (overwrite off new b) = overwrite off (new ++ new') b := by
  have hpre := length_take_of_le (show off ≤ b.length by omega)
  have htake : (overwrite off new b).take (off + new.length) = b.take off ++ new := by
    unfold overwrite
    rw [take_left' (by rw [length_append, hpre])]
  have hdrop : (overwrite off new b).drop (off + new.length + new'.length)
      = b.drop (off + new.length + new'.length) :=
    drop_overwrite_after (Nat.le_add_right _ _) (by omega)
  have hunfold : ∀ o n (c : Bytes), overwrite o n c = c.take o ++ n ++ c.drop (o + n.length) :=
    fun _ _ _ => rfl
  rw [hunfold (off + new.length), htake, hdrop, hunfold off (new ++ new'), length_append,
    Nat.add_assoc off, append_assoc (b.take off)]

/-- Writing back what is there changes nothing. -/
theorem overwrite_slice (h : off + len ≤ b.length) : overwrite off (slice off len b) b = b := by
  unfold overwrite
  rw [slice_length h, ← drop_drop, append_assoc]
  unfold slice
  rw [take_append_drop, take_append_drop]

/-- Writing inside of a piece. -/
theorem overwrite_mid {c : Bytes} (ha : a.length ≤ off) (hb : off + new.length ≤ a.length + b.length) :
    overwrite off new (a ++ b ++ c) = a ++ overwrite (off - a.length) new b ++ c := by
  have htake : (a ++ b ++ c).take off = a ++ b.take (off - a.length) := by
    rw [append_assoc, take_append, take_of_length_le ha,
      take_append_of_le_length (by omega)]
  have hdrop : (a ++ b ++ c).drop (off + new.length) = b.drop (off - a.length + new.length) ++ c := by
    rw [append_assoc, drop_append, drop_eq_nil_of_le (by omega), nil_append,
      drop_append_of_le_length (by omega),
      show off + new.length - a.length = off - a.length + new.length by omega]
  unfold overwrite
  rw [htake, hdrop]
  simp only [append_assoc]

theorem take_overwrite_of_le (h : off + new.length ≤ n) (hn : n ≤ b.length) :
    (overwrite off new b).take n = overwrite off new (b.take n) := by
  have hlen : (b.take n).length = n := by rw [length_take, Nat.min_eq_left hn]
  have hmid : overwrite off new ([] ++ b.take n ++ b.drop n) = _ :=
    overwrite_mid (Nat.zero_le off) (by rw [hlen]; omega)
  rw [nil_append, take_append_drop, nil_append] at hmid
  rw [hmid]
  exact take_left' (by rw [overwrite_length (by omega), hlen])

/-- `b` with `size` bytes: cut off, or with zeros behind it. -/
def resized (b : Bytes) (size : Nat) : Bytes := b.take size ++ replicate (size - b.length) 0

theorem resized_length (b : Bytes) (size : Nat) : (resized b size).length = size := by
  unfold resized
  rw [length_append, length_take, length_replicate]
  omega

theorem resized_self (b : Bytes) : resized b b.length = b := by
  unfold resized
  rw [take_length, Nat.sub_self]
  exact append_nil b

/-! ## Fixed-width numbers -/

/-- The number whose bytes are stored least significant first. -/
def leNat : Bytes → Nat
  | [] => 0
  | b :: bs => b.toNat + 256 * leNat bs

/-- The `k` bytes of `n`, least significant first; higher bits are dropped. -/
def leBytes : Nat → Nat → Bytes
  | 0, _ => []
  | k + 1, n => UInt8.ofNat n :: leBytes k (n / 256)

@[simp] theorem leBytes_length (k n : Nat) : (leBytes k n).length = k := by
  induction k generalizing n with
  | zero => rfl
  | succ k ih => rw [leBytes, length_cons, ih]

theorem leNat_leBytes (k n : Nat) : leNat (leBytes k n) = n % 256 ^ k := by
  induction k generalizing n with
  | zero => rw [Nat.pow_zero, Nat.mod_one]; rfl
  | succ k ih =>
    have hlow : (UInt8.ofNat n).toNat = n % 256 := UInt8.toNat_ofNat'
    rw [leBytes, leNat, ih, hlow, Nat.pow_succ, Nat.mul_comm (256 ^ k) 256, Nat.mod_mul]

variable {k y : Nat}

/-- A number that fits its field is read back unchanged. -/
theorem leNat_leBytes_of_lt (h : n < 256 ^ k) : leNat (leBytes k n) = n := by
  rw [leNat_leBytes, Nat.mod_eq_of_lt h]

/-- The bytes of a number read from bytes are these bytes. -/
theorem leBytes_leNat : ∀ (b : Bytes), leBytes b.length (leNat b) = b
  | [] => rfl
  | x :: b => by
    have hx : x.toNat < 256 := x.toNat_lt
    have hdiv : (x.toNat + 256 * leNat b) / 256 = leNat b := by omega
    have hlow : UInt8.ofNat (x.toNat + 256 * leNat b) = x := by
      rw [← UInt8.toNat_inj, UInt8.toNat_ofNat']
      omega
    rw [length_cons, leNat, leBytes, hdiv, hlow, leBytes_leNat b]

theorem leNat_append (a b : Bytes) : leNat (a ++ b) = leNat a + 256 ^ a.length * leNat b := by
  induction a with
  | nil => rw [nil_append, leNat, length_nil, Nat.pow_zero, Nat.one_mul, Nat.zero_add]
  | cons x a ih =>
    rw [cons_append, leNat, leNat, ih, length_cons, Nat.pow_succ, Nat.mul_add, ← Nat.mul_assoc,
      Nat.mul_comm 256 (256 ^ a.length), Nat.add_assoc]

theorem leNat_lt (b : Bytes) : leNat b < 256 ^ b.length := by
  induction b with
  | nil => exact Nat.one_pos
  | cons x b ih =>
    have hx : x.toNat < 256 := x.toNat_lt
    rw [leNat, length_cons]
    omega

/-- A word is all ones exactly when each of its bytes is. -/
theorem leNat_word_ones {a b c d : UInt8} :
    leNat [a, b, c, d] = 0xffffffff ↔ a = 0xff ∧ b = 0xff ∧ c = 0xff ∧ d = 0xff := by
  have ha : a.toNat < 256 := a.toNat_lt
  have hb : b.toNat < 256 := b.toNat_lt
  have hc : c.toNat < 256 := c.toNat_lt
  simp only [leNat, ← UInt8.toNat_inj]
  constructor
  · intro h
    refine ⟨?_, ?_, ?_, ?_⟩
    all_goals
      show _ = 255
      omega
  · rintro ⟨h₁, h₂, h₃, h₄⟩
    rw [h₁, h₂, h₃, h₄]
    rfl

/-- The number whose bytes are stored most significant first. -/
def beNat (b : Bytes) : Nat := leNat b.reverse

/-- The `k` bytes of `n`, most significant first. -/
def beBytes (k n : Nat) : Bytes := (leBytes k n).reverse

@[simp] theorem beBytes_length (k n : Nat) : (beBytes k n).length = k := by
  rw [beBytes, length_reverse, leBytes_length]

/-- The byte order of a machine. -/
inductive Endian where
  | little
  | big
  deriving DecidableEq

/-- A word, from the bytes it has in memory -/
def Endian.load : Endian → Bytes → Nat
  | .little, b => leNat b
  | .big, b => beNat b

theorem beNat_beBytes_of_lt (h : n < 256 ^ k) : beNat (beBytes k n) = n := by
  rw [beNat, beBytes, reverse_reverse, leNat_leBytes_of_lt h]

theorem beNat_lt (b : Bytes) : beNat b < 256 ^ b.length := by
  have := leNat_lt b.reverse
  rwa [length_reverse] at this

/-! ## Rounding up -/

/-- The smallest multiple of `y` that is at least `x`. -/
def roundup (x y : Nat) : Nat := (x + (y - 1)) / y * y

theorem dvd_roundup (x y : Nat) : y ∣ roundup x y := Nat.dvd_mul_left y _

theorem le_roundup (x : Nat) (hy : 0 < y) : x ≤ roundup x y := by
  have hdm := Nat.div_add_mod (x + (y - 1)) y
  have hlt := Nat.mod_lt (x + (y - 1)) hy
  unfold roundup
  rw [Nat.mul_comm]
  omega

theorem roundup_lt (x : Nat) (hy : 0 < y) : roundup x y < x + y := by
  have hdm := Nat.div_add_mod (x + (y - 1)) y
  unfold roundup
  rw [Nat.mul_comm]
  omega

/-! ## C strings -/

/-- The bytes of a string literal, without the terminating NUL. -/
def cstr (s : String) : Bytes := s.toList.map fun c => UInt8.ofNat c.toNat

/-- A C string, without the terminating NUL. -/
abbrev CString := { s : Bytes // (0 : UInt8) ∉ s }

theorem zero_not_mem_takeWhile (b : Bytes) : (0 : UInt8) ∉ b.takeWhile (· ≠ 0) := by
  intro h
  have hp := all_eq_true.mp (all_takeWhile : (b.takeWhile (· ≠ 0)).all _ = true) 0 h
  exact of_decide_eq_true hp rfl

/-- A buffer with a string in it and a NUL behind it is read up to there. -/
theorem takeWhile_terminated {s : Bytes} (h : (0 : UInt8) ∉ s) (r : Bytes) :
    (s ++ 0 :: r).takeWhile (· ≠ 0) = s := by
  rw [takeWhile_append_of_pos]
  · simp
  · intro b hb
    exact decide_eq_true fun h0 => h (h0 ▸ hb)

/-- A string ends at the first NUL, … -/
theorem length_takeWhile_le : ∀ {i : Nat}, b[i]? = some 0 → (b.takeWhile (· ≠ 0)).length ≤ i := by
  induction b with
  | nil => intro i h; cases h
  | cons c b ih =>
    intro i h
    by_cases hc : c = 0
    · rw [takeWhile_cons_of_neg (by simpa using hc)]
      exact Nat.zero_le i
    · rw [takeWhile_cons_of_pos (by simpa using hc)]
      cases i with
      | zero => exact absurd (Option.some.inj h) hc
      | succ i => exact Nat.succ_le_succ (ih h)

/-- … or with the buffer. -/
theorem getElem?_length_takeWhile (h : (b.takeWhile (· ≠ 0)).length < b.length) :
    b[(b.takeWhile (· ≠ 0)).length]? = some 0 := by
  induction b with
  | nil => cases h
  | cons c b ih =>
    by_cases hc : c = 0
    · rw [hc]
      rfl
    · rw [takeWhile_cons_of_pos (by simpa using hc)] at h ⊢
      exact ih (Nat.lt_of_succ_lt_succ h)

end Barebox.Lib
