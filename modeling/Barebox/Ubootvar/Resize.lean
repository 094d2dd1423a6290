import Barebox.Ubootvar.Image

/-!
# Variables that change their size

`ubootvarfs_relocate_tail` moves `data->end - var->start` bytes from behind the
variable. That is as many bytes too many as the value is long: besides the strings
behind the variable and the closing NUL, so much of what follows. The bytes are
rewritten to be of no use, but they have to be inside of the blob, before and after
the move (`Stores.adjust_eq`).
-/

namespace Barebox.Ubootvar

open Lib List

/-- An `int` has the numbers that fit into it. -/
theorem toInt_eq {n : Int} (h : -2 ^ 31 ≤ n ∧ n < 2 ^ 31) : toInt n = n := by
  unfold toInt Int.bmod
  dsimp only
  split
  all_goals omega

/-- A copy inside of the blob. -/
theorem memcpy_eq {dst : Nat} {buf blob : Bytes} (h : dst + buf.length ≤ blob.length) :
    memcpy dst buf blob = some (overwrite dst buf blob) := if_pos h

/-! ## Bytes -/

/-- A write right behind another. -/
theorem memcpy_behind {dst off : Nat} {new buf blob : Bytes} (hoff : off = dst + new.length)
    (h : off + buf.length ≤ blob.length) :
    memcpy off buf (overwrite dst new blob) = some (overwrite dst (new ++ buf) blob) := by
  have hnew : dst + new.length ≤ blob.length := by omega
  rw [hoff, memcpy_eq (by rw [overwrite_length hnew]; omega), overwrite_overwrite hnew]

/-- The move, from behind `a` to `dst`: the strings `b`, their NUL and `k` more bytes. -/
theorem memmove_eq {a b rest : Bytes} {k dst : Nat} {delta : Int} (hk : k ≤ rest.length)
    (hdst : a.length + delta = dst) (hroom : dst + b.length + 1 + k ≤ (a ++ (b ++ 0 :: rest)).length) :
    ∃ rest', memmove a.length delta (b.length + 1 + k) (a ++ (b ++ 0 :: rest))
        = some ((a ++ (b ++ 0 :: rest)).take dst ++ (b ++ 0 :: rest'))
      ∧ dst + b.length + 1 + rest'.length = (a ++ (b ++ 0 :: rest)).length := by
  have hslice : slice a.length (b.length + 1 + k) (a ++ (b ++ 0 :: rest)) = b ++ 0 :: rest.take k := by
    have hcut : a ++ (b ++ 0 :: rest) = a ++ ((b ++ 0 :: rest.take k) ++ rest.drop k) := by simp
    rw [hcut]
    refine slice_mid _ rfl ?_
    simp
    omega
  have hlen : (b ++ 0 :: rest.take k).length = b.length + 1 + k := by
    simp
    omega
  refine ⟨rest.take k ++ (a ++ (b ++ 0 :: rest)).drop (dst + (b.length + 1 + k)), ?_, ?_⟩
  · unfold memmove
    rw [if_pos ⟨by simp; omega, by omega⟩, hdst, hslice, memcpy_eq (by rw [hlen]; omega),
      overwrite, hlen]
    simp
  · simp only [length_append, length_take, length_drop, length_cons] at hroom ⊢
    omega

/-- Zeros from the closing NUL on. -/
theorem memset_eq {a b rest : Bytes} {off n : Nat} (hoff : off = a.length + b.length)
    (hroom : n ≤ rest.length) : ∃ rest', memset off (n + 1) (a ++ (b ++ 0 :: rest)) = some (a ++ (b ++ 0 :: rest'))
      ∧ rest'.length = rest.length := by
  refine ⟨replicate n 0 ++ rest.drop n, ?_, ?_⟩
  · have hcut : a ++ (b ++ 0 :: rest) = (a ++ b) ++ 0 :: rest := by simp
    unfold memset
    rw [memcpy_eq (by simp; omega), hcut, overwrite_append _ _ (by simp [hoff])]
    simp [replicate_succ]
  · simp
    omega

/-! ## Pointers -/

/-- The pointers to a variable behind others. -/
abbrev varOf (pre : Env) (var : CString × Bytes) : Var := varAt (strings pre).length var

section

variable {data : Data} {pre post : Env} {var : CString × Bytes}

theorem head_length (name : CString) :
    (strings pre ++ (name.1 ++ [61])).length = (strings pre).length + name.1.length + 1 := by
  simp
  omega

/-- The blob, cut behind a variable. -/
theorem Stores.cut (h : Stores data (pre ++ var :: post)) :
    ∃ rest, data.blob = (strings pre ++ entry var) ++ (strings post ++ 0 :: rest) := by
  obtain ⟨rest, hblob⟩ := h.blob
  refine ⟨rest, ?_⟩
  rw [hblob]
  simp [image]

/-- The pointers up to a variable, and those behind it. -/
theorem layout_behind : ((layout 0 (pre ++ var :: post)).take (pre.length + 1)) = layout 0 (pre ++ [var])
    ∧ (layout 0 (pre ++ var :: post)).drop (pre.length + 1)
      = layout ((strings pre).length + (entry var).length) post := by
  have hcut : layout 0 (pre ++ var :: post)
      = layout 0 (pre ++ [var]) ++ layout ((strings pre).length + (entry var).length) post := by
    have happend := layout_append (pre ++ [var]) post 0
    simpa using happend
  have hlen : (layout 0 (pre ++ [var])).length = pre.length + 1 := by simp
  rw [hcut]
  exact ⟨take_left' hlen, drop_left' hlen⟩

/-- The NUL of a variable is the last byte of its string. -/
theorem varOf_end : (varOf pre var).end_ + 1 = (strings pre ++ entry var).length := by
  simp [varAt]
  omega

variable (h : Stores data (pre ++ var :: post))
include h

/-- The bytes that are moved. -/
theorem Stores.tail_length :
    data.end_ - (varOf pre var).start = (strings post).length + 1 + var.2.length := by
  have hend := h.end_
  simp only [strings_append, strings_cons, length_append, entry_length] at hend
  unfold varOf varAt
  dsimp only
  omega

variable {delta : Int}

/-- The tail is moved, with as many bytes behind it as the value has. -/
theorem Stores.adjust_eq {dst : Nat}
    (hdst : (strings pre ++ entry var).length + delta = dst)
    (hroom : (image (pre ++ var :: post)).length + var.2.length ≤ data.blob.length)
    (hroom' : (image (pre ++ var :: post)).length + var.2.length + delta ≤ data.blob.length)
    (hsmall : -2 ^ 31 < delta) : ∃ rest, adjust data pre.length (varOf pre var) delta
        = some ⟨data.blob.take dst ++ (strings post ++ 0 :: rest),
            layout 0 (pre ++ [var]) ++ layout dst post, dst + (strings post).length⟩
      ∧ dst + (strings post).length + 1 + rest.length = data.blob.length := by
  obtain ⟨rest, hblob⟩ := h.cut
  have hend := h.end_
  have hlens : data.blob.length = (strings pre ++ entry var).length + (strings post).length + 1 + rest.length := by
    rw [hblob]
    simp
    omega
  rw [image_length] at hroom hroom'
  simp only [strings_append, strings_cons, length_append, entry_length] at hend hroom hroom' hlens hdst
  have hmoved : moved data.end_ delta = dst + (strings post).length := by
    unfold moved
    omega
  obtain ⟨rest₁, hmove, hrest₁⟩ := @memmove_eq (strings pre ++ entry var) (strings post) rest var.2.length dst delta
    (by omega) (by simpa using hdst) (by rw [← hblob]; omega)
  rw [← hblob] at hmove hrest₁
  -- the zeros behind the end, if there are any
  have hset : ∃ rest₂, clearTail (moved data.end_ delta) delta (data.blob.take dst ++ (strings post ++ 0 :: rest₁))
      = some (data.blob.take dst ++ (strings post ++ 0 :: rest₂)) ∧ rest₂.length = rest₁.length := by
    unfold clearTail
    split
    next hneg =>
      have hcount : (toInt (-delta) % 2 ^ 64).toNat = (-delta - 1).toNat + 1 := by
        rw [toInt_eq (by omega)]
        omega
      rw [hcount]
      refine memset_eq ?_ (by omega)
      rw [length_take]
      omega
    next => exact ⟨rest₁, rfl, rfl⟩
  obtain ⟨rest₂, hset, hrest₂⟩ := hset
  refine ⟨rest₂, ?_, by omega⟩
  have hbehind := @layout_behind pre post var
  have hshift := @layout_moved post ((strings pre).length + (entry var).length) delta (by rw [entry_length]; omega)
  have hto : moved ((strings pre).length + (entry var).length) delta = dst := by
    unfold moved
    rw [entry_length]
    omega
  unfold adjust relocateTail
  simp only [varOf_end, h.tail_length, hmove, hset, Option.bind_eq_bind, Option.bind_some, Option.pure_def]
  rw [h.vars, hbehind.1, hbehind.2, hshift, hto, hmoved]

/-! ## A new size -/

omit h in
/-- The value with its new size, and its NUL: bytes of the old value, zeros, and a zero. -/
theorem overwrite_value {value x : Bytes} {size : Nat} (hlen : x.length = size + 1)
    (hx : x.take (min value.length size) = value.take size) :
    overwrite (min value.length size) (replicate (size - value.length) 0 ++ [0]) x
      = resized value size ++ [0] := by
  unfold overwrite resized
  rw [hx, drop_eq_nil_of_le (by simp; omega)]
  simp

omit h in
/-- Both writes into the value are one. -/
theorem fillValue_eq {head x tail : Bytes} {len size : Nat} (hx : x.length = size + 1) :
    (fillValue (head.length + len) ((size : Int) - len) (head ++ x ++ tail)).bind
        (memcpy (moved (head.length + len) ((size : Int) - len)) [0])
      = some (head ++ overwrite (min len size) (replicate (size - len) 0 ++ [0]) x ++ tail) := by
  have hmoved : moved (head.length + len) ((size : Int) - len) = head.length + size := by
    unfold moved
    omega
  have hlen : (head ++ x ++ tail).length = head.length + size + 1 + tail.length := by
    simp [hx]
    omega
  unfold fillValue
  rw [hmoved]
  split
  next hgrow =>
    -- zeros, and one more behind them
    have hzeros : ((size : Int) - len).toNat = size - len := by omega
    have hfill : (replicate (size - len) (0 : UInt8)).length = size - len := length_replicate
    have hin : head.length + len + (replicate (size - len) (0 : UInt8)).length ≤ (head ++ x ++ tail).length := by
      omega
    have hat : head.length + size = head.length + len + (replicate (size - len) (0 : UInt8)).length := by omega
    have hmin : head.length + len - head.length = min len size := by omega
    unfold memset
    rw [hzeros, memcpy_eq hin, Option.bind_some, memcpy_eq (by rw [overwrite_length hin]; simp only [length_singleton]; omega), hat,
      overwrite_overwrite hin, overwrite_mid (Nat.le_add_right _ _) (by simp [hx]; omega), hmin]
  next hshrink =>
  have hnil : size - len = 0 := by omega
  have hmin : head.length + size - head.length = min len size := by omega
  rw [Option.bind_some, memcpy_eq (by simp only [length_singleton]; omega),
    overwrite_mid (Nat.le_add_right _ _) (by simp only [length_singleton]; omega), hmin, hnil]
  rfl

/-- A value gets its new size, and what is behind it moves. -/
theorem Stores.truncate_eq {size : Nat} (hne : size ≠ var.2.length)
    (hsmall : -2 ^ 31 < (size : Int) - var.2.length ∧ (size : Int) - var.2.length < 2 ^ 31)
    (hroom : (image (pre ++ var :: post)).length + max var.2.length size ≤ data.blob.length) :
    ∃ data', truncate data pre.length (varOf pre var) size = some (data', .ok ())
      ∧ Stores data' (pre ++ (var.1, resized var.2 size) :: post) ∧ data'.blob.length = data.blob.length := by
  obtain ⟨name, value⟩ := var
  dsimp only at hne hsmall hroom
  have hdelta : toInt ((size : Int) - (varOf pre (name, value)).iSize) = (size : Int) - value.length :=
    toInt_eq (by simp only [varAt]; omega)
  obtain ⟨rest, hadjust, hlen⟩ := @Stores.adjust_eq data pre post (name, value) h ((size : Int) - value.length)
    ((strings pre).length + name.1.length + 1 + (size + 1))
    (by simp only [length_append, entry_length]; omega) (by dsimp only; omega) (by dsimp only; omega) hsmall.1
  obtain ⟨rest₀, hblob⟩ := h.cut
  have hend := h.end_
  rw [image_length] at hroom
  -- the bytes before the value, and as many as it needs from there
  have hcut : ∃ x, data.blob.take ((strings pre).length + name.1.length + 1 + (size + 1))
        = (strings pre ++ (name.1 ++ [61])) ++ x ∧ x.length = size + 1
        ∧ x.take (min value.length size) = value.take size := by
    have hb : data.blob = (strings pre ++ (name.1 ++ [61])) ++ (value ++ 0 :: (strings post ++ 0 :: rest₀)) := by
      rw [hblob]
      simp [entry]
    have hlen₀ : data.blob.length = (strings pre).length + name.1.length + 1
        + (value ++ 0 :: (strings post ++ 0 :: rest₀)).length := by
      rw [hb, length_append, head_length]
    refine ⟨(value ++ 0 :: (strings post ++ 0 :: rest₀)).take (size + 1), ?_, ?_, ?_⟩
    · rw [hb, ← head_length, take_length_add_append]
    · rw [length_take]
      omega
    · rw [take_take, take_append_of_le_length (by omega), Nat.min_eq_left (by omega)]
      rw [Nat.min_comm, ← take_take, take_length]
  obtain ⟨x, htake, hx, hxvalue⟩ := hcut
  have hfill := @fillValue_eq (strings pre ++ (name.1 ++ [61])) x (strings post ++ 0 :: rest) value.length size hx
  have hvar : (varOf pre (name, value)).end_ = (strings pre).length + name.1.length + 1 + value.length :=
    rfl
  rw [overwrite_value hx hxvalue, head_length, ← htake, ← hvar] at hfill
  have hvars : (layout 0 (pre ++ [(name, value)])
        ++ layout ((strings pre).length + name.1.length + 1 + (size + 1)) post).set pre.length
        { varOf pre (name, value) with
          end_ := (strings pre).length + name.1.length + 1 + size, iSize := size }
      = layout 0 (pre ++ (name, resized value size) :: post) := by
    rw [layout_append, layout_append]
    simp [layout, varAt, resized_length, Nat.add_assoc, Nat.add_left_comm]
  have hmoved : moved (varOf pre (name, value)).end_ ((size : Int) - value.length)
      = (strings pre).length + name.1.length + 1 + size := by
    unfold moved
    omega
  have hblob' : (strings pre ++ (name.1 ++ [61])) ++ (resized value size ++ [0]) ++ (strings post ++ 0 :: rest)
      = image (pre ++ (name, resized value size) :: post) ++ rest := by
    simp [image, entry]
  refine ⟨⟨image (pre ++ (name, resized value size) :: post) ++ rest,
    layout 0 (pre ++ (name, resized value size) :: post),
    (strings pre).length + name.1.length + 1 + (size + 1) + (strings post).length⟩, ?_, ⟨⟨rest, rfl⟩, rfl, ?_, ?_⟩, ?_⟩
  · unfold truncate
    rw [hdelta, if_neg (show ¬ size = (varOf pre (name, value)).iSize from hne), if_neg (by omega), hadjust]
    simp only [Option.bind_eq_bind, Option.bind_some, Option.pure_def]
    rw [hmoved] at hfill ⊢
    rw [← Option.bind_assoc, hfill, Option.bind_some, hvars, hblob']
  · simp [resized_length]
    omega
  · have := h.lt
    rw [length_append, image_length]
    simp [resized_length]
    omega
  · rw [length_append, image_length]
    simp [resized_length]
    omega

/-! ## Writes inside of a value, and new variables -/

/-- Bytes are written inside of a value. -/
theorem Stores.io_eq {pos count : Nat} {buf : Bytes} (hcount : count ≤ buf.length) (hin : pos + count ≤ var.2.length) :
    ∃ data', io data (varOf pre var) pos buf count = some (data', .ok count)
      ∧ Stores data' (pre ++ (var.1, overwrite pos (buf.take count) var.2) :: post)
      ∧ data'.blob.length = data.blob.length := by
  obtain ⟨name, value⟩ := var
  dsimp only at hin
  obtain ⟨rest, hblob⟩ := h.cut
  have hlen : (buf.take count).length = count := length_take_of_le (by omega)
  have hover : (overwrite pos (buf.take count) value).length = value.length := overwrite_length (by omega)
  have hb : data.blob = (strings pre ++ (name.1 ++ [61])) ++ value ++ (0 :: (strings post ++ 0 :: rest)) := by
    rw [hblob]
    simp [entry]
  have hroom : (strings pre).length + name.1.length + 1 + pos + (buf.take count).length ≤ data.blob.length := by
    rw [hb, append_assoc, length_append, head_length, length_append]
    omega
  have hover' : overwrite ((strings pre).length + name.1.length + 1 + pos) (buf.take count) data.blob
      = image (pre ++ (name, overwrite pos (buf.take count) value) :: post) ++ rest := by
    rw [hb, overwrite_mid (by rw [head_length]; omega) (by rw [head_length]; omega), head_length]
    simp [image, entry]
  refine ⟨⟨image (pre ++ (name, overwrite pos (buf.take count) value) :: post) ++ rest, data.vars, data.end_⟩,
    ?_, ⟨⟨rest, rfl⟩, ?_, ?_, ?_⟩, ?_⟩
  · unfold io
    rw [if_neg (by omega), show (varOf pre (name, value)).start
      = (strings pre).length + name.1.length + 1 from rfl, memcpy_eq hroom, hover']
    rfl
  · rw [h.vars, layout_append, layout_append]
    simp [layout, varAt, hover]
  · rw [h.end_]
    simp [hover]
  · rw [← hover', overwrite_length hroom]
    exact h.lt
  · rw [← hover', overwrite_length hroom]

omit h in
/-- A new variable is put behind the others. -/
theorem Stores.create_eq {env : Env} {name : CString} (h : Stores data env)
    (hroom : (image (env ++ [(name, [])])).length ≤ data.blob.length) :
    ∃ data', create data name.1 = some (data', .ok ()) ∧ Stores data' (env ++ [(name, [])])
      ∧ data'.blob.length = data.blob.length := by
  obtain ⟨rest, hblob⟩ := h.blob
  have hend := h.end_
  have hb : data.blob = strings env ++ 0 :: rest := by
    rw [hblob]
    simp [image]
  rw [image_length] at hroom
  simp only [strings_append, strings_cons, strings_nil, append_nil, length_append, entry_length,
    length_nil] at hroom
  -- the four writes are one, from the end on
  have hover : ∀ new : Bytes, data.end_ + new.length ≤ data.blob.length →
      (overwrite data.end_ new data.blob).length = data.blob.length := fun new hnew => overwrite_length hnew
  have hall : overwrite data.end_ (name.1 ++ [61] ++ [0] ++ [0]) data.blob
      = image (env ++ [(name, [])]) ++ rest.drop (name.1.length + 2) := by
    rw [hb, overwrite_append _ _ hend.symm]
    simp [image, entry]
  refine ⟨⟨image (env ++ [(name, [])]) ++ rest.drop (name.1.length + 2), layout 0 (env ++ [(name, [])]),
    data.end_ + name.1.length + 1 + 1⟩, ?_, ⟨⟨_, rfl⟩, rfl, ?_, ?_⟩, ?_⟩
  · unfold create
    rw [if_neg (by omega)]
    simp only [memcpy_eq (show data.end_ + name.1.length ≤ data.blob.length by omega), Option.bind_eq_bind,
      Option.bind_some]
    rw [memcpy_behind rfl (by simp only [length_singleton]; omega), Option.bind_some,
      memcpy_behind (by simp only [length_append, length_singleton]; omega)
        (by simp only [length_singleton]; omega), Option.bind_some,
      memcpy_behind (by simp only [length_append, length_singleton]; omega)
        (by simp only [length_singleton]; omega), hall, h.vars, layout_append]
    simp [layout, varAt, hend]
  · simp
    omega
  · have := h.lt
    rw [← hall, hover _ (by simp; omega)]
    exact this
  · rw [← hall, hover _ (by simp; omega)]

end

end Barebox.Ubootvar
