import Barebox.Of.Walk

/-!
# What unflattening reads — `drivers/of/fdt.c`

`__of_unflatten_dtb` is given a buffer and its size, and takes offsets and
lengths from the buffer. Which of them are checked, and against what, is not
the same everywhere: the map of reserved memory is not checked at all, names
and strings are looked up in blocks that may lie outside, a value is copied
before its end is compared with the end of the block, and a property in
front of the root node is attached to nothing.

`UnflattenInside` says what a buffer has to be like. It is put in terms of
the walk over the tags alone: where a tag stands, how deep the nodes are
nested there, and where that leads (`nextTag`).
`unflatten_returns_iff` is that nothing less will do, and nothing more is
needed.
-/

namespace Barebox.Of

open Lib List

/-- `__of_unflatten_dtb` comes to an end on the buffer, and reads nothing
outside. -/
def Returns (constprops : Bool) (mem : Bytes) : Prop :=
  ∃ turns, ofUnflattenFor turns constprops mem mem.length ≠ .error .EFAULT

/-! ## Places -/

/-- The nodes that are open. -/
def Cursor.depth : Cursor → Nat
  | .outside _ => 0
  | .inside _ parents => parents.length + 1

/-- A tag, by its offset, and the nodes that are open there. -/
structure Place where
  dt : Nat
  depth : Nat

def Unflatten.place (s : Unflatten) : Place := ⟨s.dt, s.node.depth⟩

def advancePlace (f : FdtHeader) (dt size depth : Nat) : Option Place :=
  match dtStructAdvance f dt size with
  | 0 => none
  | next => some ⟨next, depth⟩

/-- Behind the name of a node: the root has an empty name, and nothing
else. -/
def nextBegin (mem : Bytes) (f : FdtHeader) (dt depth : Nat) : Option Place :=
  match nameLen mem f (dt + 4) with
  | none => none
  | some len =>
    if len > f.maxlen (dt + 4) then none
    else if (depth = 0 ↔ mem[dt + 4]? = some 0) then advancePlace f dt (4 + len + 1) (depth + 1)
    else none

/-- Behind a property. -/
def nextProp (mem : Bytes) (f : FdtHeader) (dt depth : Nat) : Option Place :=
  match be32At mem (dt + 4), be32At mem (dt + 8) with
  | some len, some nameoff =>
    if nameoff > f.sizeDtStrings then none else advancePlace f dt (12 + len) depth
  | _, _ => none

/-- The next tag; there is none behind `FDT_END` and behind anything that is
an error. -/
def nextTag (mem : Bytes) (f : FdtHeader) (p : Place) : Option Place :=
  match tagAt mem p.dt with
  | some .beginNode => nextBegin mem f p.dt p.depth
  | some .endNode => if p.depth = 0 then none else advancePlace f p.dt 4 (p.depth - 1)
  | some .prop => nextProp mem f p.dt p.depth
  | some .nop => advancePlace f p.dt 4 p.depth
  | some .stop => none
  | none => none

/-! ## What is read at a tag -/

/-- A NUL stands somewhere behind `off`. -/
def Terminated (mem : Bytes) (off : Nat) : Prop := ∃ i, mem[off + i]? = some 0

/-- The name of a node. `maxlen + 1` bytes are searched for its end; if that
is zero, which it is for a name that begins one byte behind the block, the
name is taken all the same. -/
def NameInside (mem : Bytes) (f : FdtHeader) (name depth : Nat) : Prop :=
  let n := (f.maxlen name + 1) % 2 ^ 32
  if n ≠ 0 then (∃ i, i < n ∧ mem[name + i]? = some 0) ∨ name + n ≤ mem.length
  else if depth = 0 then name < mem.length
  else Terminated mem name

/-- The value of a property, of `len` bytes. A value that is not copied is
looked at only if it is a phandle. -/
def ValueInside (mem : Bytes) (constprops : Bool) (data len : Nat) (name : Bytes) : Prop :=
  if constprops then name = cstr "phandle" → len = 4 → data + 4 ≤ mem.length
  else len < 2 ^ 31 ∧ data + len ≤ mem.length

/-- A property: its header, its name, the node it goes to, and its value. -/
def PropInside (mem : Bytes) (constprops : Bool) (f : FdtHeader) (p : Place) : Prop :=
  p.dt + 12 ≤ mem.length ∧
    ∀ len nameoff, be32At mem (p.dt + 4) = some len → be32At mem (p.dt + 8) = some nameoff →
      nameoff ≤ f.sizeDtStrings →
        Terminated mem (f.offDtStrings + nameoff) ∧ 0 < p.depth ∧
          ∀ name, cstringAt mem (f.offDtStrings + nameoff) = some name →
            ValueInside mem constprops (p.dt + 12) len name

def TagInside (mem : Bytes) (constprops : Bool) (f : FdtHeader) (p : Place) : Prop :=
  p.dt + 4 ≤ mem.length ∧
    (tagAt mem p.dt = some .beginNode → NameInside mem f (p.dt + 4) p.depth) ∧
    (tagAt mem p.dt = some .prop → PropInside mem constprops f p)

/-! ## The buffer -/

/-- A header that is accepted. -/
structure HeaderOk (mem : Bytes) (f : FdtHeader) : Prop where
  size : sizeofFdtHeader ≤ mem.length
  magic : be32At mem 0 = some fdtMagic
  version : be32At mem 20 = some 17
  header : fdtHeader mem = some f
  totalsize : f.totalsize ≤ mem.length
  structEnd : f.structEnd ≤ f.totalsize
  strings : (f.offDtStrings + f.sizeDtStrings) % 2 ^ 32 ≤ f.totalsize

/-- Entry `n` of the map of reserved memory is the last one. -/
def ReserveEndsAt (mem : Bytes) (n : Nat) : Prop :=
  ∃ off, be32At mem 16 = some off ∧ off + 16 * (n + 1) ≤ mem.length ∧
    beNat (slice (off + 16 * n + 8) 8 mem) = 0

/-- All the entries that are looked at can be. -/
def ReserveFull (mem : Bytes) : Prop :=
  ∃ off, be32At mem 16 = some off ∧ off + 16 * ofMaxReserveMap ≤ mem.length

/-- Every tag the walk comes to lies inside with all that belongs to it, and
the walk has an end. -/
def WalkInside (mem : Bytes) (constprops : Bool) (f : FdtHeader) : Prop :=
  (∀ k p, walk (nextTag mem f) k ⟨f.offDtStruct, 0⟩ = some p → TagInside mem constprops f p) ∧
    ∃ k, walk (nextTag mem f) k ⟨f.offDtStruct, 0⟩ = none

/-- What a buffer has to be like, unless its header is refused. -/
def UnflattenInside (constprops : Bool) (mem : Bytes) : Prop :=
  ∀ f, HeaderOk mem f →
    ((∃ n < ofMaxReserveMap, ReserveEndsAt mem n) ∧ WalkInside mem constprops f) ∨
      ((¬ ∃ n < ofMaxReserveMap, ReserveEndsAt mem n) ∧ ReserveFull mem)

/-! ## Reading memory -/

variable {mem : Bytes} {off : Nat}

theorem be32At_isSome (h : off + 4 ≤ mem.length) : ∃ n, be32At mem off = some n := ⟨_, if_pos h⟩

theorem be32At_none (h : ¬ off + 4 ≤ mem.length) : be32At mem off = none := if_neg h

/-- A string can be read just if its zero is inside. -/
theorem cstringAt_isSome_iff : (∃ s, cstringAt mem off = some s) ↔ Terminated mem off := by
  unfold cstringAt
  dsimp only
  constructor
  · intro ⟨s, hs⟩
    split at hs
    · next hlt =>
      refine ⟨((mem.drop off).takeWhile (· ≠ 0)).length, ?_⟩
      rw [← getElem?_drop]
      refine getElem?_length_takeWhile ?_
      rw [length_drop]
      omega
    · cases hs
  · intro ⟨i, hi⟩
    have hlt := (List.getElem?_eq_some_iff.mp hi).1
    rw [← getElem?_drop] at hi
    have hle := length_takeWhile_le hi
    exact ⟨_, if_pos (by omega)⟩

theorem cstringAt_eq_nil (h : cstringAt mem off = some []) : mem[off]? = some 0 := by
  unfold cstringAt at h
  dsimp only at h
  split at h
  · next hlt =>
    have hnil := Option.some.inj h
    have hnul := getElem?_length_takeWhile (by
      rw [hnil, length_drop, length_nil]
      omega)
    rw [hnil, getElem?_drop] at hnul
    exact hnul
  · cases h

variable {len : Nat} {s : Unflatten}

/-- `strnlen` stops at a NUL. -/
theorem strnlenAt_terminated {n : Nat} (h : strnlenAt mem off n = some len)
    (hlt : len < n) : mem[off + len]? = some 0 := by
  unfold strnlenAt at h
  dsimp only at h
  split at h
  · cases h
  next hread =>
  cases h
  have hlen : ((mem.drop off).take n).length = min n (mem.length - off) := by
    rw [length_take, length_drop]
  have hnul := getElem?_length_takeWhile (b := (mem.drop off).take n) (by omega)
  rw [getElem?_take_of_lt hlt, getElem?_drop] at hnul
  exact hnul

/-- `strnlen` finds the end of the string, or does not look further. -/
theorem strnlenAt_isSome_iff {n : Nat} (hn : n ≠ 0) : (∃ len, strnlenAt mem off n = some len) ↔
      (∃ i, i < n ∧ mem[off + i]? = some 0) ∨ off + n ≤ mem.length := by
  have hle : (((mem.drop off).take n).takeWhile (· ≠ 0)).length ≤ min n (mem.length - off) := by
    rw [← length_drop, ← length_take]
    exact (List.takeWhile_prefix _).length_le
  constructor
  · intro ⟨len, hlen⟩
    by_cases hlt : len < n
    · exact .inl ⟨len, hlt, strnlenAt_terminated hlen hlt⟩
    unfold strnlenAt at hlen
    dsimp only at hlen
    split at hlen
    · cases hlen
    · cases hlen
      exact .inr (by omega)
  · intro h
    refine ⟨_, if_neg fun hboth => ?_⟩
    rcases h with ⟨i, hi, hnul⟩ | hfit
    · have hin := (List.getElem?_eq_some_iff.mp hnul).1
      rw [← getElem?_drop, ← getElem?_take_of_lt hi] at hnul
      have hstop := length_takeWhile_le hnul
      omega
    · omega

theorem strnlenAt_zero : strnlenAt mem off 0 = some 0 := rfl

theorem maxlen_lt (f : FdtHeader) (name : Nat) : f.maxlen name < 2 ^ 32 := by
  unfold FdtHeader.maxlen
  omega

/-! ## The map of reserved memory -/

variable {mem : Bytes} {off : Nat}

/-- The count ends at the entry of size zero, … -/
theorem reservemapNumEntries_ok : ∀ {k n : Nat},
    (∃ j, (n ≤ j ∧ j < n + k) ∧ off + 16 * (j + 1) ≤ mem.length ∧
      beNat (slice (off + 16 * j + 8) 8 mem) = 0) →
    ∃ m < n + k, reservemapNumEntries mem off k n = .ok m
  | 0, n, ⟨j, hj, _⟩ => absurd hj (by omega)
  | k + 1, n, ⟨j, hj, hin, hzero⟩ => by
    unfold reservemapNumEntries
    rw [if_pos (by omega)]
    split
    · exact ⟨n, by omega, rfl⟩
    next hsize =>
    have hne : n ≠ j := fun h => hsize (h ▸ hzero)
    obtain ⟨m, hlt, hm⟩ := reservemapNumEntries_ok (k := k) (n := n + 1)
      ⟨j, by omega, hin, hzero⟩
    exact ⟨m, by omega, hm⟩

/-- … and without one it ends with an error, or outside of the buffer. -/
theorem reservemapNumEntries_error : ∀ {k n : Nat},
    (¬ ∃ j, (n ≤ j ∧ j < n + k) ∧ off + 16 * (j + 1) ≤ mem.length ∧
      beNat (slice (off + 16 * j + 8) 8 mem) = 0) → reservemapNumEntries mem off k n
      = .error (if k = 0 ∨ off + 16 * (n + k) ≤ mem.length then .EINVAL else .EFAULT)
  | 0, n, _ => by rw [if_pos (.inl rfl)]; rfl
  | k + 1, n, hnone => by
    unfold reservemapNumEntries
    by_cases hin : off + 16 * n + 16 ≤ mem.length
    · have hsize : beNat (slice (off + 16 * n + 8) 8 mem) ≠ 0 := fun hzero =>
        hnone ⟨n, by omega, by omega, hzero⟩
      rw [if_pos hin, if_neg hsize, reservemapNumEntries_error
        fun ⟨j, hj, hrest⟩ => hnone ⟨j, by omega, hrest⟩]
      refine congrArg Except.error ?_
      by_cases hk : k = 0
      · rw [if_pos (.inl hk), if_pos (.inr (by omega))]
      · by_cases hfit : off + 16 * (n + 1 + k) ≤ mem.length
        · rw [if_pos (.inr hfit), if_pos (.inr (by omega))]
        · rw [if_neg (by omega), if_neg (by omega)]
    · rw [if_neg hin, if_neg (by omega)]

/-- The map is read without leaving the buffer. -/
theorem ofUnflattenReservemap_cases (root : Node) (hoff : be32At mem 16 = some off) :
    ((∃ n < ofMaxReserveMap, ReserveEndsAt mem n) ∧
        ∃ root', ofUnflattenReservemap root mem = .ok root') ∨
      ((¬ ∃ n < ofMaxReserveMap, ReserveEndsAt mem n) ∧
        ∃ e, ofUnflattenReservemap root mem = .error e ∧ (e ≠ .EFAULT ↔ ReserveFull mem)) := by
  have hends : (∃ n < ofMaxReserveMap, ReserveEndsAt mem n) ↔
      ∃ j, (0 ≤ j ∧ j < 0 + ofMaxReserveMap) ∧ off + 16 * (j + 1) ≤ mem.length ∧
        beNat (slice (off + 16 * j + 8) 8 mem) = 0 := by
    constructor
    · intro ⟨n, hn, off', hoff', hin⟩
      cases hoff.symm.trans hoff'
      exact ⟨n, by omega, hin⟩
    · intro ⟨j, hj, hin⟩
      exact ⟨j, by omega, off, hoff, hin⟩
  unfold ofUnflattenReservemap
  rw [hoff]
  dsimp only
  by_cases h : ∃ n < ofMaxReserveMap, ReserveEndsAt mem n
  · refine .inl ⟨h, ?_⟩
    obtain ⟨m, -, hm⟩ := reservemapNumEntries_ok (hends.mp h)
    rw [hm]
    cases m with
    | zero => exact ⟨_, rfl⟩
    | succ m => exact ⟨_, rfl⟩
  · refine .inr ⟨h, ?_⟩
    rw [reservemapNumEntries_error (mt hends.mpr h)]
    refine ⟨_, rfl, ?_⟩
    have hfull : ReserveFull mem ↔ off + 16 * (0 + ofMaxReserveMap) ≤ mem.length := by
      constructor
      · intro ⟨off', hoff', hin⟩
        cases hoff.symm.trans hoff'
        omega
      · intro hin
        exact ⟨off, hoff, by omega⟩
    -- no end among the entries: refused if they are all there, a fault if not
    rw [hfull]
    by_cases hfit : off + 16 * (0 + ofMaxReserveMap) ≤ mem.length
    · rw [if_pos (.inr hfit)]
      exact ⟨fun _ => hfit, fun _ => by decide⟩
    · rw [if_neg fun h => h.elim (by decide) hfit]
      exact ⟨fun h => absurd rfl h, fun h => absurd h hfit⟩

/-! ## One turn -/

variable {constprops : Bool} {f : FdtHeader}

/-- The length of the name can be found, and a name that fits the block can
be looked at. -/
theorem nameInside_iff {name depth : Nat} : NameInside mem f name depth ↔
    ∃ len, nameLen mem f name = some len ∧
      (len ≤ f.maxlen name → if depth = 0 then name < mem.length else Terminated mem name) := by
  unfold NameInside nameLen
  dsimp only
  split
  · next hn =>
    rw [← strnlenAt_isSome_iff hn]
    refine exists_congr fun len => (and_iff_left_of_imp fun hlen hle => ?_).symm
    have hmax := maxlen_lt f name
    have hnul := strnlenAt_terminated hlen (by omega)
    split
    · have hin := (List.getElem?_eq_some_iff.mp hnul).1
      omega
    · exact ⟨len, hnul⟩
  · next hn =>
    rw [Decidable.not_not.mp hn]
    refine ⟨fun h => ⟨0, rfl, fun _ => h⟩, ?_⟩
    rintro ⟨len, hlen, h⟩
    cases hlen
    exact h (Nat.zero_le _)

/-- A turn goes on at the next place, or comes to an end. -/
def Goes (t : UnflattenTurn) : Option Place → Prop
  | some p => ∃ s, t = .next s ∧ s.place = p
  | none => (∃ root, t = .done root) ∨ ∃ e, e ≠ .EFAULT ∧ t = .fail e

theorem goes_fail {e : Errno} (h : e ≠ .EFAULT) : Goes (.fail e) none := .inr ⟨e, h, rfl⟩

theorem unflattenAdvance_goes (dt size : Nat) (node : Cursor) :
    Goes (unflattenAdvance f dt size node) (advancePlace f dt size node.depth) := by
  unfold unflattenAdvance advancePlace
  cases dtStructAdvance f dt size with
  | zero => exact .inr ⟨.ESPIPE, by decide, rfl⟩
  | succ next => exact ⟨_, rfl, rfl⟩

/-- A turn goes on like this, or faults, depending on where it reads. -/
structure GoesInside (t : UnflattenTurn) (inside : Prop) (next : Option Place) : Prop where
  goes : inside → Goes t next
  fault : ¬ inside → t = .fail .EFAULT

section

variable {t : UnflattenTurn} {inside inside' : Prop} {next : Option Place}

theorem GoesInside.of_goes (hin : inside) (h : Goes t next) : GoesInside t inside next :=
  ⟨fun _ => h, fun hout => absurd hin hout⟩

theorem GoesInside.of_fault (hout : ¬ inside) : GoesInside (.fail .EFAULT) inside next :=
  ⟨fun hin => absurd hin hout, fun _ => rfl⟩

theorem GoesInside.congr (h : GoesInside t inside next) (hiff : inside' ↔ inside) : GoesInside t inside' next :=
  ⟨fun hin => h.goes (hiff.mp hin), fun hout => h.fault (mt hiff.mpr hout)⟩

end

/-- Opening a node reads its name. -/
theorem unflattenBegin_goesInside (s : Unflatten) : GoesInside (unflattenBegin mem f s)
    (NameInside mem f (s.dt + 4) s.node.depth) (nextBegin mem f s.dt s.node.depth) := by
  rw [nameInside_iff]
  unfold unflattenBegin nextBegin
  cases nameLen mem f (s.dt + 4) with
  | none => exact .of_fault fun ⟨_, h, _⟩ => nomatch h
  | some len =>
    simp only [Option.some.injEq, exists_eq_left']
    by_cases hle : len > f.maxlen (s.dt + 4)
    · rw [if_pos hle, if_pos hle]
      exact .of_goes (fun h => absurd h (Nat.not_le_of_lt hle)) (goes_fail (by decide))
    rw [if_neg hle, if_neg hle, forall_prop_of_true (Nat.le_of_not_lt hle)]
    cases s.node with
    | outside root =>
      show GoesInside _ (s.dt + 4 < mem.length) _
      -- the name of the root has to be empty
      cases hc : mem[s.dt + 4]? with
      | none => exact .of_fault (Nat.not_lt_of_le (getElem?_eq_none_iff.mp hc))
      | some c =>
        have hin := (List.getElem?_eq_some_iff.mp hc).1
        dsimp only
        by_cases hzero : c = 0
        · rw [if_neg (not_not_intro hzero), if_pos (by rw [hzero]; exact ⟨fun _ => rfl, fun _ => rfl⟩)]
          exact .of_goes hin (unflattenAdvance_goes ..)
        · rw [if_pos hzero, if_neg fun hiff => hzero (Option.some.inj (hiff.mp rfl))]
          exact .of_goes hin (goes_fail (by decide))
    | inside node parents =>
      show GoesInside _ (Terminated mem (s.dt + 4)) _
      -- that of any other node must not be
      have hterm := @cstringAt_isSome_iff mem (s.dt + 4)
      cases hname : cstringAt mem (s.dt + 4) with
      | none => exact .of_fault fun h => nomatch (hterm.mpr h).choose_spec.symm.trans hname
      | some name =>
        have hempty : name = [] ↔ mem[s.dt + 4]? = some 0 := by
          refine ⟨fun hnil => ?_, fun hc => Option.some.inj (hname.symm.trans (cstringAt_nil hc))⟩
          rw [hnil] at hname
          exact cstringAt_eq_nil hname
        have hin := hterm.mp ⟨name, hname⟩
        dsimp only
        split
        next hnil =>
          rw [if_neg fun hiff => absurd (hiff.mpr (hempty.mp hnil)) (Nat.succ_ne_zero _)]
          exact .of_goes hin (goes_fail (by decide))
        next hnil =>
        rw [if_pos ⟨fun h0 => absurd h0 (Nat.succ_ne_zero _), fun hc => absurd (hempty.mpr hc) hnil⟩]
        exact .of_goes hin (unflattenAdvance_goes ..)

/-- Closing one reads nothing, … -/
theorem unflattenEnd_goes (s : Unflatten) : Goes (unflattenEnd f s) (if s.node.depth = 0 then none
      else advancePlace f s.dt 4 (s.node.depth - 1)) := by
  unfold unflattenEnd
  cases s.node with
  | outside root => exact goes_fail (by decide)
  | inside node parents =>
    cases parents with
    | nil => exact unflattenAdvance_goes ..
    | cons parent parents => exact unflattenAdvance_goes ..

/-- … and a property its value, unless that is only pointed to. -/
theorem newProperty_isSome_iff {name : Bytes} {data : Nat} :
    (∃ p, newProperty mem constprops name data len = some p) ↔
      ValueInside mem constprops data len name := by
  unfold newProperty
  cases constprops with
  | true =>
    rw [if_pos rfl]
    split
    · next h =>
      refine ⟨(fun ⟨_, h⟩ => nomatch h), fun hin => ?_⟩
      have := hin h.1 h.2.1
      omega
    · next h =>
      refine ⟨fun _ hname hlen => ?_, fun _ => ⟨_, rfl⟩⟩
      exact Nat.le_of_not_lt fun hlt => h ⟨hname, hlen, hlt⟩
  | false =>
    rw [if_neg Bool.false_ne_true]
    split
    · next h => exact ⟨fun _ => h, fun _ => ⟨_, rfl⟩⟩
    · next h => exact ⟨(fun ⟨_, h⟩ => nomatch h), (fun h' => absurd h' h)⟩

/-- A property: the two words, the name and the value. -/
theorem unflattenProp_goesInside (s : Unflatten) : GoesInside (unflattenProp mem constprops f s)
    (PropInside mem constprops f s.place) (nextProp mem f s.dt s.node.depth) := by
  unfold unflattenProp nextProp dtString
  by_cases hin : s.dt + 12 ≤ mem.length
  case neg =>
    rw [be32At_none (show ¬ s.dt + 8 + 4 ≤ mem.length by omega)]
    cases be32At mem (s.dt + 4) with
    | none => exact .of_fault fun h => hin h.1
    | some len => exact .of_fault fun h => hin h.1
  obtain ⟨len, hlen⟩ := be32At_isSome (show s.dt + 4 + 4 ≤ mem.length by omega)
  obtain ⟨nameoff, hoff⟩ := be32At_isSome (show s.dt + 8 + 4 ≤ mem.length by omega)
  have hprop : PropInside mem constprops f s.place ↔ (nameoff ≤ f.sizeDtStrings →
      Terminated mem (f.offDtStrings + nameoff) ∧ 0 < s.node.depth ∧
        ∀ name, cstringAt mem (f.offDtStrings + nameoff) = some name →
          ValueInside mem constprops (s.dt + 12) len name) := by
    refine ⟨fun h => h.2 len nameoff hlen hoff, fun h => ⟨hin, fun len' nameoff' hlen' hoff' => ?_⟩⟩
    cases hlen.symm.trans hlen'
    cases hoff.symm.trans hoff'
    exact h
  rw [hprop, hlen, hoff]
  dsimp only
  by_cases hgt : nameoff > f.sizeDtStrings
  · rw [if_pos hgt, if_pos hgt]
    exact .of_goes (fun h => absurd h (Nat.not_le_of_lt hgt)) (goes_fail (by decide))
  rw [if_neg hgt, if_neg hgt, forall_prop_of_true (Nat.le_of_not_lt hgt)]
  dsimp only
  have hterm := @cstringAt_isSome_iff mem (f.offDtStrings + nameoff)
  cases hname : cstringAt mem (f.offDtStrings + nameoff) with
  | none => exact .of_fault fun h => nomatch (hterm.mpr h.1).choose_spec.symm.trans hname
  | some name =>
    have hvalue := @newProperty_isSome_iff len mem constprops name (s.dt + 12)
    dsimp only
    cases hp : newProperty mem constprops name (s.dt + 12) len with
    | none => exact .of_fault fun h => nomatch (hvalue.mpr (h.2.2 name rfl)).choose_spec.symm.trans hp
    | some p =>
      cases s.node with
      | outside root => exact .of_fault fun h => Nat.lt_irrefl 0 h.2.1
      | inside node parents =>
        refine .of_goes ⟨hterm.mp ⟨name, hname⟩, Nat.succ_pos _, fun name' hname' => ?_⟩ (unflattenAdvance_goes ..)
        exact Option.some.inj hname' ▸ hvalue.mp ⟨p, hp⟩

/-- Any tag: what the loop reads for it decides how the turn goes. -/
theorem unflattenTurn_goesInside (s : Unflatten) : GoesInside (unflattenTurn mem constprops f s)
    (TagInside mem constprops f s.place) (nextTag mem f s.place) := by
  unfold nextTag TagInside
  by_cases hin : s.place.dt + 4 ≤ mem.length
  case neg =>
    unfold unflattenTurn
    rw [show be32At mem s.dt = none from be32At_none hin]
    exact .of_fault fun h => hin h.1
  cases htag : tagAt mem s.place.dt with
  | none =>
    obtain ⟨word, hword⟩ := be32At_isSome hin
    have hnone : Tag.ofNat? word = none := by
      unfold tagAt at htag
      rw [hword] at htag
      exact htag
    unfold unflattenTurn
    rw [show be32At mem s.dt = some word from hword]
    dsimp only
    rw [hnone]
    exact .of_goes ⟨hin, nofun, nofun⟩ (goes_fail (by decide))
  | some tag =>
    rw [unflattenTurn_tag htag]
    cases tag with
    | beginNode => exact (unflattenBegin_goesInside s).congr ⟨fun h => h.2.1 rfl, fun h => ⟨hin, fun _ => h, nofun⟩⟩
    | endNode => exact .of_goes ⟨hin, nofun, nofun⟩ (unflattenEnd_goes s)
    | prop => exact (unflattenProp_goesInside s).congr ⟨fun h => h.2.2 rfl, fun h => ⟨hin, nofun, fun _ => h⟩⟩
    | nop => exact .of_goes ⟨hin, nofun, nofun⟩ (unflattenAdvance_goes ..)
    | stop => exact .of_goes ⟨hin, nofun, nofun⟩ (.inl ⟨_, rfl⟩)

/-- **One turn** of the loop is a step of the walk. -/
theorem unflattenTurn_follows (mem : Bytes) (constprops : Bool) (f : FdtHeader) :
    Follows (unflattenTurn mem constprops f) .EFAULT Unflatten.place (nextTag mem f)
      (TagInside mem constprops f) := by
  refine ⟨fun s p hgood hnext => ?_, fun s hgood hnext => ?_, fun s hbad => (unflattenTurn_goesInside s).fault hbad⟩
  · have h := (unflattenTurn_goesInside s).goes hgood
    rwa [hnext] at h
  · have h := (unflattenTurn_goesInside s).goes hgood
    rwa [hnext] at h

/-! ## The whole function -/

theorem fdtHeader_isSome (h : sizeofFdtHeader ≤ mem.length) : ∃ f, fdtHeader mem = some f := by
  have h : 40 ≤ mem.length := h
  obtain ⟨a, ha⟩ := be32At_isSome (show 4 + 4 ≤ mem.length by omega)
  obtain ⟨b, hb⟩ := be32At_isSome (show 8 + 4 ≤ mem.length by omega)
  obtain ⟨c, hc⟩ := be32At_isSome (show 36 + 4 ≤ mem.length by omega)
  obtain ⟨d, hd⟩ := be32At_isSome (show 12 + 4 ≤ mem.length by omega)
  obtain ⟨e, he⟩ := be32At_isSome (show 32 + 4 ≤ mem.length by omega)
  refine ⟨⟨a, b, c, d, e⟩, ?_⟩
  unfold fdtHeader
  rw [ha, hb, hc, hd, he]
  rfl

/-- Behind a header that is accepted. -/
theorem ofUnflattenFor_header (h : HeaderOk mem f) (turns : Nat) (constprops : Bool) :
    ofUnflattenFor turns constprops mem mem.length =
      match ofUnflattenReservemap ofNewRoot mem with
      | .error e => .error e
      | .ok root => loop (unflattenTurn mem constprops f) .EFAULT turns
          ⟨f.offDtStruct, .outside root⟩ := by
  unfold ofUnflattenFor
  rw [if_neg (Nat.not_lt_of_le h.size), h.magic, h.version, h.header]
  dsimp only
  rw [if_neg (Nat.not_lt_of_le h.totalsize), if_neg (Nat.not_lt_of_le h.structEnd)]
  exact if_neg (Nat.not_lt_of_le h.strings)

/-- A header that is not accepted is an error. -/
theorem ofUnflattenFor_no_header (h : ¬ ∃ f, HeaderOk mem f) (turns : Nat) (constprops : Bool) :
    ofUnflattenFor turns constprops mem mem.length ≠ .error .EFAULT := by
  unfold ofUnflattenFor
  split
  · exact nofun
  next hsize =>
  have hsize : sizeofFdtHeader ≤ mem.length := Nat.le_of_not_lt hsize
  have hlen : 40 ≤ mem.length := hsize
  obtain ⟨magic, hmagic⟩ := be32At_isSome (show 0 + 4 ≤ mem.length by omega)
  obtain ⟨version, hversion⟩ := be32At_isSome (show 20 + 4 ≤ mem.length by omega)
  obtain ⟨f, hf⟩ := fdtHeader_isSome hsize
  rw [hmagic, hversion, hf]
  dsimp only
  split
  · exact nofun
  next hm =>
  split
  · exact nofun
  next hv =>
  split
  · exact nofun
  next ht =>
  split
  · exact nofun
  next hs =>
  split
  · exact nofun
  next hg =>
  refine absurd ⟨f, ?_⟩ h
  exact
    { size := hsize
      magic := hmagic.trans (congrArg some (Decidable.not_not.mp hm))
      version := hversion.trans (congrArg some (Decidable.not_not.mp hv))
      header := hf
      totalsize := Nat.le_of_not_lt ht
      structEnd := Nat.le_of_not_lt hs
      strings := Nat.le_of_not_lt hg }

/-- **Unflattening stays inside** its buffer, and comes to an end, if and
only if the buffer is as `UnflattenInside` says. -/
theorem unflatten_returns_iff (constprops : Bool) (mem : Bytes) :
    Returns constprops mem ↔ UnflattenInside constprops mem := by
  by_cases hok : ∃ f, HeaderOk mem f
  case neg =>
    exact ⟨fun _ f hf => absurd ⟨f, hf⟩ hok, fun _ => ⟨0, ofUnflattenFor_no_header hok 0 _⟩⟩
  obtain ⟨f, hf⟩ := hok
  have hone : UnflattenInside constprops mem ↔
      ((∃ n < ofMaxReserveMap, ReserveEndsAt mem n) ∧ WalkInside mem constprops f) ∨
        ((¬ ∃ n < ofMaxReserveMap, ReserveEndsAt mem n) ∧ ReserveFull mem) := by
    refine ⟨fun h => h f hf, fun h f' hf' => ?_⟩
    cases hf.header.symm.trans hf'.header
    exact h
  have hsize : 40 ≤ mem.length := hf.size
  -- one header, and the reserve map decides whether the walk is reached
  obtain ⟨off, hoff⟩ := be32At_isSome (show 16 + 4 ≤ mem.length by omega)
  unfold Returns
  rw [hone]
  rcases ofUnflattenReservemap_cases ofNewRoot hoff with ⟨hends, root, hroot⟩ | ⟨hends, e, he, hfull⟩
  · have hloop := (unflattenTurn_follows mem constprops f).returns_iff
      ⟨f.offDtStruct, .outside root⟩
    have hwalk : (∃ turns, ofUnflattenFor turns constprops mem mem.length ≠ .error .EFAULT) ↔
        WalkInside mem constprops f := by
      refine Iff.trans (exists_congr fun turns => ?_) hloop
      rw [ofUnflattenFor_header hf, hroot]
    rw [hwalk]
    exact ⟨fun h => .inl ⟨hends, h⟩, fun h => h.elim (·.2) fun h => absurd hends h.1⟩
  · have herror : (∃ turns, ofUnflattenFor turns constprops mem mem.length ≠ .error .EFAULT) ↔
        e ≠ .EFAULT := by
      constructor
      · intro ⟨turns, h⟩ hfault
        rw [ofUnflattenFor_header hf, he, hfault] at h
        exact h rfl
      · intro h
        refine ⟨0, ?_⟩
        rw [ofUnflattenFor_header hf, he]
        exact fun heq => h (Except.error.inj heq)
    rw [herror, hfull]
    exact ⟨fun h => .inr ⟨hends, h⟩, fun h => h.elim (fun h => absurd h.1 hends) (·.2)⟩

/-- A header that says that the map of reserved memory lies right behind the
buffer. -/
def noReserveMap : Bytes :=
  beBytes 4 fdtMagic ++ beBytes 4 40 ++ beBytes 4 40 ++ beBytes 4 40 ++ beBytes 4 40
    ++ beBytes 4 17 ++ beBytes 4 16 ++ beBytes 4 0 ++ beBytes 4 0 ++ beBytes 4 0

/-- The first entry of the map is read behind the end of the buffer. -/
theorem unflatten_outside : ¬ ∀ (constprops : Bool) (mem : Bytes), Returns constprops mem := by
  intro h
  obtain ⟨turns, hreturns⟩ := h false noReserveMap
  exact hreturns rfl

end Barebox.Of
