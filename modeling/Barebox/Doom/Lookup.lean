import Barebox.Doom.Wad

/-!
# Finding a lump

Every lookup finds the lump that was added last among those of the same name, with or
without a hash table, and whenever the table was built (`lookup_highest`).

The argument is that of any hash table: equal names have equal hashes (`hash_congr`), the
table is hooked up from the names that are in the directory now (`generate_hooked`), and then
`Hooked.follow_eq_highest`.
-/

namespace Barebox.Doom

open Lib List

/-- Equal in a comparison of at most eight characters that ignores case -/
def SameName (a b : Bytes) : Prop := (strnchars 8 a).map tolower = (strnchars 8 b).map tolower

/-- The names in the directory -/
def added (calls : List Call) : List Bytes :=
  calls.flatMap fun
    | .addFile names => names
    | .generateHashTable => []

/-- The index of the last name that is equal, or -1 if there is none -/
def IsHighest (names : List Bytes) (name : Bytes) (r : Int) : Prop :=
  (∃ (i : Nat) (found : Bytes), r = i ∧ names[i]? = some found ∧ SameName found name
      ∧ ∀ (j : Nat) (other : Bytes), i < j → names[j]? = some other → ¬ SameName other name)
    ∨ (r = -1 ∧ ∀ other ∈ names, ¬ SameName other name)

/-! ## Names -/

/-- The hash is one of the folded name. -/
theorem hash_congr {a b : Bytes} (h : SameName a b) : wLumpNameHash a = wLumpNameHash b := by
  have hchar : hashChar = fun result c => hashChar result (tolower c) := by
    funext result c
    rw [hashChar, hashChar, toupper_tolower]
  have hfold : ∀ (s : Bytes), wLumpNameHash s = ((strnchars 8 s).map tolower).foldl hashChar 5381 := by
    intro s
    rw [foldl_map, ← hchar]
    rfl
  rw [hfold, hfold, h]

theorem sameName_strnchars (a b : Bytes) : SameName (strnchars 8 a) b ↔ SameName a b := by
  rw [SameName, strnchars_strnchars]
  rfl

/-- The directory holds what was added. -/
def Holds (d : Directory) (names : List Bytes) : Prop := d.lumpinfo.map Lumpinfo.name = names.map (strnchars 8)

variable {d : Directory} {names : List Bytes}

theorem Holds.length (h : Holds d names) : d.numlumps = names.length := by
  have hlength := congrArg List.length h
  rwa [length_map, length_map] at hlength

theorem Holds.nameAt (h : Holds d names) {i : Nat} {name : Bytes}
    (hi : names[i]? = some name) : d.nameAt i = strnchars 8 name := by
  rw [Directory.nameAt, ← getElem?_map, h, getElem?_map, hi]
  rfl

theorem Holds.add (h : Holds d names) (more : List Bytes) : Holds (wAddFile d more) (names ++ more) := by
  unfold Holds wAddFile
  rw [map_append, map_append, map_map, h]
  rfl

/-! ## The hash table -/

/-- The bucket of lump `i` -/
def hashAt (lumpinfo : List Lumpinfo) (numlumps i : Nat) : Nat :=
  (wLumpNameHash ((lumpinfo[i]?.map Lumpinfo.name).getD [])).toNat % numlumps

def nextIn (lumpinfo : List Lumpinfo) (i : Nat) : Option Nat := lumpinfo[i]?.bind Lumpinfo.next

theorem hookLump_names (numlumps : Nat) (t : List Lumpinfo × (Nat → Option Nat)) (i : Nat) :
    (hookLump numlumps t i).1.map Lumpinfo.name = t.1.map Lumpinfo.name := by
  unfold hookLump
  split
  next => rfl
  next lump hlump =>
  obtain ⟨hi, rfl⟩ := List.getElem?_eq_some_iff.mp hlump
  have hlength : i < (t.1.map Lumpinfo.name).length := by rwa [length_map]
  have hname : (t.1.map Lumpinfo.name)[i] = t.1[i].name := getElem_map ..
  rw [map_set, ← hname]
  exact set_getElem_self hlength

theorem hashAt_congr {l l' : List Lumpinfo} (h : l.map Lumpinfo.name = l'.map Lumpinfo.name) (numlumps : Nat) :
    hashAt l numlumps = hashAt l' numlumps := by
  funext i
  rw [hashAt, hashAt, ← getElem?_map, h, getElem?_map]

/-- One lump is hooked in. -/
theorem hookLump_hooked {numlumps i : Nat} {t : List Lumpinfo × (Nat → Option Nat)} (hi : i < t.1.length)
    (h : Hooked (hashAt t.1 numlumps) t.2 (nextIn t.1) i) :
    Hooked (hashAt (hookLump numlumps t i).1 numlumps) (hookLump numlumps t i).2
      (nextIn (hookLump numlumps t i).1) (i + 1) := by
  rw [hashAt_congr (hookLump_names numlumps t i)]
  have hlump : t.1[i]? = some t.1[i] := getElem?_eq_getElem hi
  have hhash : hashAt t.1 numlumps i = (wLumpNameHash t.1[i].name).toNat % numlumps := by
    rw [hashAt, hlump]
    rfl
  have hhook : hookLump numlumps t i
      = (t.1.set i { t.1[i] with next := t.2 (hashAt t.1 numlumps i) },
        fun k => if k = hashAt t.1 numlumps i then some i else t.2 k) := by
    unfold hookLump
    rw [hlump, hhash]
  rw [hhook]
  refine h.step (if_pos rfl) ?_ (fun k hk => if_neg hk) ?_
  · rw [nextIn, getElem?_set_self hi]
    rfl
  · intro j hj
    rw [nextIn, getElem?_set_ne (Nat.ne_of_gt hj)]
    rfl

/-- The loop: every lump of the first `n` is in the chain of its hash, the later ones in front. -/
theorem hookLumps (d : Directory) : ∀ (n : Nat), n ≤ d.numlumps →
    let t := (range n).foldl (hookLump d.numlumps) (d.lumpinfo, fun _ => none)
    t.1.map Lumpinfo.name = d.lumpinfo.map Lumpinfo.name
      ∧ Hooked (hashAt t.1 d.numlumps) t.2 (nextIn t.1) n
  | 0, _ => ⟨rfl, Hooked.zero _ _ fun _ => rfl⟩
  | n + 1, hn => by
    obtain ⟨hnames, hooked⟩ := hookLumps d n (Nat.le_of_succ_le hn)
    rw [range_succ, foldl_append]
    refine ⟨(hookLump_names ..).trans hnames, hookLump_hooked ?_ hooked⟩
    have hlength := congrArg List.length hnames
    rw [length_map, length_map] at hlength
    rw [hlength]
    exact hn

/-- If there is a table, all lumps are hooked in. -/
def Tabled (d : Directory) : Prop :=
  ∀ heads, d.lumphash = some heads → Hooked (hashAt d.lumpinfo d.numlumps) heads d.nextAt d.numlumps

theorem generate_names (d : Directory) : (wGenerateHashTable d).lumpinfo.map Lumpinfo.name = d.lumpinfo.map Lumpinfo.name := by
  unfold wGenerateHashTable
  split
  next => exact (hookLumps d d.numlumps (Nat.le_refl _)).1
  next => rfl

theorem generate_numlumps : (wGenerateHashTable d).numlumps = d.numlumps := by
  have hlength := congrArg List.length (generate_names d)
  rwa [length_map, length_map] at hlength

theorem generate_tabled (h : Tabled d) : Tabled (wGenerateHashTable d) := by
  intro heads hheads
  rw [generate_numlumps]
  unfold wGenerateHashTable at hheads ⊢
  split at hheads
  next hpos =>
    cases hheads
    rw [if_pos hpos]
    exact (hookLumps d d.numlumps (Nat.le_refl _)).2
  next hempty =>
  rw [if_neg hempty]
  exact h heads hheads

/-! ## The lookup -/

/-- The index, or -1 -/
def indexOrNone : Option Nat → Int
  | some i => i
  | none => -1

def matchesAt (d : Directory) (name : Bytes) (i : Nat) : Bool := strncasecmp (d.nameAt i) name 8 = 0

theorem matchesAt_iff (d : Directory) (name : Bytes) (i : Nat) :
    matchesAt d name i = true ↔ SameName (d.nameAt i) name := by
  rw [matchesAt, decide_eq_true_iff, strncasecmp_eq_zero_iff (by decide)]
  rfl

theorem searchDown_eq (d : Directory) (name : Bytes) : ∀ (n : Nat),
    searchDown d name n = indexOrNone (highest (matchesAt d name) n)
  | 0 => rfl
  | n + 1 => by
    rw [searchDown, highest, searchDown_eq d name n, matchesAt]
    by_cases h : strncasecmp (d.nameAt n) name 8 = 0
    · simp [h, indexOrNone]
    · simp [h]

/-- Linear or hashed, the lookup finds the highest lump. -/
theorem check_eq (h : Tabled d) (name : Bytes) :
    wCheckNumForName d name = some (indexOrNone (highest (matchesAt d name) d.numlumps)) := by
  unfold wCheckNumForName
  cases hhash : d.lumphash with
  | none => exact congrArg some (searchDown_eq ..)
  | some heads =>
    have honly : ∀ i, i < d.numlumps → matchesAt d name i = true →
        hashAt d.lumpinfo d.numlumps i = (wLumpNameHash name).toNat % d.numlumps := by
      intro i _ hi
      rw [← hash_congr ((matchesAt_iff d name i).mp hi)]
      rfl
    have hfollow := (h heads hhash).follow_eq_highest honly
    show (follow d.nextAt (matchesAt d name) _ _).map _ = _
    rw [hfollow]
    cases highest (matchesAt d name) d.numlumps <;> rfl

/-- The highest index is what a lookup is meant to return. -/
theorem isHighest_of_holds (h : Holds d names) (name : Bytes) :
    IsHighest names name (indexOrNone (highest (matchesAt d name) d.numlumps)) := by
  have hmatch : ∀ {i found}, names[i]? = some found → (matchesAt d name i = true ↔ SameName found name) := by
    intro i found hi
    rw [matchesAt_iff, h.nameAt hi, sameName_strnchars]
  have hlt : ∀ {i found}, names[i]? = some found → i < d.numlumps := by
    intro i found hi
    rw [h.length]
    exact (List.getElem?_eq_some_iff.mp hi).1
  cases hhighest : highest (matchesAt d name) d.numlumps with
  | none =>
    refine Or.inr ⟨rfl, fun other hother hsame => ?_⟩
    obtain ⟨i, hi⟩ := mem_iff_getElem?.mp hother
    have hfalse := highest_eq_none_iff.mp hhighest i (hlt hi)
    exact absurd ((hmatch hi).mpr hsame) (by simp [hfalse])
  | some i =>
    obtain ⟨hi, htest, hlast⟩ := highest_eq_some_iff.mp hhighest
    obtain ⟨found, hfound⟩ : ∃ found, names[i]? = some found := ⟨_, getElem?_eq_getElem (h.length ▸ hi)⟩
    refine Or.inl ⟨i, found, rfl, hfound, (hmatch hfound).mp htest, fun j other hij hj hsame => ?_⟩
    exact absurd ((hmatch hj).mpr hsame) (by simp [hlast j hij (hlt hj)])

/-! ## Runs -/

/-- The run: lumps are added in order, and a table is either up to date or gone. -/
theorem holds_run : ∀ (calls : List Call) {d : Directory} {names : List Bytes}, Holds d names → Tabled d →
    Holds (run Directory.call d calls) (names ++ added calls) ∧ Tabled (run Directory.call d calls)
  | [], d, names, hholds, htabled => ⟨(append_nil names).symm ▸ hholds, htabled⟩
  | .addFile more :: calls, d, names, hholds, _ => by
    have hnext := holds_run calls (hholds.add more) nofun
    rwa [append_assoc] at hnext
  | .generateHashTable :: calls, d, names, hholds, htabled =>
    holds_run calls ((generate_names d).trans hholds) (generate_tabled htabled)

/-- Whatever files were added and whenever hash tables were built: a lookup finds the last lump
of the name, and building a hash table does not change that. -/
theorem lookup_highest (calls : List Call) (name : Bytes) :
    (∃ r, wCheckNumForName (run Directory.call .empty calls) name = some r ∧ IsHighest (added calls) name r)
      ∧ wCheckNumForName (wGenerateHashTable (run Directory.call .empty calls)) name
        = wCheckNumForName (run Directory.call .empty calls) name := by
  obtain ⟨hholds, htabled⟩ := @holds_run calls .empty [] rfl nofun
  generalize run Directory.call .empty calls = d at hholds htabled ⊢
  refine ⟨⟨_, check_eq htabled name, isHighest_of_holds hholds name⟩, ?_⟩
  have hmatches : matchesAt (wGenerateHashTable d) name = matchesAt d name := by
    funext i
    rw [matchesAt, matchesAt, Directory.nameAt, Directory.nameAt, ← getElem?_map, generate_names,
      getElem?_map]
  rw [check_eq htabled, check_eq (generate_tabled htabled), hmatches, generate_numlumps]

end Barebox.Doom
