import Barebox.Doom.ClipSegs

/-!
# The array and the list of posts

What the loops over `solidsegs` do to the posts at its beginning, whatever is behind them:
a call draws the gaps of its range and joins the range with the posts (`solid_spec`).

The array is cut where a loop stops: `pre` are the posts that it passes, and `crunch` moves
the posts behind those that it removes, together with what is behind the list.
-/

namespace Barebox.Doom

open Lib Lib.Range List

/-- The array begins with these posts. -/
def Begins (segs : Nat → Cliprange) (l : List Cliprange) : Prop := ∀ i p, l[i]? = some p → segs i = p

variable {segs : Nat → Cliprange} {pre post : List Cliprange} {p : Cliprange} {l : List Cliprange} {s : Clip}
variable {bound : Int} {rest : List Cliprange}

/-- The array begins with two lists one behind the other. -/
theorem begins_append : Begins segs (pre ++ l) ↔ Begins segs pre ∧ Begins (fun i => segs (pre.length + i)) l := by
  constructor
  · intro h
    refine ⟨fun i p hi => h i p ?_, fun i p hi => h (pre.length + i) p ?_⟩
    · rw [List.getElem?_append_left (List.getElem?_eq_some_iff.mp hi).1]
      exact hi
    · rw [getElem?_append_right (Nat.le_add_right _ _), Nat.add_sub_cancel_left]
      exact hi
  · intro ⟨hpre, hl⟩ i p hi
    rcases Nat.lt_or_ge i pre.length with hlt | hge
    · rw [getElem?_append_left hlt] at hi
      exact hpre i p hi
    · rw [getElem?_append_right hge] at hi
      have hat : segs (pre.length + (i - pre.length)) = p := hl _ p hi
      rwa [Nat.add_sub_cancel' hge] at hat

theorem begins_cons : Begins segs (p :: l) ↔ segs 0 = p ∧ Begins (fun i => segs (1 + i)) l := by
  have hone : Begins segs [p] ↔ segs 0 = p := by
    refine ⟨fun h => h 0 p rfl, fun h i q hi => ?_⟩
    cases i with
    | zero => exact h.trans (Option.some.inj hi)
    | succ i => nomatch hi
  rw [← hone]
  exact @begins_append segs [p] l

/-- Only the entries of the list count. -/
theorem Begins.congr {segs' : Nat → Cliprange} (h : Begins segs l)
    (hsame : ∀ i, i < l.length → segs' i = segs i) : Begins segs' l :=
  fun i p hi => (hsame i (List.getElem?_eq_some_iff.mp hi).1).trans (h i p hi)

/-- The entry behind a front part, by its index, … -/
theorem Begins.at (h : Begins segs (pre ++ p :: post)) : segs pre.length = p :=
  (begins_cons.mp (begins_append.mp h).2).1

/-- … and the one behind that. -/
theorem Begins.next {q : Cliprange} (h : Begins segs (pre ++ p :: q :: post)) : segs (pre.length + 1) = q :=
  (begins_cons.mp (begins_cons.mp (begins_append.mp h).2).2).1

theorem put_self (i : Nat) : put segs i p i = p := if_pos rfl

theorem put_ne {i j : Nat} (h : j ≠ i) (segs : Nat → Cliprange) (p : Cliprange) : put segs i p j = segs j := if_neg h

/-- Another post in the place of `p` -/
theorem Begins.put (h : Begins segs (pre ++ p :: post)) (q : Cliprange) :
    Begins (put segs pre.length q) (pre ++ q :: post) := by
  obtain ⟨hpre, hrest⟩ := begins_append.mp h
  refine begins_append.mpr ⟨hpre.congr fun i hi => put_ne (Nat.ne_of_lt hi) .., begins_cons.mpr ⟨put_self .., ?_⟩⟩
  exact (begins_cons.mp hrest).2.congr fun i _ => put_ne (by omega) ..

/-! ## Looking for a post -/

/-- The elements from `i`, `n` of them -/
def readsFrom (i n : Nat) : List Access := (range' i n).map .read

/-- The loop stops at the first post that ends at `bound` or behind it, and has read every post up
to there. -/
theorem findStart_eq {n : Nat} (hn : ¬ (segs n).last < bound) :
    ∀ {fuel i : Nat}, i ≤ n → n - i < fuel → (∀ j, i ≤ j → j < n → (segs j).last < bound) →
      findStart segs bound fuel i = some (n, readsFrom i (n - i + 1))
  | 0, _, _, hfuel, _ => absurd hfuel (Nat.not_lt_zero _)
  | fuel + 1, i, hi, hfuel, hpass => by
    rw [findStart]
    rcases Nat.lt_or_eq_of_le hi with hlt | rfl
    · rw [if_pos (hpass i (Nat.le_refl _) hlt),
        findStart_eq hn (Nat.succ_le_of_lt hlt) (by omega) (fun j hj => hpass j (Nat.le_of_succ_le hj))]
      have hcount : n - i + 1 = (n - (i + 1) + 1) + 1 := by omega
      rw [hcount]
      rfl
    · rw [if_neg hn, Nat.sub_self]
      rfl

/-- Where a list is cut: the first post that ends at `bound` or behind it -/
theorem exists_start : ∀ {l : List Cliprange}, (∃ p ∈ l, bound ≤ p.last) →
    ∃ pre p post, l = pre ++ p :: post ∧ (∀ q ∈ pre, q.last < bound) ∧ bound ≤ p.last
  | [], h => by obtain ⟨p, hp, _⟩ := h; nomatch hp
  | q :: l, h => by
    by_cases hq : q.last < bound
    · obtain ⟨p, hp, hlast⟩ := h
      rcases mem_cons.mp hp with rfl | hp
      · exact absurd hq (Int.not_lt.mpr hlast)
      · obtain ⟨pre, p, post, rfl, hpre, hp⟩ := exists_start ⟨p, hp, hlast⟩
        exact ⟨q :: pre, p, post, rfl, forall_mem_cons.mpr ⟨hq, hpre⟩, hp⟩
    · exact ⟨[], q, l, rfl, nofun, Int.not_lt.mp hq⟩

/-- The same for a list that is split at that post. -/
theorem findStart_list {fuel : Nat}
    (h : Begins segs (pre ++ p :: post)) (hfuel : pre.length < fuel) (hpre : ∀ q ∈ pre, q.last < bound)
    (hp : bound ≤ p.last) : findStart segs bound fuel 0 = some (pre.length, readsFrom 0 (pre.length + 1)) := by
  refine findStart_eq (by rw [h.at]; omega) (Nat.zero_le _) (by omega) fun j _ hj => ?_
  have hmem : pre[j]? = some pre[j] := getElem?_eq_getElem hj
  rw [h j pre[j] (by rw [getElem?_append_left hj, hmem])]
  exact hpre _ (getElem_mem hj)

/-! ## Moving posts -/

/-- Making room: the `count` posts that end in front of `next` move up by one, the others stay. -/
theorem shiftUp_at (i : Nat) : ∀ (count : Nat) (segs : Nat → Cliprange) (next : Nat), count ≤ next →
    (shiftUp count segs next).1 i = if next - count < i ∧ i ≤ next then segs (i - 1) else segs i
  | 0, segs, next, _ => (if_neg (by omega)).symm
  | count + 1, segs, next, hcount => by
    rw [shiftUp]
    rw [shiftUp_at i count _ _ (by omega)]
    by_cases hnext : i = next
    · rw [if_neg (by omega), if_pos (by omega), hnext, put_self]
    · rw [put_ne hnext]
      split
      next hmoved => rw [if_pos (by omega), put_ne (by omega)]
      next hmoved => rw [if_neg (by omega)]

/-- Closing a gap: `count` posts behind `start` are replaced by those behind `next`. -/
theorem crunch_at (i : Nat) : ∀ (count : Nat) (segs : Nat → Cliprange) (start next : Nat), start ≤ next →
    (crunch count segs start next).1 i
      = if start < i ∧ i ≤ start + count then segs (i + (next - start)) else segs i
  | 0, segs, start, next, _ => (if_neg (by omega)).symm
  | count + 1, segs, start, next, hle => by
    rw [crunch]
    rw [crunch_at i count _ (start + 1) (next + 1) (by omega), Nat.add_sub_add_right]
    by_cases hstart : i = start + 1
    · rw [if_neg (by omega), if_pos (by omega), hstart, put_self]
      congr 1
      omega
    · rw [put_ne hstart]
      split
      next hmoved => rw [if_pos (by omega), put_ne (by omega)]
      next hmoved => rw [if_neg (by omega)]

theorem crunch_start : ∀ (count : Nat) (segs : Nat → Cliprange) (start next : Nat),
    (crunch count segs start next).2.1 = start + count
  | 0, _, _, _ => rfl
  | count + 1, segs, start, next => by
    rw [crunch]
    rw [crunch_start]
    omega

/-- A new post in front of `p` -/
theorem Begins.insert {newend : Nat} (h : Begins segs (pre ++ p :: post)) (hend : (pre ++ p :: post).length ≤ newend)
    (q : Cliprange) :
    Begins (Doom.put (shiftUp (newend - pre.length) segs newend).1 pre.length q) (pre ++ q :: p :: post) := by
  rw [length_append] at hend
  obtain ⟨hpre, hrest⟩ := begins_append.mp h
  refine begins_append.mpr ⟨hpre.congr fun i hi => ?_, begins_cons.mpr ⟨put_self .., hrest.congr fun i hi => ?_⟩⟩
  · rw [put_ne (Nat.ne_of_lt hi), shiftUp_at i _ _ _ (Nat.sub_le _ _), if_neg (by omega)]
  · rw [put_ne (by omega), shiftUp_at _ _ _ _ (Nat.sub_le _ _), if_pos (by omega)]
    congr 1
    omega

/-- The posts `mid` behind `p` are removed. -/
theorem Begins.remove {newend : Nat} {mid : List Cliprange} (h : Begins segs (pre ++ p :: (mid ++ post)))
    (hend : (pre ++ p :: (mid ++ post)).length ≤ newend) :
    Begins (crunch (newend - (pre.length + mid.length)) segs pre.length (pre.length + mid.length)).1
      (pre ++ p :: post) := by
  rw [length_append, length_cons, length_append] at hend
  obtain ⟨hpre, hrest⟩ := begins_append.mp h
  obtain ⟨hp, hrest⟩ := begins_cons.mp hrest
  have hle : pre.length ≤ pre.length + mid.length := Nat.le_add_right _ _
  refine begins_append.mpr ⟨hpre.congr fun i hi => ?_, begins_cons.mpr ⟨?_, (begins_append.mp hrest).2.congr fun i hi => ?_⟩⟩
  · rw [crunch_at i _ _ _ _ hle, if_neg (by omega)]
  · rw [crunch_at _ _ _ _ _ hle, if_neg (by omega)]
    exact hp
  · rw [crunch_at _ _ _ _ _ hle, if_pos (by omega)]
    congr 1
    omega

/-! ## Filling the gaps -/

/-- What the loop over the posts behind `prev` finds: `mid` become one with the range. -/
theorem fillBetween_spec {segs : Nat → Cliprange} {last : Int} : ∀ {posts pre : List Cliprange} {prev : Cliprange} {fuel : Nat},
    Begins segs (pre ++ prev :: posts) → Apart (prev :: posts) → prev.last < last → (∃ p ∈ posts, last ≤ p.last) →
    posts.length ≤ fuel →
    ∃ b mid rest, fillBetween segs last fuel pre.length = some b ∧ posts = mid ++ rest
      ∧ b.next = pre.length + mid.length ∧ b.stored = gaps (prev.last + 1) last posts
      ∧ (∀ first, first ≤ prev.last → join first last posts = ⟨first, b.bottom⟩ :: rest)
      ∧ (mid = [] → b.accesses = [.read (pre.length + 1)])
  | [], _, _, _, _, _, _, hend, _ => by obtain ⟨p, hp, _⟩ := hend; cases hp
  | q :: qs, pre, prev, fuel, h, hapart, hlast, hend, hfuel => by
    obtain ⟨fuel, rfl⟩ : ∃ k, fuel = k + 1 := Nat.exists_eq_succ_of_ne_zero (by
      rw [length_cons] at hfuel
      omega)
    have hq := hapart.tail.head
    have hnext := hapart.behind q (mem_cons_self)
    rw [fillBetween, h.at, h.next]
    split
    next htouch =>
      split
      next hin =>
        -- the wall ends in this post
        refine ⟨_, [q], qs, rfl, rfl, rfl, ?_, ?_, by simp⟩
        · rw [gaps, gaps_of_lt (by omega), if_pos (by omega), Int.min_eq_right (by omega), append_nil]
        · intro first hfirst
          rw [join, if_neg (by omega), if_neg (by omega), Int.min_eq_left (by omega), Int.max_eq_right hin]
          exact join_of_lt hapart.tail.behind (by omega) hapart.tail.tail
      next hout =>
      -- it goes on behind the post, where the list still ends beyond it
      have hend' : ∃ p ∈ qs, last ≤ p.last := by
        obtain ⟨p, hp, hle⟩ := hend
        rcases mem_cons.mp hp with rfl | hp
        · exact absurd hle hout
        · exact ⟨p, hp, hle⟩
      have hassoc : pre ++ prev :: q :: qs = (pre ++ [prev]) ++ q :: qs := by simp
      obtain ⟨b, mid, rest, hb, hqs, hbnext, hstored, hjoin, -⟩ :=
        @fillBetween_spec segs last qs (pre ++ [prev]) q fuel (hassoc ▸ h) hapart.tail (by omega) hend'
          (Nat.le_of_succ_le_succ hfuel)
      rw [length_append, length_singleton] at hb hbnext
      rw [hb]
      refine ⟨_, q :: mid, rest, rfl, by rw [hqs]; rfl, ?_, ?_, ?_, by simp⟩
      · rw [hbnext, length_cons]
        omega
      · dsimp only
        rw [hstored, gaps, if_pos (by omega), Int.max_eq_right (by omega), Int.min_eq_right (by omega)]
        rfl
      · intro first hfirst
        rw [join, if_neg (by omega), if_neg (by omega), Int.min_eq_left (by omega), Int.max_eq_left (by omega)]
        exact hjoin first (by omega)
    next hapartFrom =>
    -- the wall ends in front of the post
    refine ⟨_, [], q :: qs, rfl, rfl, rfl, ?_, ?_, fun _ => rfl⟩
    · rw [gaps, gaps_of_lt (by omega), if_pos (by omega), Int.min_eq_left (by omega), append_nil]
    · intro first hfirst
      rw [join, if_neg (by omega), if_pos (by omega)]

/-! ## Calls -/

/-- The posts in front of the place do not matter for the gaps, -/
theorem gaps_pre {first last : Int} : ∀ {pre : List Cliprange}, Apart (pre ++ rest) →
    (∀ q ∈ pre, q.last < first - 1) → gaps first last (pre ++ rest) = gaps first last rest
  | [], _, _ => rfl
  | q :: pre, h, hpre => by
    have hq := h.head
    have hbefore := hpre q (mem_cons_self)
    rw [cons_append, gaps, if_neg (by omega), Int.max_eq_left (by omega),
      gaps_pre h.tail fun r hr => hpre r (mem_cons_of_mem _ hr)]
    rfl

/-- and stay where they are. -/
theorem join_pre {first last : Int} : ∀ {pre : List Cliprange},
    (∀ q ∈ pre, q.last < first - 1) → join first last (pre ++ rest) = pre ++ join first last rest
  | [], _ => rfl
  | q :: pre, hpre => by
    rw [cons_append, join, if_pos (hpre q (mem_cons_self)),
      join_pre fun r hr => hpre r (mem_cons_of_mem _ hr)]
    rfl

/-- The rest of a list that is apart is apart too. -/
theorem Apart.of_append (h : Apart (pre ++ rest)) : Apart rest :=
  ⟨fun r hr => h.nonempty r (mem_append_right _ hr), (pairwise_append.mp h.between).2.1⟩

section Start

variable {p : Cliprange} {post : List Cliprange} {first last : Int}

/-- The post is entirely visible in front of `p`. -/
theorem gaps_visible (hp : p.first ≤ p.last) (hle : first ≤ last) (h : last < p.first - 1) :
    gaps first last (p :: post) = [⟨first, last⟩] := by
  rw [gaps, gaps_of_lt (by omega), if_pos (by omega), Int.min_eq_left (by omega), append_nil]

/-- A wall that ends before the post gets a post of its own, … -/
theorem join_visible (hp : first - 1 ≤ p.last) (h : last < p.first - 1) :
    join first last (p :: post) = ⟨first, last⟩ :: p :: post := by
  rw [join, if_neg (by omega), if_pos h]

variable (hp : first - 1 ≤ p.last) (hle : first ≤ last) (h : ¬ (first < p.first ∧ last < p.first - 1))

include hp hle h

/-- There is a fragment above `p`, or none. -/
theorem gaps_start : gaps first last (p :: post)
    = (if first < p.first then [⟨first, p.first - 1⟩] else []) ++ gaps (p.last + 1) last post := by
  rw [gaps, Int.max_eq_right (by omega)]
  by_cases habove : first < p.first
  · rw [if_pos (by omega), if_pos habove, Int.min_eq_right (by omega)]
  · rw [if_neg (by omega), if_neg habove]

/-- … and one that touches it takes it in, and goes on with the union. -/
theorem join_start : join first last (p :: post) = join (min first p.first) (max last p.last) post := by
  rw [join, if_neg (by omega), if_neg (by omega)]

end Start

/-- The posts that reach to `last` are those behind `start`. -/
theorem right_behind {pre post : List Cliprange} {p : Cliprange} {first last : Int} (hle : first ≤ last)
    (hpre : ∀ q ∈ pre, q.last < first - 1) (hin : ¬ last ≤ p.last) (hright : ∃ q ∈ pre ++ p :: post, last ≤ q.last) :
    ∃ q ∈ post, last ≤ q.last := by
  obtain ⟨q, hq, hlast⟩ := hright
  rcases mem_append.mp hq with hq | hq
  · have := hpre q hq
    omega
  · rcases mem_cons.mp hq with rfl | hq
    · exact absurd hlast hin
    · exact ⟨q, hq, hlast⟩

/-- The list is the one with the range in it; `newend` has moved with its end, or has fallen
one behind where posts were removed. Without that, only posts of the list are accessed. -/
inductive Moved (s : Clip) (l l' : List Cliprange) (d : Drawn) : Prop where
  | inserted (start : Nat) (hstart : start < l.length) (hlength : l'.length = l.length + 1)
      (hend : d.clip.newend = s.newend + 1)
      (haccesses : d.accesses
        = readsFrom 0 (start + 1) ++ (shiftUp (s.newend - start) s.solidsegs s.newend).2 ++ [.write start])
  | extended (hlength : l'.length = l.length) (hend : d.clip.newend = s.newend)
      (haccesses : ∀ a ∈ d.accesses, ∃ i, i < l.length ∧ (a = .read i ∨ a = .write i))
  | removed (n : Nat) (hn : 0 < n) (hlength : l'.length + n = l.length) (hend : d.clip.newend + n = s.newend + 1)

/-- The accesses before the loop over the posts behind `start` -/
theorem mem_accesses_start {start : Nat} {above : Prop} [Decidable above] {a : Access}
    (h : a ∈ if above then readsFrom 0 (start + 1) ++ [Access.write start] else readsFrom 0 (start + 1)) :
    ∃ i, i ≤ start ∧ (a = .read i ∨ a = .write i) := by
  have hread : ∀ {a}, a ∈ readsFrom 0 (start + 1) → ∃ i, i ≤ start ∧ (a = .read i ∨ a = .write i) := by
    intro a ha
    obtain ⟨i, hi, rfl⟩ := mem_map.mp ha
    have := mem_range'_1.mp hi
    exact ⟨i, by omega, Or.inl rfl⟩
  split at h
  · rcases mem_append.mp h with h | h
    · exact hread h
    · exact ⟨start, Nat.le_refl _, Or.inr (mem_singleton.mp h)⟩
  · exact hread h

section

variable {first last : Int} (h : Begins s.solidsegs l) (hend : l.length ≤ s.newend) (hapart : Apart l)
  (hle : first ≤ last) (hright : ∃ p ∈ l, last ≤ p.last)
include h hend hapart hle hright

/-- The case analysis of `R_ClipSolidWallSegment` comes to this: it stores the gaps, and leaves
the list with the wall joined in. -/
theorem solid_spec : ∃ d, rClipSolidWallSegment s first last = some d ∧ d.stored = gaps first last l
      ∧ Begins d.clip.solidsegs (join first last l) ∧ Moved s l (join first last l) d := by
  obtain ⟨pre, p, post, rfl, hpre, hp⟩ := @exists_start (first - 1) l (by
    obtain ⟨p, hp, hlast⟩ := hright
    exact ⟨p, hp, by omega⟩)
  have hrest := Apart.of_append hapart
  have hp' := hrest.head
  have hlength := hend
  rw [length_append, length_cons] at hlength
  rw [gaps_pre hapart hpre, join_pre hpre]
  unfold rClipSolidWallSegment
  rw [findStart_list h (by omega) hpre hp]
  dsimp only
  rw [h.at]
  by_cases hvisible : first < p.first ∧ last < p.first - 1
  · -- entirely visible
    rw [if_pos hvisible]
    refine ⟨_, rfl, ?_, ?_, .inserted pre.length ?_ ?_ rfl rfl⟩
    · rw [gaps_visible hp' hle hvisible.2]
    · rw [join_visible hp hvisible.2]
      exact h.insert hend _
    · simp
    · rw [join_visible hp hvisible.2]
      simp only [length_append, length_cons]
      omega
  · rw [if_neg hvisible]
    have hadjusted : Begins (if first < p.first then Doom.put s.solidsegs pre.length ⟨first, p.last⟩ else s.solidsegs)
        (pre ++ ⟨min first p.first, p.last⟩ :: post) := by
      split
      next habove =>
        rw [Int.min_eq_left (by omega)]
        exact h.put _
      next habove =>
      rw [Int.min_eq_right (by omega)]
      exact h
    have hapart' : Apart (⟨min first p.first, p.last⟩ :: post) :=
      Apart.cons (by dsimp only; omega) hrest.behind hrest.tail
    have hstart : ∀ {a : Access}, a ∈ (if first < p.first then readsFrom 0 (pre.length + 1) ++ [.write pre.length]
        else readsFrom 0 (pre.length + 1)) → ∃ i, i < (pre ++ p :: post).length ∧ (a = .read i ∨ a = .write i) := by
      intro a ha
      obtain ⟨i, hi, ha⟩ := mem_accesses_start ha
      exact ⟨i, by rw [length_append, length_cons]; omega, ha⟩
    rw [gaps_start hp hle hvisible, join_start hp hle hvisible]
    rw [hadjusted.at]
    by_cases hin : last ≤ p.last
    · -- `start` contains the bottom
      rw [if_pos hin, gaps_of_lt (by omega), append_nil, Int.max_eq_right hin]
      have hsame : join (min first p.first) p.last post = ⟨min first p.first, p.last⟩ :: post :=
        join_of_lt hapart'.behind (by omega) hrest.tail
      rw [hsame]
      refine ⟨_, rfl, rfl, hadjusted, .extended ?_ rfl fun a ha => hstart ha⟩
      simp
    · rw [if_neg hin, Int.max_eq_left (by omega)]
      have hright' := right_behind hle hpre hin hright
      obtain ⟨b, mid, rest, hb, rfl, hnext, hbetween, hjoined, hone⟩ :=
        fillBetween_spec hadjusted hapart' (Int.not_le.mp hin) hright' (by omega : _ ≤ s.newend)
      rw [hb]
      dsimp only
      have hput := hadjusted.put ⟨min first p.first, b.bottom⟩
      rw [hjoined _ (by dsimp only; omega), hnext]
      cases mid with
      | nil =>
        -- one post was extended
        have hsame : pre.length + ([] : List Cliprange).length = pre.length := rfl
        rw [if_pos hsame]
        refine ⟨_, rfl, by rw [hbetween], hput, .extended ?_ rfl fun a ha => ?_⟩
        · simp
        · rcases mem_append.mp ha with ha | ha
          · rcases mem_append.mp ha with ha | ha
            · exact hstart ha
            rw [hone rfl, mem_singleton] at ha
            refine ⟨pre.length + 1, ?_, Or.inl ha⟩
            obtain ⟨q, hq, -⟩ := hright'
            have hpos := length_pos_of_mem hq
            rw [length_append, length_cons]
            omega
          · refine ⟨pre.length, ?_, Or.inr (mem_singleton.mp ha)⟩
            rw [length_append, length_cons]
            omega
      | cons q mid =>
        have hne : ¬ pre.length + (q :: mid).length = pre.length := by
          rw [length_cons]
          omega
        rw [if_neg hne]
        refine ⟨_, rfl, by rw [hbetween], hput.remove ?_, .removed (q :: mid).length ?_ ?_ ?_⟩
        · rw [length_append]
          omega
        · exact Nat.succ_pos _
        · simp only [length_append, length_cons]
          omega
        · dsimp only
          rw [crunch_start]
          rw [length_append] at hlength
          omega

/-- `R_ClipPassWallSegment` stores the same gaps and leaves the list as it is. -/
theorem pass_spec :
    ∃ d, rClipPassWallSegment s first last = some d ∧ d.stored = gaps first last l ∧ d.clip = s := by
  obtain ⟨pre, p, post, rfl, hpre, hp⟩ := @exists_start (first - 1) l (by
    obtain ⟨p, hp, hlast⟩ := hright
    exact ⟨p, hp, by omega⟩)
  have hrest := Apart.of_append hapart
  rw [length_append, length_cons] at hend
  rw [gaps_pre hapart hpre]
  unfold rClipPassWallSegment
  rw [findStart_list h (by omega) hpre hp]
  dsimp only
  rw [h.at]
  by_cases hvisible : first < p.first ∧ last < p.first - 1
  · rw [if_pos hvisible]
    exact ⟨_, rfl, (gaps_visible hrest.head hle hvisible.2).symm, rfl⟩
  rw [if_neg hvisible, gaps_start hp hle hvisible]
  split
  next hin =>
    rw [gaps_of_lt (by omega), append_nil]
    exact ⟨_, rfl, rfl, rfl⟩
  next hin =>
  obtain ⟨b, mid, rest, hb, rfl, -, hbetween, -⟩ :=
    fillBetween_spec h hrest (Int.not_le.mp hin) (right_behind hle hpre hin hright) (by omega : _ ≤ s.newend)
  rw [hb]
  exact ⟨_, rfl, congrArg _ hbetween, rfl⟩

end

/-- The search of `R_CheckBBox` finds the post that the end of the span is in, or the one
behind it. -/
theorem check_spec {sx1 sx2 : Int} (h : Begins s.solidsegs l)
    (hend : l.length ≤ s.newend) (hright : ∃ p ∈ l, sx2 - 1 ≤ p.last) :
    ∃ r, rCheckSpan s sx1 sx2 = some r ∧ (r = false → ∀ x, sx1 ≤ x → x ≤ sx2 - 1 → Covered l x) := by
  unfold rCheckSpan
  split
  next hsame => exact ⟨false, rfl, fun _ x hlo hhi => absurd hhi (by omega)⟩
  next hsame =>
  obtain ⟨pre, p, post, rfl, hpre, hp⟩ := exists_start hright
  rw [length_append, length_cons] at hend
  rw [findStart_list h (by omega) hpre hp]
  dsimp only
  rw [h.at]
  refine ⟨_, rfl, fun hfalse x hlo hhi => ?_⟩
  simp only [ge_iff_le, Bool.not_eq_eq_eq_not, Bool.not_false, Bool.and_eq_true, decide_eq_true_eq] at hfalse
  exact ⟨p, by simp, by unfold Has; omega⟩

/-- The list ends with the post that reaches to `0x7fffffff`. -/
theorem posts_eq : ∀ {l : List Cliprange} {i fuel : Nat}, l ≠ [] → Apart l →
    (∀ p, l.getLast? = some p → p.last = 0x7fffffff) → (∀ k p, l[k]? = some p → segs (i + k) = p) → l.length ≤ fuel →
    postsFrom segs fuel i = l
  | [], _, _, hne, _, _, _, _ => absurd rfl hne
  | p :: l, i, 0, _, _, _, _, hfuel => absurd hfuel (Nat.not_succ_le_zero _)
  | p :: l, i, fuel + 1, _, hapart, hlast, hbegins, hfuel => by
    have hp : segs i = p := hbegins 0 p rfl
    rw [postsFrom, hp]
    cases l with
    | nil => rw [if_pos (hlast p rfl)]
    | cons q l =>
      -- what is behind a post ends behind it
      have hbelow : p.last ≠ 0x7fffffff := by
        obtain ⟨z, hz⟩ : ∃ z, (q :: l).getLast? = some z := ⟨_, getLast?_eq_some_getLast (cons_ne_nil _ _)⟩
        have hmem := mem_of_getLast? hz
        have hbehind := hapart.behind z hmem
        have hnonempty := hapart.tail.nonempty z hmem
        have hz' := hlast z (by rw [getLast?_cons_cons]; exact hz)
        omega
      rw [if_neg hbelow, posts_eq (cons_ne_nil _ _) hapart.tail (fun z hz => hlast z (by
        exact hz)) (fun k r hk => ?_) (Nat.le_of_succ_le_succ hfuel)]
      have hshift : i + 1 + k = i + (k + 1) := by omega
      rw [hshift]
      exact hbegins (k + 1) r hk

end Barebox.Doom
