import Barebox.Lib.Run
import Barebox.Doom.ClipList

/-!
# Clipping, frame by frame

Within one frame, every column of every wall is drawn exactly once unless a solid wall in
front of it was drawn there (`clipping`). What is left of earlier frames in the array does
not matter, nor that `newend` is too high after posts were removed.

That it is too high matters for the size of the array: `clip_list_iff`.
-/

namespace Barebox.Doom

open Lib Lib.Range List

inductive ClipCall where
  | solid (first last : Int)
  | pass (first last : Int)
  | check (sx1 sx2 : Int)

/-- The columns of a call are columns of the view. -/
def ClipCall.InView (viewwidth : Int) : ClipCall → Prop
  | .solid first last => 0 ≤ first ∧ first ≤ last ∧ last < viewwidth
  | .pass first last => 0 ≤ first ∧ first ≤ last ∧ last < viewwidth
  | .check sx1 sx2 => 0 ≤ sx1 ∧ sx2 ≤ viewwidth

/-- The clip list, and the solid walls so far -/
structure View where
  clip : Clip
  solid : List Range

def View.call (v : View) : ClipCall → View
  | .solid first last =>
    match rClipSolidWallSegment v.clip first last with
    | some d => ⟨d.clip, ⟨first, last⟩ :: v.solid⟩
    | none => v
  | .pass _ _ => v
  | .check _ _ => v

/-- A new frame -/
def View.start (viewwidth : Int) (before : Clip) : View := ⟨rClearClipSegs viewwidth before, []⟩

/-- What is drawn: columns of the range that are not solid, all of them, in order and once -/
structure Draws (solid : List Range) (first last : Int) (stored : List Range) : Prop where
  nonempty : ∀ r ∈ stored, r.first ≤ r.last
  ordered : stored.Pairwise fun a b => a.last < b.first
  columns : ∀ x, Covered stored x ↔ first ≤ x ∧ x ≤ last ∧ ¬ Covered solid x

/-- The clip list: in order, not touching, and covering the solid columns and what is left
and right of the view -/
structure ClipListOk (viewwidth : Int) (v : View) : Prop where
  apart : Apart v.clip.posts
  columns : ∀ x, Covered v.clip.posts x ↔
    (-0x7fffffff ≤ x ∧ x ≤ -1) ∨ (viewwidth ≤ x ∧ x ≤ 0x7fffffff) ∨ Covered v.solid x

def Clips (viewwidth : Int) (v : View) (c : ClipCall) : Prop :=
  ClipListOk viewwidth (v.call c) ∧
    match c with
    | .solid first last => ∃ d, rClipSolidWallSegment v.clip first last = some d ∧ Draws v.solid first last d.stored
    | .pass first last =>
      ∃ d, rClipPassWallSegment v.clip first last = some d ∧ Draws v.solid first last d.stored ∧ d.clip = v.clip
    | .check sx1 sx2 =>
      ∃ r, rCheckSpan v.clip sx1 sx2 = some r ∧ (r = false → ∀ x, sx1 ≤ x → x ≤ sx2 - 1 → Covered v.solid x)

/-! ## The invariant -/

/-- The array begins with a list of posts that covers the right columns. -/
structure ClipInv (viewwidth : Int) (v : View) (l : List Cliprange) : Prop where
  width_le : viewwidth ≤ 0x7fffffff
  begins : Begins v.clip.solidsegs l
  length_le : l.length ≤ v.clip.newend
  apart : Apart l
  columns : ∀ x, Covered l x ↔ (-0x7fffffff ≤ x ∧ x ≤ -1) ∨ (viewwidth ≤ x ∧ x ≤ 0x7fffffff) ∨ Covered v.solid x
  inView : ∀ r ∈ v.solid, 0 ≤ r.first ∧ r.first ≤ r.last ∧ r.last < viewwidth

section Inv

variable {viewwidth x : Int} {v : View} {l : List Cliprange}

section

variable (h : ClipInv viewwidth v l)
include h

/-- What solid walls cover is in view, … -/
theorem ClipInv.solid_lt (hx : Covered v.solid x) : 0 ≤ x ∧ x < viewwidth := by
  obtain ⟨r, hr, hrx⟩ := hx
  have hin := h.inView r hr
  unfold Has at hrx
  omega

/-- … and in view there is always a post that ends at the column or to the right of it: the last
one, which the search relies on. -/
theorem ClipInv.right (hx : x < viewwidth) : ∃ p ∈ l, x ≤ p.last := by
  have hwidth := h.width_le
  obtain ⟨p, hp, hpx⟩ := (h.columns 0x7fffffff).mpr (Or.inr (Or.inl ⟨hwidth, Int.le_refl _⟩))
  exact ⟨p, hp, by unfold Has at hpx; omega⟩

/-- The last post reaches to the end, and not further. -/
theorem ClipInv.last {z : Cliprange} (hz : l.getLast? = some z) : z.last = 0x7fffffff := by
  have hwidth := h.width_le
  have hmem := mem_of_getLast? hz
  have hz' := h.apart.nonempty z hmem
  have hnotBeyond : z.last ≤ 0x7fffffff := by
    have hcolumn := (h.columns z.last).mp ⟨z, hmem, hz', Int.le_refl _⟩
    rcases hcolumn with hleft | hright | hsolid
    · omega
    · omega
    · have := h.solid_lt hsolid
      omega
  obtain ⟨p, hp, hpx⟩ := (h.columns 0x7fffffff).mpr (Or.inr (Or.inl ⟨hwidth, Int.le_refl _⟩))
  obtain ⟨init, rfl⟩ := getLast?_eq_some_iff.mp hz
  rcases mem_append.mp hp with hp | hp
  · have hbefore := (pairwise_append.mp h.apart.between).2.2 p hp z (mem_singleton_self _)
    unfold Has at hpx
    omega
  · obtain rfl := mem_singleton.mp hp
    unfold Has at hpx
    omega

theorem ClipInv.posts : v.clip.posts = l := by
  have hne : l ≠ [] := by
    rintro rfl
    obtain ⟨p, hp, _⟩ := h.right (x := viewwidth - 1) (by omega)
    nomatch hp
  refine posts_eq hne h.apart (fun z hz => h.last hz) (fun k p hk => ?_) h.length_le
  rw [Nat.zero_add]
  exact h.begins k p hk

theorem ClipInv.ok : ClipListOk viewwidth v := by
  have hposts := h.posts
  exact ⟨hposts ▸ h.apart, hposts ▸ h.columns⟩

/-- Inside of the view, covered means solid. -/
theorem ClipInv.covered_iff (hlo : 0 ≤ x) (hhi : x < viewwidth) : Covered l x ↔ Covered v.solid x := by
  rw [h.columns]
  refine ⟨fun hx => ?_, fun hx => Or.inr (Or.inr hx)⟩
  rcases hx with hleft | hright | hsolid
  · omega
  · omega
  · exact hsolid

/-- What is drawn is what no solid wall has covered before. -/
theorem ClipInv.draws {first last : Int} (hfirst : 0 ≤ first) (hlast : last < viewwidth) :
    Draws v.solid first last (gaps first last l) := by
  refine ⟨fun r hr => (le_of_mem_gaps hr).2.1, gaps_ordered h.apart, fun x => ?_⟩
  rw [mem_gaps h.apart]
  constructor
  · intro ⟨hlo, hhi, hx⟩
    exact ⟨hlo, hhi, fun hsolid => hx ((h.covered_iff (by omega) (by omega)).mpr hsolid)⟩
  · intro ⟨hlo, hhi, hx⟩
    exact ⟨hlo, hhi, fun hcov => hx ((h.covered_iff (by omega) (by omega)).mp hcov)⟩

/-- A solid wall, as far as the posts are concerned -/
theorem ClipInv.solid {first last : Int}
    (hfirst : 0 ≤ first) (hle : first ≤ last) (hlast : last < viewwidth) :
    ∃ d, rClipSolidWallSegment v.clip first last = some d ∧ d.stored = gaps first last l
      ∧ ClipInv viewwidth (v.call (.solid first last)) (join first last l)
      ∧ (v.call (.solid first last)).clip = d.clip ∧ Moved v.clip l (join first last l) d := by
  obtain ⟨d, hd, hstored, hbegins, hmoved⟩ :=
    solid_spec h.begins h.length_le h.apart hle (h.right hlast)
  have hcall : v.call (.solid first last) = ⟨d.clip, ⟨first, last⟩ :: v.solid⟩ := by
    rw [View.call, hd]
  refine ⟨d, hd, hstored, ?_, by rw [hcall], hmoved⟩
  rw [hcall]
  refine ⟨h.width_le, hbegins, ?_, (h.apart.join hle).1, fun x => ?_, fun r hr => ?_⟩
  · have hold := h.length_le
    dsimp only
    cases hmoved <;> omega
  · rw [mem_join hle h.apart, h.columns, covered_cons]
    exact or_left_comm.trans (or_congr_right or_left_comm)
  · rcases mem_cons.mp hr with rfl | hr
    · exact ⟨hfirst, hle, hlast⟩
    · exact h.inView r hr

end

end Inv

variable {viewwidth : Int}

/-- `R_ClearClipSegs` puts a post at either side of the view. -/
theorem clipInv_start (hpos : 0 < viewwidth) (hwidth : viewwidth ≤ 0x7fffffff) (before : Clip) :
    ClipInv viewwidth (View.start viewwidth before) [⟨-0x7fffffff, -1⟩, ⟨viewwidth, 0x7fffffff⟩] := by
  refine ⟨hwidth, ?_, Nat.le_refl _, ?_, fun x => ?_, nofun⟩
  · intro i p hi
    match i with
    | 0 => exact Option.some.inj hi
    | 1 => exact Option.some.inj hi
  · refine Apart.cons (by decide) (fun s hs => ?_) (Apart.cons hwidth nofun ?_)
    · obtain rfl := mem_singleton.mp hs
      dsimp only
      omega
    · exact ⟨nofun, List.Pairwise.nil⟩
  · simp [Covered, Has, View.start]

section

variable {v : View} {c : ClipCall} (hc : c.InView viewwidth) (h : ∃ l, ClipInv viewwidth v l)
include hc h

/-- The step: a call leaves a list that is apart again, and covers what it covered and the wall.
-/
theorem clipInv_call : ∃ l, ClipInv viewwidth (v.call c) l := by
  obtain ⟨l, h⟩ := h
  cases c with
  | solid first last =>
    obtain ⟨d, -, -, hinv, -⟩ := h.solid hc.1 hc.2.1 hc.2.2
    exact ⟨_, hinv⟩
  | pass first last => exact ⟨l, h⟩
  | check sx1 sx2 => exact ⟨l, h⟩

/-- From the invariant every call clips as it should. -/
theorem clips_of_inv : Clips viewwidth v c := by
  obtain ⟨l', hafter⟩ := clipInv_call hc h
  refine ⟨hafter.ok, ?_⟩
  obtain ⟨l, h⟩ := h
  cases c with
  | solid first last =>
    obtain ⟨d, hd, hstored, -⟩ := h.solid hc.1 hc.2.1 hc.2.2
    exact ⟨d, hd, hstored ▸ h.draws hc.1 hc.2.2⟩
  | pass first last =>
    obtain ⟨d, hd, hstored, hsame⟩ := pass_spec h.begins h.length_le h.apart hc.2.1 (h.right hc.2.2)
    exact ⟨d, hd, hstored ▸ h.draws hc.1 hc.2.2, hsame⟩
  | check sx1 sx2 =>
    obtain ⟨hlo, hhi⟩ := hc
    obtain ⟨r, hr, hcovered⟩ := @check_spec l v.clip sx1 sx2 h.begins h.length_le (h.right (by omega))
    exact ⟨r, hr, fun hfalse x hx hx' => (h.covered_iff (by omega) (by omega)).mp (hcovered hfalse x hx hx')⟩

end

/-- For every frame: each call draws its open columns, all of them, in order and once; the clip
list covers the solid columns and what is outside of the view; and `R_CheckBBox` gives up
only what is solid. -/
theorem clipping (viewwidth : Int) (hpos : 0 < viewwidth) (hwidth : viewwidth ≤ 0x7fffffff) (before : Clip)
    (calls : List ClipCall) (hcalls : ∀ c ∈ calls, c.InView viewwidth) :
    ClipListOk viewwidth (View.start viewwidth before)
      ∧ Along View.call (Clips viewwidth) (View.start viewwidth before) calls := by
  have hstart := clipInv_start hpos hwidth before
  refine ⟨hstart.ok, ?_⟩
  exact @Along.of_inv _ _ View.call (fun _ c => c.InView viewwidth) _ (fun v => ∃ l, ClipInv viewwidth v l)
    (fun v c hinv hc => clipInv_call hc hinv) (fun v c hinv hc => clips_of_inv hc hinv)
    calls _ (Along.of_forall calls _ hcalls) ⟨_, hstart⟩

def blankClip : Clip := ⟨fun _ => ⟨0, 0⟩, 0⟩

/-- Two walls with a window between them, and a wall behind -/
theorem clipping_window : Along View.call (Clips 320) (View.start 320 blankClip)
      [.solid 10 20, .pass 15 40, .solid 30 40, .check 12 18, .solid 0 319, .check 0 320] :=
  (clipping 320 (by decide) (by decide) blankClip _ (by simp [ClipCall.InView])).2

/-! ## The size of the array -/

/-- The clip list, and the elements written since `R_ClearClipSegs` -/
structure Tracked where
  clip : Clip
  written : List Nat

def writes (l : List Access) : List Nat :=
  l.filterMap fun
    | .write i => some i
    | .read _ => none

/-- The accesses are to elements of the array, and only to those that were written. -/
def AccessesOk : List Nat → List Access → Prop
  | _, [] => True
  | written, .read i :: l => i < maxsegs ∧ i ∈ written ∧ AccessesOk written l
  | written, .write i :: l => i < maxsegs ∧ AccessesOk (i :: written) l

def Tracked.solid (t : Tracked) (r : Range) : Tracked :=
  match rClipSolidWallSegment t.clip r.first r.last with
  | some d => ⟨d.clip, writes d.accesses ++ t.written⟩
  | none => t

def Tracked.start (viewwidth : Int) (before : Clip) : Tracked := ⟨rClearClipSegs viewwidth before, [0, 1]⟩

/-- The call stays inside of the array, and `newend` is the end of the list. -/
def Fits (t : Tracked) (r : Range) : Prop :=
  ∃ d, rClipSolidWallSegment t.clip r.first r.last = some d ∧ d.clip.newend ≤ maxsegs
    ∧ AccessesOk t.written d.accesses ∧ d.clip.newend = d.clip.posts.length

/-- The range touches one post of the list at most, and there is room for another one if it
touches none. -/
def TouchesOne (t : Tracked) (r : Range) : Prop :=
  (t.clip.posts.filter (Touches r.first r.last)).length ≤ 1 ∧
    ((t.clip.posts.filter (Touches r.first r.last)).length = 0 → t.clip.posts.length < maxsegs)

instance (t : Tracked) (r : Range) : Decidable (TouchesOne t r) := inferInstanceAs (Decidable (_ ∧ _))

/-- Accesses below the number of posts are accesses to entries that were written. -/
theorem accessesOk_of_lt {n : Nat} (hn : n ≤ maxsegs) : ∀ {log : List Access} {written : List Nat},
    (∀ i, i < n → i ∈ written) → (∀ a ∈ log, ∃ i, i < n ∧ (a = .read i ∨ a = .write i)) → AccessesOk written log
  | [], _, _, _ => trivial
  | a :: log, written, hwritten, hlog => by
    have hrest : ∀ b ∈ log, ∃ i, i < n ∧ (b = .read i ∨ b = .write i) := fun b hb => hlog b (mem_cons_of_mem _ hb)
    obtain ⟨i, hi, rfl | rfl⟩ := hlog a (mem_cons_self)
    · exact ⟨Nat.lt_of_lt_of_le hi hn, hwritten i hi, accessesOk_of_lt hn hwritten hrest⟩
    · exact ⟨Nat.lt_of_lt_of_le hi hn,
        accessesOk_of_lt hn (fun j hj => mem_cons_of_mem _ (hwritten j hj)) hrest⟩

/-- What one call writes the next may read. -/
theorem accessesOk_append : ∀ {log log' : List Access} {written : List Nat},
    AccessesOk written log → (∀ written', (∀ i ∈ written, i ∈ written') → AccessesOk written' log') →
    AccessesOk written (log ++ log')
  | [], _, written, _, h => h written fun _ hi => hi
  | .read i :: log, log', written, hlog, h => ⟨hlog.1, hlog.2.1, accessesOk_append hlog.2.2 h⟩
  | .write i :: log, log', written, hlog, h => by
    refine ⟨hlog.1, accessesOk_append hlog.2 fun written' hsub => h written' fun j hj => ?_⟩
    exact hsub j (mem_cons_of_mem _ hj)

/-- Moving posts up needs one element behind the list. -/
theorem accessesOk_shiftUp {n : Nat} : ∀ (count : Nat) (segs : Nat → Cliprange) (next : Nat) (written : List Nat),
    count ≤ next → next ≤ n → n < maxsegs → (∀ i, i < n → i ∈ written) →
    AccessesOk written (shiftUp count segs next).2
  | 0, _, _, _, _, _, _, _ => trivial
  | count + 1, segs, next, written, hcount, hnext, hn, hwritten => by
    refine ⟨by omega, hwritten _ (by omega), by omega, ?_⟩
    exact accessesOk_shiftUp count _ _ _ (by omega) (by omega) hn fun i hi => mem_cons_of_mem _ (hwritten i hi)

/-- As long as every range touches one post at most -/
structure TrackedInv (viewwidth : Int) (t : Tracked) (solid : List Range) (l : List Cliprange) : Prop where
  inv : ClipInv viewwidth ⟨t.clip, solid⟩ l
  newend : t.clip.newend = l.length
  room : l.length ≤ maxsegs
  written : ∀ i, i < l.length → i ∈ t.written

section Tracked

variable {viewwidth : Int} {t : Tracked} {solid : List Range} {l : List Cliprange} {r : Range}

/-- The call draws in the columns of the view. -/
def Range.InView (viewwidth : Int) (r : Range) : Prop := 0 ≤ r.first ∧ r.first ≤ r.last ∧ r.last < viewwidth

/-- A wall takes in the posts it touches and leaves one in their place. -/
theorem TrackedInv.touched (h : TrackedInv viewwidth t solid l) (hr : Range.InView viewwidth r) :
    (join r.first r.last l).length + (t.clip.posts.filter (Touches r.first r.last)).length = l.length + 1 := by
  have hposts : t.clip.posts = l := h.inv.posts
  rw [hposts]
  exact length_join hr.2.1 h.inv.apart

/-- A call stays inside the array, and ends its list where `newend` says, just if the wall touches
one post at most and finds room if it touches none. -/
theorem fits_iff (h : TrackedInv viewwidth t solid l) (hr : Range.InView viewwidth r) :
    Fits t r ↔ TouchesOne t r := by
  obtain ⟨d, hd, -, hinv, hclip, hmoved⟩ := h.inv.solid hr.1 hr.2.1 hr.2.2
  have hposts : t.clip.posts = l := h.inv.posts
  have hposts' : d.clip.posts = join r.first r.last l := by
    rw [← hclip]
    exact hinv.posts
  have htouched := h.touched hr
  have hnewend := h.newend
  have hroom := h.room
  have hfits : Fits t r ↔ d.clip.newend ≤ maxsegs ∧ AccessesOk t.written d.accesses
      ∧ d.clip.newend = (join r.first r.last l).length := by
    constructor
    · intro ⟨d', hd', hfits⟩
      cases hd.symm.trans hd'
      rwa [hposts'] at hfits
    · intro hfits
      exact ⟨d, hd, by rwa [hposts']⟩
  rw [hfits]
  unfold TouchesOne
  rw [congrArg List.length hposts]
  cases hmoved with
  | inserted start hstart hlength hend haccesses =>
    dsimp only at hend haccesses
    constructor
    · intro ⟨hle, _⟩
      omega
    · intro ⟨_, hlt⟩
      have hlt := hlt (by omega)
      refine ⟨by omega, ?_, by omega⟩
      rw [haccesses, hnewend]
      have hreads : ∀ a ∈ readsFrom 0 (start + 1), ∃ i, i < l.length ∧ (a = .read i ∨ a = .write i) := by
        intro a ha
        obtain ⟨i, hi, ha⟩ := @mem_accesses_start start False _ a (by rwa [if_neg id])
        exact ⟨i, by omega, ha⟩
      refine accessesOk_append (accessesOk_append (accessesOk_of_lt hroom h.written hreads) fun written hsub => ?_)
        fun written hsub => ⟨by omega, trivial⟩
      exact accessesOk_shiftUp _ _ _ _ (by omega) (Nat.le_refl _) hlt fun i hi => hsub i (h.written i hi)
  | extended hlength hend haccesses =>
    dsimp only at hend
    have haccess := accessesOk_of_lt hroom h.written haccesses
    exact ⟨fun _ => by omega, fun _ => ⟨by omega, haccess, by omega⟩⟩
  | removed n hn hlength hend =>
    dsimp only at hend
    -- `newend` is one behind the end of the list
    exact ⟨fun hfits => absurd hfits.2.2 (by omega), fun htouch => absurd htouch.1 (by omega)⟩

theorem mem_writes {i : Nat} {log : List Access} (h : .write i ∈ log) : i ∈ writes log :=
  mem_filterMap.mpr ⟨.write i, h, rfl⟩

/-- The step of the tracked run: the list, the walls and the log go on together. -/
theorem TrackedInv.call (h : TrackedInv viewwidth t solid l)
    (hr : Range.InView viewwidth r) (htouch : TouchesOne t r) :
    TrackedInv viewwidth (t.solid r) (r :: solid) (join r.first r.last l) := by
  obtain ⟨d, hd, -, hinv, hclip, hmoved⟩ := h.inv.solid hr.1 hr.2.1 hr.2.2
  have hposts : t.clip.posts = l := h.inv.posts
  have htouched := h.touched hr
  have hcall : t.solid r = ⟨d.clip, writes d.accesses ++ t.written⟩ := by
    rw [Tracked.solid, hd]
  have hview : View.call ⟨t.clip, solid⟩ (.solid r.first r.last) = ⟨d.clip, r :: solid⟩ := by
    rw [View.call, hd]
  have hnewend := h.newend
  have hroom := h.room
  rw [hview] at hinv
  rw [hcall]
  unfold TouchesOne at htouch
  rw [congrArg List.length hposts] at htouch
  have hold : ∀ i, i < l.length → i ∈ writes d.accesses ++ t.written :=
    fun i hi => mem_append_right _ (h.written i hi)
  cases hmoved with
  | inserted start hstart hlength hend haccesses =>
    dsimp only at hend haccesses
    refine ⟨hinv, by dsimp only; omega, by omega, fun i hi => ?_⟩
    rcases Nat.lt_or_eq_of_le (Nat.le_of_lt_succ (hlength ▸ hi)) with hlt | rfl
    · exact hold i hlt
    -- the element behind the list is written first
    refine mem_append_left _ (mem_writes ?_)
    obtain ⟨count, hcount⟩ : ∃ k, t.clip.newend - start = k + 1 :=
      Nat.exists_eq_succ_of_ne_zero (by omega)
    rw [haccesses, hcount, hnewend, shiftUp]
    simp
  | extended hlength hend haccesses =>
    dsimp only at hend
    exact ⟨hinv, by dsimp only; omega, by omega, fun i hi => hold i (by omega)⟩
  | removed n hn hlength hend => exact absurd htouch.1 (by omega)

end Tracked

/-- At the start the two posts are written, and nothing else. -/
theorem trackedInv_start (hpos : 0 < viewwidth) (hwidth : viewwidth ≤ 0x7fffffff) (before : Clip) :
    TrackedInv viewwidth (Tracked.start viewwidth before) [] [⟨-0x7fffffff, -1⟩, ⟨viewwidth, 0x7fffffff⟩] :=
  ⟨clipInv_start hpos hwidth before, rfl, (by decide : 2 ≤ maxsegs), fun i hi => by
    match i, hi with
    | 0, _ => exact mem_cons_self
    | 1, _ => exact mem_cons_of_mem _ (mem_cons_self)⟩

/-- The array is large enough, `newend` is the end of the list and only elements of the list are
looked at, if and only if no range touches two posts and there are never more than 32. -/
theorem clip_list_iff (viewwidth : Int) (hpos : 0 < viewwidth) (hwidth : viewwidth ≤ 320) (before : Clip)
    (ranges : List Range) (hranges : ∀ r ∈ ranges, Range.InView viewwidth r) :
    Along Tracked.solid Fits (Tracked.start viewwidth before) ranges
      ↔ Along Tracked.solid TouchesOne (Tracked.start viewwidth before) ranges := by
  have hwidth' : viewwidth ≤ 0x7fffffff := by omega
  refine @Along.iff_of_inv _ _ Tracked.solid (fun _ r => Range.InView viewwidth r) _
    (fun t => ∃ solid l, TrackedInv viewwidth t solid l) _ ?_ ?_ ranges _ (Along.of_forall ranges _ hranges)
    ⟨_, _, trackedInv_start hpos hwidth' before⟩
  · intro t r ⟨solid, l, hinv⟩ hr
    exact fits_iff hinv hr
  · intro t r ⟨solid, l, hinv⟩ hr htouch
    exact ⟨_, _, hinv.call hr htouch⟩

/-- Two walls, and one that the first of them covers a part of -/
theorem clip_list_overlapping :
    Along Tracked.solid Fits (Tracked.start 320 blankClip) [⟨10, 20⟩, ⟨30, 40⟩, ⟨12, 25⟩] :=
  (clip_list_iff 320 (by decide) (by decide) blankClip _ (by simp [Range.InView])).mpr (by decide)

/-- A wall that closes the gap between two others: there are three posts, and `newend` is 4. -/
theorem clip_list_closed :
    ¬ Along Tracked.solid Fits (Tracked.start 320 blankClip) [⟨10, 20⟩, ⟨30, 40⟩, ⟨15, 35⟩] := by
  intro h
  obtain ⟨d, hd, -, -, hcount⟩ := h.2.2.1
  have hdiffer : ((rClipSolidWallSegment (((Tracked.start 320 blankClip).solid ⟨10, 20⟩).solid ⟨30, 40⟩).clip
      15 35).map fun d => decide (d.clip.newend = d.clip.posts.length)) = some false := by decide
  rw [hd] at hdiffer
  simp [hcount] at hdiffer

end Barebox.Doom
