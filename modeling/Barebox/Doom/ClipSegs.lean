import Barebox.Lib.Cover

/-!
# Clipping walls — `commands/doom/r_bsp.c`

Walls are drawn from front to back. The columns that a solid wall was drawn in are kept in
`solidsegs`, as a list of posts in an array; a further wall is drawn in the columns that are
still open. Two outer posts stand for what is left and right of the view.

The list ends with the post that reaches to `0x7fffffff`, and that is where all loops stop.
`newend` is only used to move posts: it is not below the end of the list, but need not be
its end. Removing posts (`crunch`) leaves it one too high, because the loop looks whether it
is at `newend` before it goes on and so copies the element at `newend` as well.

Mirroring notes:
- the array goes on without an end; the elements that a call accesses are listed, so that the
  size of the array can be talked about. `MAXSEGS` is its size.
- a loop that looks for a post has fuel for `newend` of them, and gives no result if that is
  not enough.
- `R_StoreWallRange` is the list of its calls.
- all numbers stay in the range of an `int`.
-/

namespace Barebox.Doom

open Lib

/-- `cliprange_t` -/
abbrev Cliprange : Type := Range

def maxsegs : Nat := 32

/-- An access to an element of `solidsegs` -/
inductive Access where
  | read (i : Nat)
  | write (i : Nat)
  deriving DecidableEq

structure Clip where
  solidsegs : Nat → Cliprange
  newend : Nat

/-- What a call does: the list afterwards, what is drawn, and the elements it accesses -/
structure Drawn where
  clip : Clip
  stored : List Range
  accesses : List Access

def put (segs : Nat → Cliprange) (i : Nat) (p : Cliprange) : Nat → Cliprange := fun j => if j = i then p else segs j

def rClearClipSegs (viewwidth : Int) (s : Clip) : Clip :=
  ⟨put (put s.solidsegs 0 ⟨-0x7fffffff, -1⟩) 1 ⟨viewwidth, 0x7fffffff⟩, 2⟩

/-! ## Loops -/

/-- `while (start->last < bound) start++` -/
def findStart (segs : Nat → Cliprange) (bound : Int) : Nat → Nat → Option (Nat × List Access)
  | 0, _ => none
  | fuel + 1, start =>
    if (segs start).last < bound then
      (findStart segs bound fuel (start + 1)).map fun r => (r.1, .read start :: r.2)
    else some (start, [.read start])

/-- `while (next != start)`, with `count` elements between them: make room for a post. -/
def shiftUp : Nat → (Nat → Cliprange) → Nat → (Nat → Cliprange) × List Access
  | 0, segs, _ => (segs, [])
  | count + 1, segs, next =>
    let r := shiftUp count (put segs next (segs (next - 1))) (next - 1)
    (r.1, .read (next - 1) :: .write next :: r.2)

/-- What is between `next` and the posts behind it, up to `last` -/
structure Between where
  next : Nat
  /-- the new end of the post: that of `next`, if it contains `last` -/
  bottom : Int
  stored : List Range
  accesses : List Access

/-- `while (last >= (next+1)->first-1)`, and the fragment after `*next` -/
def fillBetween (segs : Nat → Cliprange) (last : Int) : Nat → Nat → Option Between
  | 0, _ => none
  | fuel + 1, next =>
    if last ≥ (segs (next + 1)).first - 1 then
      let fragment : Range := ⟨(segs next).last + 1, (segs (next + 1)).first - 1⟩
      if last ≤ (segs (next + 1)).last then
        some ⟨next + 1, (segs (next + 1)).last, [fragment], [.read (next + 1)]⟩
      else
        (fillBetween segs last fuel (next + 1)).map fun r =>
          { r with stored := fragment :: r.stored, accesses := .read (next + 1) :: r.accesses }
    else some ⟨next, last, [⟨(segs next).last + 1, last⟩], [.read (next + 1)]⟩

/-- `while (next++ != newend)`, with `count` elements between them: remove `start+1` to `next`. -/
def crunch : Nat → (Nat → Cliprange) → Nat → Nat → (Nat → Cliprange) × Nat × List Access
  | 0, segs, start, _ => (segs, start, [])
  | count + 1, segs, start, next =>
    let r := crunch count (put segs (start + 1) (segs (next + 1))) (start + 1) (next + 1)
    (r.1, r.2.1, .read (next + 1) :: .write (start + 1) :: r.2.2)

/-! ## Calls -/

def rClipSolidWallSegment (s : Clip) (first last : Int) : Option Drawn :=
  match findStart s.solidsegs (first - 1) s.newend 0 with
  | none => none
  | some (start, looked) =>
    if first < (s.solidsegs start).first ∧ last < (s.solidsegs start).first - 1 then
      -- entirely visible: a new post
      let r := shiftUp (s.newend - start) s.solidsegs s.newend
      some ⟨⟨put r.1 start ⟨first, last⟩, s.newend + 1⟩, [⟨first, last⟩], looked ++ r.2 ++ [.write start]⟩
    else
      -- a fragment above `*start`
      let above := first < (s.solidsegs start).first
      let stored : List Range := if above then [⟨first, (s.solidsegs start).first - 1⟩] else []
      let segs := if above then put s.solidsegs start ⟨first, (s.solidsegs start).last⟩ else s.solidsegs
      let accesses : List Access := if above then looked ++ [.write start] else looked
      if last ≤ (segs start).last then some ⟨⟨segs, s.newend⟩, stored, accesses⟩
      else
        match fillBetween segs last s.newend start with
        | none => none
        | some b =>
          let segs := put segs start ⟨(segs start).first, b.bottom⟩
          if b.next = start then
            some ⟨⟨segs, s.newend⟩, stored ++ b.stored, accesses ++ b.accesses ++ [.write start]⟩
          else
            let r := crunch (s.newend - b.next) segs start b.next
            some ⟨⟨r.1, r.2.1 + 1⟩, stored ++ b.stored, accesses ++ b.accesses ++ [.write start] ++ r.2.2⟩

/-- `R_ClipPassWallSegment`, with the same loops; the list stays as it is. -/
def rClipPassWallSegment (s : Clip) (first last : Int) : Option Drawn :=
  match findStart s.solidsegs (first - 1) s.newend 0 with
  | none => none
  | some (start, looked) =>
    if first < (s.solidsegs start).first ∧ last < (s.solidsegs start).first - 1 then
      some ⟨s, [⟨first, last⟩], looked⟩
    else
      let stored : List Range :=
        if first < (s.solidsegs start).first then [⟨first, (s.solidsegs start).first - 1⟩] else []
      if last ≤ (s.solidsegs start).last then some ⟨s, stored, looked⟩
      else
        match fillBetween s.solidsegs last s.newend start with
        | none => none
        | some b => some ⟨s, stored ++ b.stored, looked ++ b.accesses⟩

/-- The end of `R_CheckBBox`: is a column from `sx1` to before `sx2` open? -/
def rCheckSpan (s : Clip) (sx1 sx2 : Int) : Option Bool :=
  if sx1 = sx2 then some false
  else
    match findStart s.solidsegs (sx2 - 1) s.newend 0 with
    | none => none
    | some (start, _) =>
      some (!(decide (sx1 ≥ (s.solidsegs start).first) && decide (sx2 - 1 ≤ (s.solidsegs start).last)))

/-! ## The list -/

/-- The posts from `i` up to the one that reaches to `0x7fffffff` -/
def postsFrom (segs : Nat → Cliprange) : Nat → Nat → List Cliprange
  | 0, _ => []
  | fuel + 1, i =>
    if (segs i).last = 0x7fffffff then [segs i] else segs i :: postsFrom segs fuel (i + 1)

def Clip.posts (s : Clip) : List Cliprange := postsFrom s.solidsegs s.newend 0

end Barebox.Doom
