import Barebox.Fit.Digest
import Barebox.Of.Walk

/-!
# The digest's walk and the tree

`fit_digest` walks the blob the tree was unflattened from. The two walks
are run side by side here: they read the same tags, and the local variables
of the one say something about the cursor of the other (`Aligned`) — the
path is the full name of the current node, and `want` is 2 exactly if that
name is in the list.

It takes a tame blob: tags that lead forward, names without a slash (a
slash in a name is one component of the path when the node begins and two
when it ends), and paths within the limits of the digest's buffers.

The result, `digest_walk`: the walk comes to its end, and a property other
than `data` is covered if its node is listed; if its node is not listed,
not even its tag is.
-/

namespace Barebox.Fit

open Lib Of List

/-- A path as the digest spells it. -/
def digestPath (fullName : Bytes) : Bytes := if fullName = [] then [slash] else fullName

/-- The full names of the current node and its ancestors. -/
def chain : Cursor → List Bytes
  | .outside _ => []
  | .inside node parents => node.fullName :: parents.map Node.fullName

/-- Full names that extend each other, by names without a slash. -/
inductive Chain : List Bytes → Prop where
  | root : Chain [[]]
  | child {p : Bytes} {ps : List Bytes} (name : Bytes) : Chain (p :: ps) → name ≠ [] → slash ∉ name →
      Chain ((p ++ [slash] ++ name) :: p :: ps)

def Named : Cursor → Prop
  | .outside root => root.fullName = []
  | .inside node parents => Chain (node.fullName :: parents.map Node.fullName)

/-- What `path` is. In the root it is a slash until the first child ends,
and empty from then on. -/
def PathOf : List Bytes → Bytes → Prop
  | [], path => path = []
  | [_], path => path = [] ∨ path = [slash]
  | n :: _ :: _, path => path = n

/-- What `want` and the stack of former `want`s are. -/
def Wants (incNodes : List Bytes) : List Bytes → List Nat → Prop
  | [], ws => ws = [0]
  | n :: ns, w :: ws => w ≤ 2 ∧ (2 ≤ w ↔ digestPath n ∈ incNodes) ∧ Wants incNodes ns ws
  | _ :: _, [] => False

/-- The variables of the digest that follow the cursor. -/
structure Aligned (incNodes : List Bytes) (c : Cursor) (path : Bytes) (want : Nat)
    (stack : List Nat) : Prop where
  named : Named c
  path : PathOf (chain c) path
  wants : Wants incNodes (chain c) (want :: stack)

/-- A node name and its path that the digest can follow. -/
structure TameName (k : Bytes × Bytes) : Prop where
  noSlash : slash ∉ k.1
  depth : k.2.count slash < fdtMaxDepth
  short : k.2.length + (if k.2.count slash = 1 then 2 else 1) < fdtMaxPathLen

/-! ## Paths -/

variable {n p path : Bytes} {ns : List Bytes} {root : Node}
variable {name : Bytes} {want size : Nat} {tag : Tag}

theorem Chain.count (h : Chain (n :: ns)) : n.count slash = ns.length := by
  generalize hl : n :: ns = l at h
  induction h generalizing n ns with
  | root =>
    cases hl
    rfl
  | @child p ps name hc hne hslash ih =>
    cases hl
    rw [count_append, count_append, ih rfl, count_eq_zero.mpr hslash]
    rfl

theorem Chain.root_name (h : Chain [n]) : n = [] := by
  cases h
  rfl

theorem Chain.parent (h : Chain (n :: p :: ns)) : Chain (p :: ns) := by
  cases h with
  | child name hp hne hslash => exact hp

theorem Chain.length (h : Chain (n :: p :: ns)) : 2 ≤ n.length := by
  cases h with
  | child name hc hne hslash =>
    have hpos := length_pos_iff.mpr hne
    rw [length_append, length_append, length_singleton]
    omega

theorem digestPath_child :
    digestPath (p ++ [slash] ++ name) = p ++ [slash] ++ name := by
  unfold digestPath
  simp

/-- Cutting at the last slash undoes entering a child. -/
theorem popPath_child (p : Bytes) (h : slash ∉ name) : popPath (p ++ [slash] ++ name) = p := by
  unfold popPath
  have hdrop : (p ++ [slash] ++ name).reverse.dropWhile (· ≠ slash) = slash :: p.reverse := by
    rw [reverse_append, reverse_append, dropWhile_append_of_pos]
    · rfl
    · intro c hc
      rw [mem_reverse] at hc
      exact decide_eq_true fun heq => h (heq ▸ hc)
  rw [hdrop, drop_one, tail_cons, reverse_reverse]

/-- Closing a node takes its name off the path. -/
theorem PathOf.pop (hc : Chain (n :: p :: ns))
    (h : PathOf (n :: p :: ns) path) : PathOf (p :: ns) (popPath path) := by
  obtain rfl : path = n := h
  cases hc with
  | child name hp hne hslash =>
    rw [popPath_child p hslash]
    cases ns with
    | nil =>
      cases hp
      exact Or.inl rfl
    | cons q ns => exact rfl

/-- The path of a new child, however the root is spelt. -/
theorem PathOf.push (hc : Chain (n :: ns)) (h : PathOf (n :: ns) path) (name : Bytes) :
    (if path.length ≠ 1 then path ++ [slash] else path) ++ name = n ++ [slash] ++ name := by
  cases ns with
  | nil =>
    cases hc
    rcases h with rfl | rfl
    · rfl
    · rfl
  | cons p ns =>
    obtain rfl : path = n := h
    have hlen := hc.length
    rw [if_pos (by omega)]

variable {incNodes : List Bytes}

theorem Wants.length : ∀ {ns : List Bytes} {ws : List Nat},
    Wants incNodes ns ws → ws.length = ns.length + 1
  | [], ws, h => by
    obtain rfl : ws = [0] := h
    rfl
  | _ :: ns, w :: ws, h => by
    rw [length_cons, length_cons, Wants.length h.2.2]
  | _ :: _, [], h => h.elim

/-! ## One tag -/

variable {mem : Bytes}

theorem slice_of_cstringAt {off : Nat} {s : Bytes} (h : cstringAt mem off = some s) :
    slice off s.length mem = s := by
  unfold cstringAt at h
  dsimp only at h
  split at h
  · cases h
    exact (prefix_iff_eq_take.mp (List.takeWhile_prefix _)).symm
  · cases h

variable {f : FdtHeader}

/-- A node begins, within the limits. -/
theorem digestBegin_ok (incNodes : List Bytes) {s : DigestState}
    (hend : f.structEnd < 2 ^ 31) (hname : cstringAt mem (s.dt + 4) = some name)
    (hfwd : s.dt + (4 + name.length + 1) ≤ dtStructAdvance f s.dt (4 + name.length + 1))
    (hdepth : s.stack.length ≠ fdtMaxDepth) (hshort : s.path.length + 2 + name.length < fdtMaxPathLen)
    (hpath : (if s.path.length ≠ 1 then s.path ++ [slash] else s.path) ++ name = path)
    (hwant : (if path ∈ incNodes then 2 else s.want - 1) = want) : digestBegin mem f incNodes s
      = .ok ⟨path, s.want :: s.stack, want, 4 + name.length + 1, want ≠ 0⟩ := by
  obtain ⟨hmax, hlt⟩ := maxlen_begin hfwd
  have hint : toInt32 (f.maxlen (s.dt + 4)) = (f.structEnd - (s.dt + 4) : Nat) := by
    unfold toInt32
    rw [hmax, if_pos (by omega)]
  have hbound : (((f.structEnd - (s.dt + 4) : Nat) : Int) + 1) % 2 ^ 64
      = ((f.structEnd - (s.dt + 4) + 1 : Nat) : Int) := by
    omega
  unfold digestBegin
  dsimp only
  rw [hint, hbound, strnlenAt_of_cstringAt hname (by omega)]
  dsimp only
  rw [if_neg (by omega), if_neg hdepth, if_neg (by omega), slice_of_cstringAt hname, hpath, hwant]

/-- The new `want` is 2 exactly for a listed node. -/
theorem want_begin (incNodes : List Bytes) (path : Bytes) (h : want ≤ 2) :
    (if path ∈ incNodes then 2 else want - 1) ≤ 2 ∧
      (2 ≤ (if path ∈ incNodes then 2 else want - 1) ↔ path ∈ incNodes) := by
  split
  · next hmem => exact ⟨Nat.le_refl _, fun _ => hmem, fun _ => Nat.le_refl _⟩
  · next hmem => exact ⟨by omega, fun hle => by omega, fun h => absurd h hmem⟩

theorem Wants.le {w : Nat} {ws : List Nat} (h : Wants incNodes ns (w :: ws)) : w ≤ 2 := by
  cases ns with
  | nil =>
    obtain ⟨rfl, -⟩ := List.cons.inj h
    exact Nat.zero_le _
  | cons n ns => exact h.1

variable {d : DigestState}

/-- The root begins. -/
theorem Aligned.openRoot (hend : f.structEnd < 2 ^ 31)
    (h : Aligned incNodes (.outside root) d.path d.want d.stack)
    (hname : cstringAt mem (d.dt + 4) = some []) (hfwd : d.dt + 5 ≤ dtStructAdvance f d.dt 5) :
    ∃ r, digestBegin mem f incNodes d = .ok r ∧ r.size = 5 ∧
      Aligned incNodes (.inside root []) r.path r.want r.stack := by
  obtain ⟨hroot, hpath, hwants⟩ := h
  obtain ⟨hwant, hstack⟩ : d.want = 0 ∧ d.stack = [] := List.cons.inj hwants
  have hp : d.path = [] := hpath
  have hpush : (if d.path.length ≠ 1 then d.path ++ [slash] else d.path) ++ [] = [slash] := by
    rw [hp]
    rfl
  refine ⟨_, digestBegin_ok incNodes hend hname hfwd (by rw [hstack]; decide)
    (by rw [hp]; decide) hpush rfl, rfl, ?_, Or.inr rfl, ?_⟩
  · show Chain [root.fullName]
    rw [hroot]
    exact .root
  · obtain ⟨hle, hiff⟩ := want_begin incNodes [slash] (Wants.le hwants)
    refine ⟨hle, ?_, ?_⟩
    · rw [hroot]
      exact hiff
    · rw [hwant, hstack]
      exact rfl

/-- A child begins. -/
theorem Aligned.openChild {node : Node} {parents : List Node} (hend : f.structEnd < 2 ^ 31)
    (h : Aligned incNodes (.inside node parents) d.path d.want d.stack)
    (hname : cstringAt mem (d.dt + 4) = some name) (hne : name ≠ [])
    (hfwd : d.dt + (4 + name.length + 1) ≤ dtStructAdvance f d.dt (4 + name.length + 1))
    (htame : TameName (name, (ofNewNode node name).fullName)) :
    ∃ r, digestBegin mem f incNodes d = .ok r ∧ r.size = 4 + name.length + 1 ∧
      Aligned incNodes (.inside (ofNewNode node name) (node :: parents)) r.path r.want r.stack := by
  obtain ⟨hchain, hpath, hwants⟩ := h
  have hfull : (ofNewNode node name).fullName = node.fullName ++ [slash] ++ name := rfl
  have hnew : Chain (chain (.inside (ofNewNode node name) (node :: parents))) :=
    .child name hchain hne htame.noSlash
  have hpush := PathOf.push hchain hpath name
  -- one level of the stack for each slash in the path
  have hcount : (ofNewNode node name).fullName.count slash = parents.length + 1 := by
    have := Chain.count hnew
    rw [length_map] at this
    exact this
  have hdepth : d.stack.length ≠ fdtMaxDepth := by
    have hlen := hwants.length
    have hlt := htame.depth
    rw [hcount] at hlt
    simp only [chain, length_cons, length_map] at hlen
    omega
  have hshort : d.path.length + 2 + name.length < fdtMaxPathLen := by
    have hlt := htame.short
    rw [hcount, hfull, length_append, length_append, length_singleton] at hlt
    cases parents with
    | nil =>
      have hroot : node.fullName = [] := Chain.root_name hchain
      rw [hroot, length_nil, length_nil, if_pos rfl] at hlt
      have hp : d.path.length ≤ 1 := by
        rcases hpath with hp | hp
        · rw [hp]
          exact Nat.zero_le _
        · rw [hp]
          exact Nat.le_refl _
      omega
    | cons q parents =>
      have hp : d.path = node.fullName := hpath
      rw [if_neg (by simp)] at hlt
      rw [hp]
      omega
  refine ⟨_, digestBegin_ok incNodes hend hname hfwd hdepth hshort hpush rfl, rfl, hnew, hfull, ?_⟩
  obtain ⟨hle, hiff⟩ := want_begin incNodes (node.fullName ++ [slash] ++ name) hwants.le
  refine ⟨hle, ?_, hwants⟩
  rw [hfull, digestPath_child]
  exact hiff

/-- A node ends. -/
theorem Aligned.close {c c' : Cursor} (h : Aligned incNodes c d.path d.want d.stack)
    (hstep : CursorStep mem f d.dt .endNode c c') :
    ∃ r, digestEnd d = .ok r ∧ r.size = 4 ∧ Aligned incNodes c' r.path r.want r.stack := by
  obtain ⟨hnamed, hpath, hwants⟩ := h
  unfold digestEnd
  cases hstep with
  | closeRoot node =>
    obtain ⟨-, -, hrest⟩ := hwants
    have hstack : d.stack = [0] := hrest
    rw [hstack]
    refine ⟨_, rfl, rfl, Chain.root_name hnamed, ?_, rfl⟩
    rcases hpath with hp | hp
    · rw [hp]
      rfl
    · rw [hp]
      rfl
  | closeChild node parent parents =>
    obtain ⟨-, -, hrest⟩ := hwants
    cases hstack : d.stack with
    | nil =>
      rw [hstack] at hrest
      exact hrest.elim
    | cons want stack =>
      rw [hstack] at hrest
      exact ⟨_, rfl, rfl, Chain.parent hnamed, PathOf.pop hnamed hpath, hrest⟩

/-- A property: kept if its node is listed and it is not `data`. -/
theorem digestProp_ok {p : Property} (h : PropAt mem f d.dt p) :
    ∃ r, digestProp mem f [cstr "data"] d = .ok r ∧ r.size = 12 + p.length ∧ r.path = d.path ∧
      r.want = d.want ∧ r.stack = d.stack ∧
      (p.name ≠ cstr "data" → (r.keep = true ↔ 2 ≤ d.want)) := by
  obtain ⟨nameoff, hoff, hle, hname⟩ := h.name
  unfold digestProp
  rw [h.length, hoff]
  dsimp only
  unfold dtString
  rw [if_neg (Nat.not_lt.mpr hle)]
  dsimp only
  rw [hname]
  refine ⟨_, rfl, rfl, rfl, rfl, rfl, fun hdata => ?_⟩
  rw [decide_eq_true_eq]
  refine ⟨fun hkeep => hkeep.1, fun hwant => ⟨hwant, fun hmem => ?_⟩⟩
  rw [mem_singleton] at hmem
  exact hdata hmem

/-- Properties do not change the chain. -/
theorem Aligned.addProp {node : Node} {parents : List Node}
    {stack : List Nat} (h : Aligned incNodes (.inside node parents) path want stack)
    (p : Property) : Aligned incNodes (.inside (node.addProp p) parents) path want stack :=
  ⟨h.named, h.path, h.wants⟩

/-- **One tag**, handled by both walks. -/
theorem Aligned.step {c c' : Cursor} (hend : f.structEnd < 2 ^ 31)
    (h : Aligned incNodes c d.path d.want d.stack) (hstep : CursorStep mem f d.dt tag c c')
    (hsize : tagSize mem d.dt tag = some size) (hfwd : d.dt + size ≤ dtStructAdvance f d.dt size)
    (htame : ∀ k ∈ c'.root.keys, TameName k) :
    ∃ r, digestTag mem f incNodes [cstr "data"] d tag = .ok r ∧ r.size = size ∧
      Aligned incNodes c' r.path r.want r.stack ∧
      (tag = .prop → ∀ p, PropAt mem f d.dt p → p.name ≠ cstr "data" →
        (r.keep = true ↔ 2 ≤ d.want)) := by
  cases hstep with
  | openRoot root hname =>
    rw [tagSize, hname] at hsize
    cases hsize
    obtain ⟨r, hr, hrsize, hal⟩ := h.openRoot hend hname hfwd
    exact ⟨r, hr, hrsize, hal, by simp⟩
  | openChild node parents name hname hne =>
    rw [tagSize, hname] at hsize
    cases hsize
    -- the new node is in the tree that is read at the end, so its name is tame
    have hkey : TameName (name, (ofNewNode node name).fullName) := by
      refine htame _ (mem_map.mpr ⟨(ofNewNode node name).info, ?_, rfl⟩)
      exact mem_flat_closeAll.mpr (Or.inl (info_mem_flat _))
    obtain ⟨r, hr, hrsize, hal⟩ := h.openChild hend hname hne hfwd hkey
    exact ⟨r, hr, hrsize, hal, by simp⟩
  | closeRoot node =>
    cases hsize
    have hclose : CursorStep mem f d.dt .endNode (.inside node []) (.outside node) :=
      .closeRoot node
    obtain ⟨r, hr, hrsize, hal⟩ := h.close hclose
    exact ⟨r, hr, hrsize, hal, by simp⟩
  | closeChild node parent parents =>
    cases hsize
    have hclose : CursorStep mem f d.dt .endNode (.inside node (parent :: parents)) _ :=
      .closeChild node parent parents
    obtain ⟨r, hr, hrsize, hal⟩ := h.close hclose
    exact ⟨r, hr, hrsize, hal, by simp⟩
  | prop node parents p hp =>
    rw [tagSize, hp.length] at hsize
    cases hsize
    obtain ⟨r, hr, hrsize, hpath, hwant, hstack, -⟩ := digestProp_ok hp
    refine ⟨r, hr, hrsize, ?_, ?_⟩
    · rw [hpath, hwant, hstack]
      exact h.addProp p
    · intro _ q hq hdata
      obtain ⟨r', hr', -, -, -, -, hkeep⟩ := digestProp_ok hq
      cases hr.symm.trans hr'
      exact hkeep hdata
  | nop c =>
    cases hsize
    exact ⟨_, rfl, rfl, h, by simp⟩

/-! ## One turn -/

/-- What is known of a property with its tag at `off`, in a node of that
full name, when the digest has come to `pos`. -/
structure Judged (incNodes : List Bytes) (fullName : Bytes) (spans : Spans) (pos off len : Nat) :
    Prop where
  before : off + 12 + len ≤ pos
  covered : digestPath fullName ∈ incNodes → ∀ i, off ≤ i → i < off + 12 + len → spans.Covers pos i
  left : digestPath fullName ∉ incNodes → ¬ spans.Covers pos off

/-- A judgement is final. -/
theorem Judged.note {fullName : Bytes} {spans : Spans} {pos pos' off len : Nat}
    (h : Judged incNodes fullName spans pos off len) (hbelow : spans.Below pos) (hle : pos ≤ pos')
    (keep : Bool) : Judged incNodes fullName (spans.note pos keep) pos' off len := by
  refine ⟨Nat.le_trans h.before hle, fun hin i hge hlt => ?_, fun hout hcov => ?_⟩
  · exact (Spans.note_covers hbelow hle keep i).mpr (Or.inl (h.covered hin i hge hlt))
  · rcases (Spans.note_covers hbelow hle keep off).mp hcov with hcov | ⟨-, hge, -⟩
    · exact h.left hout hcov
    · have := h.before
      omega

/-- The two walks at the same tag. -/
structure Lockstep (f : FdtHeader) (incNodes : List Bytes) (u : Unflatten) (d : DigestState) :
    Prop where
  dt : d.dt = u.dt
  aligned : Aligned incNodes u.node d.path d.want d.stack
  below : d.spans.Below d.dt
  inside : ∀ i, d.spans.Covers d.dt i → f.offDtStruct ≤ i
  start : f.offDtStruct ≤ d.dt
  judged : ∀ x ∈ u.node.root.flat, ∀ p ∈ x.props, ∀ a, p.constAt = some a → p.name ≠ cstr "data" →
    ∃ off, a = off + 12 ∧ f.offDtStruct ≤ off ∧
      Judged incNodes x.fullName d.spans d.dt off p.length

/-- A turn of the digest over a tag that leads forward. -/
theorem digestTurn_eq {excProps : List Bytes} {r : TagResult} (htag : tagAt mem d.dt = some tag)
    (hr : digestTag mem f incNodes excProps d tag = .ok r) (hbelow : d.spans.Below d.dt)
    (hpos : 0 < r.size) (hfwd : d.dt + r.size ≤ dtStructAdvance f d.dt r.size) :
    digestTurn mem f incNodes excProps d
      = if tag ≠ .stop then
          .next ⟨dtStructAdvance f d.dt r.size, r.path, r.stack, r.want, d.spans.note d.dt r.keep⟩
        else .done ((d.spans.note d.dt r.keep).finish (dtStructAdvance f d.dt r.size)) := by
  obtain ⟨word, hword, hword'⟩ := Option.bind_eq_some_iff.mp htag
  have hopened : ∀ (s : Spans) (pos : Nat), s.Below pos →
      (s.opened.any fun start => decide (pos < start)) = false := by
    intro s pos h
    cases ho : s.opened with
    | none => rfl
    | some st =>
      have := h.opened st ho
      simp
      omega
  have hnote := hbelow.note (Nat.le_trans (Nat.le_add_right _ _) hfwd) r.keep
  unfold digestTurn
  rw [hword]
  dsimp only
  rw [hword']
  dsimp only
  rw [hr]
  dsimp only
  split
  · omega
  · rw [hopened _ _ hbelow, Bool.and_false, hopened _ _ hnote]
    rfl

/-- **Both walks go on**, and stay together. -/
theorem Lockstep.step {u u' : Unflatten} (hend : f.structEnd < 2 ^ 31)
    (h : Lockstep f incNodes u d) (hturn : unflattenTurn mem true f u = .next u')
    (htag : tagAt mem u.dt = some tag) (hsize : tagSize mem u.dt tag = some size)
    (hfwd : u.dt + size ≤ dtStructAdvance f u.dt size) (htame : ∀ k ∈ u'.node.root.keys, TameName k) :
    ∃ d', digestTurn mem f incNodes [cstr "data"] d = .next d' ∧ Lockstep f incNodes u' d' := by
  obtain ⟨tag', htag', hne, hstep, hdt⟩ := unflattenTurn_next hturn
  cases htag.symm.trans htag'
  have hdt := hdt size hsize hfwd
  rw [← h.dt] at htag hsize hfwd hdt hstep
  obtain ⟨r, hr, rfl, haligned, hkeep⟩ := h.aligned.step hend hstep hsize hfwd htame
  have hle : d.dt ≤ dtStructAdvance f d.dt r.size := Nat.le_trans (Nat.le_add_right _ _) hfwd
  have hpos := tagSize_pos hsize
  have hcovers := Spans.note_covers h.below hle r.keep
  refine ⟨_, (digestTurn_eq htag hr h.below (by omega) hfwd).trans (if_pos hne), hdt.symm, haligned,
    h.below.note hle r.keep, ?_, Nat.le_trans h.start hle, ?_⟩
  · intro i hi
    rcases (hcovers i).mp hi with hi | ⟨-, hge, -⟩
    · exact h.inside i hi
    · exact Nat.le_trans h.start hge
  · intro x hx p hp a ha hdata
    rcases hstep.flat hx hp with ⟨y, hy, hfull, hpy⟩ | ⟨rfl, hat, node, parents, hc, hfull⟩
    · obtain ⟨off, rfl, hge, hj⟩ := h.judged y hy p hpy a ha hdata
      exact ⟨off, rfl, hge, hfull ▸ hj.note h.below hle r.keep⟩
    -- the property this turn is about
    cases hat.at_.symm.trans ha
    have hlisted : r.keep = true ↔ digestPath x.fullName ∈ incNodes := by
      have hwants := h.aligned.wants
      rw [hc] at hwants
      rw [hkeep rfl p hat hdata, hfull]
      exact hwants.2.1
    have hlen : r.size = 12 + p.length := by
      rw [tagSize, hat.length] at hsize
      exact (Option.some.inj hsize).symm
    refine ⟨d.dt, rfl, h.start, ⟨?_, fun hin i hge hlt => ?_, fun hout hcov => ?_⟩⟩
    · exact Nat.le_trans (by omega) hfwd
    · refine (hcovers i).mpr (Or.inr ⟨hlisted.mpr hin, hge, ?_⟩)
      omega
    · rcases (hcovers d.dt).mp hcov with hcov | ⟨hk, -⟩
      · exact Nat.lt_irrefl _ (h.below.lt hcov)
      · exact hout (hlisted.mp hk)

/-! ## The whole walk -/

/-- The reserved memory is a node the tree owns. -/
theorem reservemap_owned (h : ofUnflattenReservemap ofNewRoot mem = .ok root) :
    root.fullName = [] ∧ ∀ x ∈ root.flat, ∀ p ∈ x.props, p.constAt = none := by
  have hnone : ∀ x ∈ ofNewRoot.flat, ∀ p ∈ x.props, p.constAt = none := by
    intro x hx p hp
    rw [mem_singleton.mp hx] at hp
    cases hp
  unfold ofUnflattenReservemap at h
  split at h
  · cases h
  split at h
  · cases h
  · cases h
    exact ⟨rfl, hnone⟩
  cases h
  refine ⟨rfl, fun x hx p hp => ?_⟩
  rw [flat_addChild] at hx
  rcases mem_append.mp hx with hx | hx
  · exact hnone x hx p hp
  rw [mem_singleton.mp hx] at hp
  rcases mem_cons.mp hp with rfl | hp
  · rfl
  rcases mem_cons.mp hp with rfl | hp
  · rfl
  · rw [mem_singleton.mp hp]
    rfl

/-- What the digest of a tame blob has taken in when the walk is over. -/
structure Digested (f : FdtHeader) (incNodes : List Bytes) (root : Node) (spans : List Span) :
    Prop where
  inside : ∀ i, InSpans spans i → f.offDtStruct ≤ i ∧ i < f.structEnd
  judged : ∀ x ∈ root.flat, ∀ p ∈ x.props, ∀ a, p.constAt = some a → p.name ≠ cstr "data" →
    ∃ off, a = off + 12 ∧ f.offDtStruct ≤ off ∧ off + 12 + p.length ≤ f.structEnd ∧
      (digestPath x.fullName ∈ incNodes →
        ∀ i, off ≤ i → i < off + 12 + p.length → InSpans spans i) ∧
      (digestPath x.fullName ∉ incNodes → ¬ InSpans spans off)

/-- **Both walks end** at the same `FDT_END`. -/
theorem Lockstep.stop {u : Unflatten}
    (h : Lockstep f incNodes u d) (hturn : unflattenTurn mem true f u = .done root)
    (hfwd : u.dt + 4 ≤ dtStructAdvance f u.dt 4) : ∃ spans, digestTurn mem f incNodes [cstr "data"] d = .done spans ∧
      Digested f incNodes root spans := by
  obtain ⟨htag, rfl⟩ := unflattenTurn_done hturn
  rw [← h.dt] at htag hfwd
  have hle : d.dt ≤ dtStructAdvance f d.dt 4 := Nat.le_trans (Nat.le_add_right _ _) hfwd
  have hend := dtStructAdvance_le f d.dt 4
  have hbelow := h.below.note hle true
  have hcovers : ∀ i, InSpans ((d.spans.note d.dt true).finish (dtStructAdvance f d.dt 4)) i ↔
      d.spans.Covers d.dt i ∨ (true = true ∧ d.dt ≤ i ∧ i < dtStructAdvance f d.dt 4) :=
    fun i => (Spans.mem_finish hbelow i).trans (Spans.note_covers h.below hle true i)
  refine ⟨_, (digestTurn_eq htag rfl h.below (Nat.succ_pos 3) hfwd).trans (if_neg (by decide)), ?_, ?_⟩
  · intro i hi
    have hlt := hbelow.lt ((Spans.mem_finish hbelow i).mp hi)
    rcases (hcovers i).mp hi with hi | ⟨-, hge, -⟩
    · exact ⟨h.inside i hi, Nat.lt_of_lt_of_le hlt hend⟩
    · exact ⟨Nat.le_trans h.start hge, Nat.lt_of_lt_of_le hlt hend⟩
  · intro x hx p hp a ha hdata
    obtain ⟨off, rfl, hge, hj⟩ := h.judged x hx p hp a ha hdata
    have hbefore := hj.before
    refine ⟨off, rfl, hge, by omega, fun hin i hi hlt => ?_, fun hout hi => ?_⟩
    · exact (hcovers i).mpr (Or.inl (hj.covered hin i hi hlt))
    · rcases (hcovers off).mp hi with hi | ⟨-, hi, -⟩
      · exact hj.left hout hi
      · omega

/-- **The digest's walk over a tame blob.** -/
theorem digest_walk (incNodes : List Bytes) (hf : fdtHeader mem = some f) (hsize : size < 2 ^ 31)
    (hroot : ofUnflattenDtbConst mem size = .ok root)
    (hforward : walksForward mem f (mem.length + 1) f.offDtStruct = true) (htame : ∀ k ∈ root.keys, TameName k) :
    ∃ spans, loop (digestTurn mem f incNodes [cstr "data"]) (.EFAULT, []) (mem.length + 1)
      ⟨f.offDtStruct, [], [], 0, ⟨[], none⟩⟩ = .ok spans ∧ Digested f incNodes root spans := by
  obtain ⟨root₀, htotal, hend, hres, hloop⟩ := ofUnflatten_loop hf hroot
  obtain ⟨hfull, hnone⟩ := reservemap_owned hres
  have hend : f.structEnd < 2 ^ 31 := by omega
  refine loop_ok₂ (R := fun n u d => Lockstep f incNodes u d ∧ walksForward mem f n u.dt = true)
    ?_ ?_ (mem.length + 1) ⟨?_, hforward⟩ hloop
  · intro n u d ⟨hlock, hwalk⟩ hturn
    obtain ⟨tag, size, htag, hsz, hfwd, -⟩ := walksForward_cases hwalk
    obtain rfl : tag = .stop := Option.some.inj (htag.symm.trans (unflattenTurn_done hturn).1)
    cases hsz
    exact hlock.stop hturn hfwd
  · intro n u u' d ⟨hlock, hwalk⟩ hturn hrest
    obtain ⟨tag, size, htag, hsz, hfwd, hmore⟩ := walksForward_cases hwalk
    have hkeys : ∀ k ∈ u'.node.root.keys, TameName k :=
      fun k hk => htame k (unflatten_keys hrest hk)
    obtain ⟨d', hd', hlock'⟩ := hlock.step hend hturn htag hsz hfwd hkeys
    refine ⟨d', hd', hlock', ?_⟩
    obtain ⟨tag', htag', hne, -, hdt⟩ := unflattenTurn_next hturn
    cases htag.symm.trans htag'
    rw [hdt size hsz hfwd]
    exact hmore.resolve_left hne
  · refine ⟨rfl, ⟨hfull, rfl, rfl⟩, ⟨nofun, nofun⟩, ?_,
      Nat.le_refl _, ?_⟩
    · rintro i (⟨sp, hsp, -⟩ | ⟨st, hst, -⟩)
      · cases hsp
      · cases hst
    · intro x hx p hp a ha
      rw [hnone x hx p hp] at ha
      cases ha

end Barebox.Fit
