import Barebox.Memory.Grow

/-!
# Adding banks — `common/memory.c`

Calls of `barebox_add_memory_bank` keep the banks apart and in agreement with
their resources, and leave everything alone when they fail, if and only if no
call gets half of what it needs: with room below a bank but none above it, the
lower side is added to the bank's resource before the call fails
(`memory_banks_iff`).
-/

namespace Barebox.Memory

open Lib Ioport List

variable {w root : Nat}

/-- The banks are apart, and are what their resources are. -/
structure BanksApart (w : Nat) (st : State) : Prop where
  disjoint : st.banks.Pairwise fun b c =>
    st.iomem.end_ b.res < st.iomem.start c.res ∨ st.iomem.end_ c.res < st.iomem.start b.res
  start : ∀ b ∈ st.banks, b.start = st.iomem.start b.res
  size : ∀ b ∈ st.banks, b.size = resourceSize w (st.iomem.at_ b.res)

/-- The resources of the banks are children of `iomem_resource`. -/
structure Consistent (w root : Nat) (st : State) : Prop where
  linked : Linked st.iomem root
  ordered : Ordered w st.iomem root
  node : ∀ b ∈ st.banks, ∃ r, st.iomem.nodes b.res = some r ∧ r.parent = some root
  distinct : (st.banks.map Bank.res).Nodup
  start : ∀ b ∈ st.banks, b.start = st.iomem.start b.res
  size : ∀ b ∈ st.banks, b.size = resourceSize w (st.iomem.at_ b.res)

variable {st : State}

/-- Children of one resource that are in order are apart. -/
theorem Consistent.apart (h : Consistent w root st) : BanksApart w st where
  disjoint := by
    have hdistinct := pairwise_map.mp h.distinct
    refine List.Pairwise.imp_of_mem (fun {b c} hb hc hne => ?_) hdistinct
    obtain ⟨rb, hrb, hbp⟩ := h.node b hb
    obtain ⟨rc, hrc, hcp⟩ := h.node c hc
    obtain ⟨rr, hrr, hbmem⟩ := h.linked.parent hrb hbp
    obtain ⟨rr', hrr', hcmem⟩ := h.linked.parent hrc hcp
    rw [hrr] at hrr'
    cases hrr'
    exact h.ordered.siblings hrr hbmem hcmem hne
  start := h.start
  size := h.size

/-! ## A call -/

/-- A range that is not empty and does not wrap. -/
structure Call (w : Nat) where
  name : String
  start : Nat
  size : Nat
  pos : 0 < size
  size_lt : size < 2 ^ w
  fits : start + size ≤ 2 ^ w

def step (w root : Nat) (st : State) (c : Call w) : State :=
  (addMemoryBank w root st c.name c.start c.size).1

/-- A call that fails changes nothing, and after one that succeeds a bank has
the range. -/
structure CallKeeps (w root : Nat) (st : State) (c : Call w) : Prop where
  apart : BanksApart w (step w root st c)
  fails : ∀ e, (addMemoryBank w root st c.name c.start c.size).2 = .error e → step w root st c = st
  covers : (addMemoryBank w root st c.name c.start c.size).2 = .ok () →
    ∃ b ∈ (step w root st c).banks, (step w root st c).iomem.start b.res ≤ c.start
      ∧ c.start + c.size - 1 ≤ (step w root st c).iomem.end_ b.res

/-- The bank that the loop stops at does not get the lower side alone. -/
def Whole (w root : Nat) (st : State) (c : Call w) : Prop :=
  let end_ := lastOf w c.start c.size
  ∀ bank, st.banks.find? (fun bank => containsNew st.iomem c.start end_ bank
      || insideNew st.iomem c.start end_ bank) = some bank →
    containsNew st.iomem c.start end_ bank = false → ¬ Half root st.iomem bank.res c.start end_

theorem Call.lastOf_eq (c : Call w) : lastOf w c.start c.size = c.start + c.size - 1 := by
  have hpos := c.pos
  have hfits := c.fits
  have hsum : c.start + c.size + 2 ^ w - 1 = c.start + c.size - 1 + 2 ^ w := by omega
  unfold lastOf
  rw [hsum, Nat.add_mod_right]
  exact Nat.mod_eq_of_lt (by omega)

/-- A loop over the banks stops at the first that is found, or goes through
them all. -/
theorem dropWhile_cases (p : Bank → Bool) (banks : List Bank) :
    (∃ bank post, banks.dropWhile (fun b => !p b) = bank :: post
      ∧ banks = banks.takeWhile (fun b => !p b) ++ bank :: post ∧ p bank = true
      ∧ banks.find? p = some bank) ∨ (banks.dropWhile (fun b => !p b) = [] ∧ banks.find? p = none) := by
  induction banks with
  | nil => exact Or.inr ⟨rfl, rfl⟩
  | cons b banks ih =>
    rw [takeWhile_cons, dropWhile_cons, find?_cons]
    cases hb : p b with
    | true => exact Or.inl ⟨b, banks, rfl, rfl, hb, rfl⟩
    | false =>
      rcases ih with ⟨bank, post, hdrop, hbanks, hbank, hfind⟩ | hnone
      · exact Or.inl ⟨bank, post, hdrop, congrArg (b :: ·) hbanks, hbank, hfind⟩
      · exact Or.inr hnone

section

variable (h : Consistent w root st)
include h

variable {c : Call w}

omit h in
/-- What a call has done -/
theorem callKeeps_of_eq {st' : State} {ret : Except Errno Unit}
    (hadd : addMemoryBank w root st c.name c.start c.size = (st', ret)) (hnew : Consistent w root st')
    (hfails : ∀ e, ret = .error e → st' = st)
    (hcovers : ret = .ok () → ∃ b ∈ st'.banks, st'.iomem.start b.res ≤ c.start
      ∧ c.start + c.size - 1 ≤ st'.iomem.end_ b.res) :
    CallKeeps w root st c ∧ Consistent w root (step w root st c) := by
  obtain rfl : step w root st c = st' := congrArg Prod.fst hadd
  obtain rfl : _ = ret := congrArg Prod.snd hadd
  exact ⟨⟨hnew.apart, hfails, hcovers⟩, hnew⟩

/-- What is known of a bank -/
theorem Consistent.bank {b : Bank} (hb : b ∈ st.banks) : ∃ r, st.iomem.nodes b.res = some r
    ∧ r.parent = some root ∧ b.start = r.start ∧ b.size = resourceSize w r := by
  obtain ⟨r, hr, hparent⟩ := h.node b hb
  exact ⟨r, hr, hparent, (h.start b hb).trans (Tree.start_eq hr), by rw [h.size b hb, Tree.at_eq hr]⟩

omit h in
/-- Consistency from what holds of each bank. -/
theorem consistent_of_banks {t : Tree} {banks : List Bank} (hl : Linked t root) (ho : Ordered w t root)
    (hdistinct : (banks.map Bank.res).Nodup) (hbanks : ∀ b ∈ banks, ∃ r, t.nodes b.res = some r
      ∧ r.parent = some root ∧ b.start = r.start ∧ b.size = resourceSize w r) :
    Consistent w root ⟨t, banks⟩ := by
  refine ⟨hl, ho, fun b hb => ?_, hdistinct, fun b hb => ?_, fun b hb => ?_⟩ <;>
    obtain ⟨r, hr, hparent, hstart, hsize⟩ := hbanks b hb
  · exact ⟨r, hr, hparent⟩
  · exact hstart.trans (Tree.start_eq hr).symm
  · rw [hsize, Tree.at_eq hr]

/-- The banks are consistent with a new one. -/
theorem Consistent.add (c : Call w) {rr : Resource} {pre post : List Nat} {t' : Tree}
    (hplaces : Places st.iomem root c.start (c.start + c.size - 1) rr pre post)
    (ht : t' = Ioport.insert st.iomem root rr pre post
      ⟨c.name, c.start, c.start + c.size - 1, some root, []⟩) :
    Consistent w root ⟨t', st.banks ++ [⟨c.start, c.size, st.iomem.next⟩]⟩ := by
  have hl := h.linked
  have hpos := c.pos
  subst ht
  refine consistent_of_banks (hl.insert hplaces c.name) (Ordered.insert hl hplaces rfl h.ordered) ?_
    (forall_mem_append.mpr ⟨fun b hb => ?_, forall_mem_singleton.mpr
      ⟨_, insert_new (Ne.symm (hl.next_ne hplaces.parent)), rfl, rfl, ?_⟩⟩)
  · rw [map_append]
    refine nodup_append.mpr ⟨h.distinct, nodup_cons.mpr ⟨not_mem_nil, nodup_nil⟩, ?_⟩
    intro x hx y hy
    obtain ⟨b, hb, rfl⟩ := mem_map.mp hx
    obtain ⟨r, hr, -⟩ := h.node b hb
    rw [mem_singleton.mp hy]
    exact hl.next_ne hr
  · obtain ⟨r, hr, hparent, hstart, hsize⟩ := h.bank hb
    obtain ⟨r', hr', hparent', hs, he, -⟩ := hplaces.old hl c.name hr
    refine ⟨r', hr', hparent'.trans hparent, hstart.trans hs.symm, ?_⟩
    rw [hsize, resourceSize, resourceSize, hs, he]
  · rw [resourceSize, show c.start + c.size - 1 - c.start + 1 = c.size by omega, Nat.mod_eq_of_lt c.size_lt]

section

variable {pre post : List Bank} {bank : Bank} (hbanks : st.banks = pre ++ bank :: post)
include hbanks

/-- No other bank has the resource. -/
theorem Consistent.res_ne {b : Bank} (hb : b ∈ pre ∨ b ∈ post) : b.res ≠ bank.res := by
  have hdistinct := h.distinct
  rw [hbanks, map_append, map_cons, nodup_append, nodup_cons] at hdistinct
  obtain ⟨-, ⟨hpost, -⟩, hpre⟩ := hdistinct
  rcases hb with hb | hb
  · exact hpre b.res (mem_map_of_mem hb) bank.res (.head _)
  · intro heq
    exact hpost (heq ▸ mem_map_of_mem hb)

/-- And with one that has grown. -/
theorem Consistent.grow {start end_ : Nat} {t' : Tree}
    (hext : Extended w root st.iomem bank.res start end_ t') (hs : start ≤ st.iomem.start bank.res) :
    Consistent w root
      ⟨t', pre ++ { bank with start := start, size := resourceSize w (t'.at_ bank.res) } :: post⟩ := by
  have hsame : ∀ b, b ∈ pre ∨ b ∈ post → ∃ r, t'.nodes b.res = some r
      ∧ r.parent = some root ∧ b.start = r.start ∧ b.size = resourceSize w r := by
    intro b hb
    rw [hext.other _ (h.res_ne hbanks hb)]
    refine h.bank ?_
    rw [hbanks, mem_append, mem_cons]
    exact hb.imp_right Or.inr
  have hdistinct := h.distinct
  rw [hbanks, map_append] at hdistinct
  refine consistent_of_banks hext.linked hext.ordered (by rwa [map_append])
    (forall_mem_append.mpr ⟨fun b hb => hsame b (Or.inl hb), forall_mem_cons.mpr ⟨?_, fun b hb => hsame b (Or.inr hb)⟩⟩)
  obtain ⟨r, hr, hparent⟩ := hext.node
  have hrange := hext.range.1
  rw [Nat.min_eq_right hs, Tree.start_eq hr] at hrange
  exact ⟨r, hr, hparent, hrange.symm, by rw [Tree.at_eq hr]⟩

end

end

/-! ## What a call does -/

/-- The bank is one that the loop stops at. -/
def related (st : State) (c : Call w) (bank : Bank) : Bool :=
  containsNew st.iomem c.start (lastOf w c.start c.size) bank
    || insideNew st.iomem c.start (lastOf w c.start c.size) bank

section

variable {c : Call w}

/-- The three ways of `barebox_add_memory_bank`: a bank of its own, … -/
theorem addMemoryBank_new (hdrop : st.banks.dropWhile (fun b => !related st c b) = []) :
    addMemoryBank w root st c.name c.start c.size
      = match requestRegion st.iomem root c.name c.start (lastOf w c.start c.size) with
        | (t, .error e) => ({ st with iomem := t }, .error e)
        | (t, .ok res) => (⟨t, st.banks ++ [⟨c.start, c.size, res⟩]⟩, .ok ()) := by
  unfold addMemoryBank
  unfold related at hdrop
  rcases hreq : requestRegion st.iomem root c.name c.start (lastOf w c.start c.size) with ⟨t, e | res⟩ <;>
    simp only [hdrop, hreq]

variable {bank : Bank} {post : List Bank}

/-- … one that is there already … -/
theorem addMemoryBank_contains (hdrop : st.banks.dropWhile (fun b => !related st c b) = bank :: post)
    (h : containsNew st.iomem c.start (lastOf w c.start c.size) bank = true) :
    addMemoryBank w root st c.name c.start c.size = (st, .ok ()) := by
  unfold addMemoryBank
  unfold related at hdrop
  dsimp only
  rw [hdrop]
  dsimp only
  rw [if_pos h]

/-- … and one that grows. -/
theorem addMemoryBank_grow {bank' : Bank} {t' : Tree} {ret : Except Errno Unit}
    (hdrop : st.banks.dropWhile (fun b => !related st c b) = bank :: post)
    (h : containsNew st.iomem c.start (lastOf w c.start c.size) bank = false)
    (hgrow : growMemoryBank w root st.iomem bank c.name c.start (lastOf w c.start c.size)
      = (t', bank', ret)) : addMemoryBank w root st c.name c.start c.size
      = (⟨t', st.banks.takeWhile (fun b => !related st c b) ++ bank' :: post⟩, ret) := by
  unfold addMemoryBank
  unfold related at hdrop ⊢
  dsimp only
  rw [hdrop]
  dsimp only
  rw [if_neg (by rw [h]; exact Bool.false_ne_true), hgrow]

variable (h : Consistent w root st)
include h

/-- No bank has to do with the range. -/
theorem step_new (hdrop : st.banks.dropWhile (fun b => !related st c b) = []) :
    CallKeeps w root st c ∧ Consistent w root (step w root st c) := by
  have hadd : addMemoryBank w root st _ _ _ = _ := addMemoryBank_new hdrop
  rw [c.lastOf_eq] at hadd
  rcases requestRegion_cases st.iomem root c.name c.start (c.start + c.size - 1) with
    ⟨rr, pre, post, hplaces, heq⟩ | ⟨e, heq⟩
  · rw [heq] at hadd
    refine callKeeps_of_eq hadd (h.add c hplaces rfl) nofun fun _ => ⟨_, mem_append_right _ (.head _), ?_⟩
    have hrange := hplaces.range_new h.linked (Eq.refl (Ioport.insert st.iomem root rr pre post
      ⟨c.name, c.start, c.start + c.size - 1, some root, []⟩))
    exact ⟨Nat.le_of_eq hrange.1, Nat.le_of_eq hrange.2.symm⟩
  · rw [heq] at hadd
    exact callKeeps_of_eq hadd h (fun _ _ => rfl) nofun

variable (hdrop : st.banks.dropWhile (fun b => !related st c b) = bank :: post)
  (hbanks : st.banks = st.banks.takeWhile (fun b => !related st c b) ++ bank :: post)
include hdrop hbanks

/-- A bank has the range. -/
theorem step_contains (hcontains : containsNew st.iomem c.start (lastOf w c.start c.size) bank = true) :
    CallKeeps w root st c ∧ Consistent w root (step w root st c) := by
  refine callKeeps_of_eq (addMemoryBank_contains hdrop hcontains) h nofun fun _ => ⟨bank, ?_, ?_⟩
  · rw [hbanks]
    exact mem_append_right _ (.head _)
  · rw [c.lastOf_eq] at hcontains
    exact of_decide_eq_true hcontains

/-- A bank is inside of the range. -/
theorem step_grow (hcontains : containsNew st.iomem c.start (lastOf w c.start c.size) bank = false)
    (hinside : insideNew st.iomem c.start (lastOf w c.start c.size) bank = true) :
    (¬ Half root st.iomem bank.res c.start (lastOf w c.start c.size)
      ∧ CallKeeps w root st c ∧ Consistent w root (step w root st c))
    ∨ (Half root st.iomem bank.res c.start (lastOf w c.start c.size) ∧ ¬ CallKeeps w root st c) := by
  have hbank : bank ∈ st.banks := by
    rw [hbanks]
    exact mem_append_right _ (.head _)
  obtain ⟨r, hres, hparent⟩ := h.node bank hbank
  obtain ⟨hs, he⟩ : c.start ≤ st.iomem.start bank.res ∧ st.iomem.end_ bank.res ≤ _ :=
    of_decide_eq_true hinside
  rcases growMemoryBank_cases h.linked h.ordered hres hparent (h.start bank hbank) hs he c.name with
    ⟨hwhole, t', hgrow, hext⟩ | ⟨hwhole, e, hgrow⟩ | ⟨hhalf, t', e, hgrow, hlt⟩
  · -- the bank has grown
    have hrange := hext.range
    have hlast := c.lastOf_eq
    exact Or.inl ⟨hwhole, callKeeps_of_eq (addMemoryBank_grow hdrop hcontains hgrow) (h.grow hbanks hext hs) nofun
      fun _ => ⟨_, mem_append_right _ (.head _), by dsimp only; omega, by dsimp only; omega⟩⟩
  · -- nothing has changed
    have hadd := addMemoryBank_grow hdrop hcontains hgrow
    rw [← hbanks] at hadd
    exact Or.inl ⟨hwhole, callKeeps_of_eq hadd h (fun _ _ => rfl) nofun⟩
  · have hadd := addMemoryBank_grow hdrop hcontains hgrow
    -- it failed, and yet the resource begins lower
    refine Or.inr ⟨hhalf, fun hkeeps => ?_⟩
    have hsame := hkeeps.fails e (by rw [hadd])
    have hstep : step w root st c = _ := congrArg Prod.fst hadd
    have htree : t' = st.iomem := by rw [← hsame, hstep]
    rw [htree] at hlt
    exact Nat.lt_irrefl _ hlt

end

/-! ## Sequences of calls -/

/-- A call keeps the banks if and only if it does not get the lower side of a
bank alone. -/
theorem step_keeps (h : Consistent w root st) (c : Call w) :
    (Whole w root st c → CallKeeps w root st c ∧ Consistent w root (step w root st c))
      ∧ (CallKeeps w root st c → Whole w root st c) := by
  rcases dropWhile_cases (related st c) st.banks with
    ⟨bank, post, hdrop, hbanks, hrel, hfind⟩ | ⟨hdrop, hfind⟩
  · -- the condition is about this bank
    have honly : ∀ {other}, st.banks.find? (fun bank =>
        containsNew st.iomem c.start (lastOf w c.start c.size) bank
          || insideNew st.iomem c.start (lastOf w c.start c.size) bank) = some other → bank = other :=
      fun hother => Option.some.inj (hfind.symm.trans hother)
    cases hcontains : containsNew st.iomem c.start (lastOf w c.start c.size) bank with
    | true =>
      refine ⟨fun _ => step_contains h hdrop hbanks hcontains, fun _ other hother hno => ?_⟩
      rw [← honly hother, hcontains] at hno
      nomatch hno
    | false =>
      have hinside : insideNew st.iomem c.start (lastOf w c.start c.size) bank = true := by
        unfold related at hrel
        rwa [hcontains] at hrel
      rcases step_grow h hdrop hbanks hcontains hinside with ⟨hwhole, hkeeps⟩ | ⟨hhalf, hnot⟩
      · refine ⟨fun _ => hkeeps, fun _ other hother _ => ?_⟩
        rw [← honly hother]
        exact hwhole
      · exact ⟨fun hwhole => absurd hhalf (hwhole bank hfind hcontains),
          fun hkeeps => absurd hkeeps hnot⟩
  · refine ⟨fun _ => step_new h hdrop, fun _ other hother => ?_⟩
    nomatch hfind.symm.trans hother

/-- The banks are kept all the way. -/
def Keeps (w root : Nat) : State → List (Call w) → Prop
  | st, [] => BanksApart w st
  | st, c :: cs => BanksApart w st ∧ CallKeeps w root st c ∧ Keeps w root (step w root st c) cs

def WholeRun (w root : Nat) : State → List (Call w) → Prop
  | _, [] => True
  | st, c :: cs => Whole w root st c ∧ WholeRun w root (step w root st c) cs

/-- Calls keep the banks if and only if none of them fails with the lower side
of a bank added. -/
theorem memory_banks_iff (w root : Nat) (cs : List (Call w)) : ∀ (st : State), Consistent w root st →
    (Keeps w root st cs ↔ WholeRun w root st cs) := by
  induction cs with
  | nil =>
    intro st h
    exact iff_of_true h.apart trivial
  | cons c cs ih =>
    intro st h
    obtain ⟨hkeeps, hwhole⟩ := step_keeps h c
    constructor
    · intro ⟨_, hcall, hrest⟩
      have hc := hwhole hcall
      exact ⟨hc, (ih _ (hkeeps hc).2).mp hrest⟩
    · intro ⟨hc, hrest⟩
      exact ⟨h.apart, (hkeeps hc).1, (ih _ (hkeeps hc).2).mpr hrest⟩

theorem consistent_empty (w : Nat) : Consistent w 0 ⟨iomemTree w, []⟩ where
  linked := iomemTree_linked w
  ordered := iomemTree_ordered w
  node := by intro b hb; nomatch hb
  distinct := nodup_nil
  start := by intro b hb; nomatch hb
  size := by intro b hb; nomatch hb

def ram0 : Call 32 := ⟨"ram0", 10, 10, by decide, by decide, by decide⟩

/-- A bank grows on both sides. -/
theorem ram0_grows : Consistent 32 0 ⟨iomemTree 32, []⟩ ∧ Keeps 32 0 ⟨iomemTree 32, []⟩
    [ram0, ⟨"ram0", 5, 25, by decide, by decide, by decide⟩] := by
  refine ⟨consistent_empty 32, (memory_banks_iff 32 0 _ _ (consistent_empty 32)).mpr ⟨?_, ?_, trivial⟩⟩
  · exact nofun
  · intro bank hfind _ ⟨_, _, _, hfull⟩
    cases hfind
    refine hfull ⟨_, rfl, by decide, by decide, by decide, ?_⟩
    intro c hc
    rw [mem_singleton.mp hc]
    exact Or.inl (by decide)

/-- There is a bank above this one: the call fails, and the first bank's
resource starts at 5. -/
theorem ram0_half : ¬ Keeps 32 0 ⟨iomemTree 32, []⟩
    [ram0, ⟨"ram1", 30, 10, by decide, by decide, by decide⟩,
      ⟨"ram0", 5, 31, by decide, by decide, by decide⟩] := by
  intro ⟨_, _, _, _, _, hcall, _⟩
  have hstart := hcall.apart.start ⟨10, 10, 1⟩ (.head _)
  exact absurd hstart (by decide)

end Barebox.Memory
