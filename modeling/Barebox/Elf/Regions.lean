import Barebox.Elf.Model
import Barebox.Memory.Banks

/-!
# The regions of an ELF file

The regions that were requested have no children, so no one of them is below another, and
two of them have no address in common (`Held.apart`). What is requested for a segment is
its part in the file (`In`).
-/

namespace Barebox.Elf

open Lib Ioport List

variable {root : Nat} {st st' : Memory.State} {list list' : List (Nat × Phdr)}

/-- The segments that are loaded: those with bytes in the file -/
def isLoaded (phdr : Phdr) : Bool := phdr.type = ptLoad ∧ phdr.filesz ≠ 0

/-- The region of a segment, as a leaf of the tree -/
structure RegionOf (t : Tree) (r : Nat × Phdr) : Prop where
  node : ∃ res, t.nodes r.1 = some res ∧ res.children = []
  start : t.start r.1 = r.2.paddr.toNat
  end_ : t.end_ r.1 = r.2.paddr.toNat + r.2.filesz - 1
  pos : 0 < r.2.filesz
  fits : r.2.paddr.toNat + r.2.filesz ≤ 2 ^ 64

/-- The regions of the list, next to the banks -/
structure Held (root : Nat) (st : Memory.State) (list : List (Nat × Phdr)) : Prop where
  linked : Linked st.iomem root
  ordered : Ordered 64 st.iomem root
  banks : ∀ b ∈ st.banks, ∃ r, st.iomem.nodes b.res = some r
  region : ∀ r ∈ list, RegionOf st.iomem r
  noBank : ∀ r ∈ list, ∀ b ∈ st.banks, b.res ≠ r.1
  distinct : (list.map Prod.fst).Nodup

theorem Held.of_consistent (h : Memory.Consistent 64 root st) : Held root st [] where
  linked := h.linked
  ordered := h.ordered
  banks := by
    intro b hb
    obtain ⟨r, hr, -⟩ := h.node b hb
    exact ⟨r, hr⟩
  region := by intro r hr; nomatch hr
  noBank := by intro r hr; nomatch hr
  distinct := nodup_nil

/-- Two regions have no address in common. -/
theorem Held.apart (h : Held root st list) {r s : Nat × Phdr} (hr : r ∈ list) (hs : s ∈ list) (hne : r ≠ s) :
    st.iomem.end_ r.1 < st.iomem.start s.1 ∨ st.iomem.end_ s.1 < st.iomem.start r.1 := by
  have hids : r.1 ≠ s.1 := fun heq => hne (inj_on_of_nodup_map h.distinct hr hs heq)
  obtain ⟨rr, hrr, hrnil⟩ := (h.region r hr).node
  obtain ⟨rs, hrs, hsnil⟩ := (h.region s hs).node
  -- nothing is below a region without children
  have hleaf : ∀ {x y : Nat} {ry : Resource}, st.iomem.nodes y = some ry → ry.children = [] → x ≠ y →
      ¬ Below st.iomem x y := by
    intro x y ry hy hnil hxy hbelow
    obtain ⟨ar, c, har, hc, -⟩ := h.linked.below_child hbelow hxy
    rw [hy] at har
    cases har
    rw [hnil] at hc
    nomatch hc
  rcases nested_or_apart h.linked h.ordered (h.linked.below hrr) hrs with hb | hb | hapart
  · exact absurd hb (hleaf hrs hsnil hids)
  · exact absurd hb (hleaf hrr hrnil hids.symm)
  · exact hapart

/-! ## Requests -/

/-- A request is granted inside one of the banks. -/
theorem requestFromBanks_some {name : String} {start end_ res : Nat} {t t' : Tree} {banks : List Memory.Bank}
    (h : Memory.requestFromBanks name start end_ t banks = (t', some res)) :
    ∃ b ∈ banks, ∃ r pre post, Places t b.res start end_ r pre post
      ∧ t' = Ioport.insert t b.res r pre post ⟨name, start, end_, some b.res, []⟩ ∧ res = t.next := by
  induction banks with
  | nil => nomatch h
  | cons b banks ih =>
    rw [Memory.requestFromBanks] at h
    rcases requestRegion_cases t b.res name start end_ with ⟨r, pre, post, hplaces, heq⟩ | ⟨e, heq⟩
    · rw [heq] at h
      cases h
      exact ⟨b, mem_cons_self, r, pre, post, hplaces, rfl, rfl⟩
    · rw [heq] at h
      obtain ⟨b', hb', hrest⟩ := ih h
      exact ⟨b', mem_cons_of_mem _ hb', hrest⟩

/-- A region that was requested does not wrap around. -/
theorem lastOf_eq {start size : Nat} (hpos : 0 < size) (hstart : start < 2 ^ 64) (hsize : size < 2 ^ 64)
    (hle : start ≤ Memory.lastOf 64 start size) :
    Memory.lastOf 64 start size = start + size - 1 ∧ start + size ≤ 2 ^ 64 := by
  unfold Memory.lastOf at *
  omega

/-- A region that is not touched by a request -/
theorem RegionOf.of_node {t t' : Tree} {r : Nat × Phdr} (h : RegionOf t r) (heq : t'.nodes r.1 = t.nodes r.1) :
    RegionOf t' r := by
  have hstart : t'.start r.1 = t.start r.1 := by
    unfold Tree.start Tree.at_
    rw [heq]
  have hend : t'.end_ r.1 = t.end_ r.1 := by
    unfold Tree.end_ Tree.at_
    rw [heq]
  exact ⟨heq ▸ h.node, hstart ▸ h.start, hend ▸ h.end_, h.pos, h.fits⟩

/-- The step: a segment that is granted holds its range. -/
theorem Held.request {phdr : Phdr} {res : Nat} (h : Held root st list) (hpos : phdr.filesz ≠ 0)
    (hlt : phdr.filesz < 2 ^ 64)
    (hreq : Memory.requestSdramRegion 64 st "elf_section" phdr.paddr.toNat phdr.filesz = (st', some res)) :
    Held root st' (list ++ [(res, phdr)]) := by
  obtain ⟨t', hfrom, rfl⟩ : ∃ t', Memory.requestFromBanks "elf_section" phdr.paddr.toNat
      (Memory.lastOf 64 phdr.paddr.toNat phdr.filesz) st.iomem st.banks = (t', some res)
        ∧ st' = { st with iomem := t' } :=
    ⟨_, Prod.ext rfl (Prod.mk.inj hreq).2, (Prod.mk.inj hreq).1.symm⟩
  obtain ⟨b, hb, rb, pre, post, hplaces, ht, rfl⟩ := requestFromBanks_some hfrom
  obtain ⟨hlast, hfits⟩ := lastOf_eq (Nat.pos_of_ne_zero hpos) phdr.paddr.toNat_lt hlt hplaces.le
  have hlinked := h.linked.insert hplaces "elf_section"
  rw [← ht] at hlinked
  have hnew : t'.nodes st.iomem.next = some ⟨"elf_section", phdr.paddr.toNat,
      Memory.lastOf 64 phdr.paddr.toNat phdr.filesz, some b.res, []⟩ := by
    rw [ht]
    exact insert_new (Ne.symm (h.linked.next_ne hplaces.parent))
  -- the new region has a fresh number
  have hne : ∀ r ∈ list, r.1 ≠ st.iomem.next := by
    intro r hr
    obtain ⟨res, hres, -⟩ := (h.region r hr).node
    exact h.linked.next_ne hres
  have hmem : ∀ {r}, r ∈ list ++ [(st.iomem.next, phdr)] → r ∈ list ∨ r = (st.iomem.next, phdr) := by
    intro r hr
    rw [mem_append, mem_singleton] at hr
    exact hr
  refine ⟨hlinked, Ordered.insert h.linked hplaces ht h.ordered, ?_, ?_, ?_, ?_⟩
  · intro b' hb'
    obtain ⟨r, hr⟩ := h.banks b' hb'
    obtain ⟨r', hr', -⟩ := hplaces.old h.linked "elf_section" hr
    exact ⟨r', ht ▸ hr'⟩
  · intro r hr
    rcases hmem hr with hr | rfl
    · refine (h.region r hr).of_node ?_
      rw [ht]
      exact insert_other (Ne.symm (h.noBank r hr b hb)) (hne r hr)
    · refine ⟨⟨_, hnew, rfl⟩, Tree.start_eq hnew, ?_, Nat.pos_of_ne_zero hpos, hfits⟩
      exact (Tree.end_eq hnew).trans hlast
  · intro r hr b' hb'
    rcases hmem hr with hr | rfl
    · exact h.noBank r hr b' hb'
    · obtain ⟨rb', hrb'⟩ := h.banks b' hb'
      exact h.linked.next_ne hrb'
  · rw [map_append, nodup_append]
    refine ⟨h.distinct, nodup_singleton _, fun x hx y hy => ?_⟩
    obtain ⟨r, hr, rfl⟩ := mem_map.mp hx
    rw [mem_singleton.mp hy]
    exact hne r hr

/-! ## All headers -/

/-- The headers as they are in the buffer -/
def headers (elf : ElfImage) : List Phdr :=
  (range (ePhnum elf.class32 elf.hdrBuf)).filterMap (phdrAt elf)

theorem field_lt (class32 : Bool) (at32 size32 at64 size64 : Nat) (h32 : size32 ≤ 8) (h64 : size64 ≤ 8) (buf : Bytes) :
    field class32 at32 size32 at64 size64 buf < 2 ^ 64 := by
  have hslice : ∀ {off size : Nat}, size ≤ 8 → leNat (slice off size buf) < 2 ^ 64 := by
    intro off size hsize
    have hlen : (slice off size buf).length ≤ size := length_take_le ..
    exact Nat.lt_of_lt_of_le (leNat_lt _) (Nat.pow_le_pow_right (by decide) (Nat.le_trans hlen hsize))
  unfold field
  split
  next => exact hslice h32
  next => exact hslice h64

theorem headers_lt {elf : ElfImage} {phdr : Phdr} (h : phdr ∈ headers elf) : phdr.filesz < 2 ^ 64 ∧ phdr.memsz < 2 ^ 64 := by
  obtain ⟨i, -, hi⟩ := mem_filterMap.mp h
  unfold phdrAt at hi
  dsimp only at hi
  split at hi
  next =>
    cases hi
    exact ⟨field_lt _ _ _ _ _ (by decide) (by decide) _, field_lt _ _ _ _ _ (by decide) (by decide) _⟩
  next => nomatch hi

/-- A segment that is not loaded is passed, one that is gets its region, or the load ends. -/
theorem requestElfSegment_cases (st : Memory.State) (phdr : Phdr) :
    (isLoaded phdr = false ∧ requestElfSegment st phdr = (st, .ok none))
      ∨ (isLoaded phdr = true ∧ phdr.filesz ≠ 0 ∧ ∃ st' res, requestElfSegment st phdr = (st', .ok (some res))
        ∧ Memory.requestSdramRegion 64 st "elf_section" phdr.paddr.toNat phdr.filesz = (st', some res))
      ∨ ∃ st', requestElfSegment st phdr = (st', .error .EINVAL) := by
  unfold requestElfSegment isLoaded
  by_cases htype : phdr.type = ptLoad
  · by_cases hsize : phdr.filesz = 0
    · exact Or.inl ⟨by simp [hsize], by rw [if_neg (by simpa using htype), if_pos hsize]⟩
    rw [if_neg (by simpa using htype), if_neg hsize]
    refine Or.inr ?_
    obtain ⟨st', res⟩ := Memory.requestSdramRegion 64 st "elf_section" phdr.paddr.toNat phdr.filesz
    cases res with
    | none => exact Or.inr ⟨st', rfl⟩
    | some res => exact Or.inl ⟨by simp [htype, hsize], hsize, st', res, rfl, rfl⟩
  · exact Or.inl ⟨by simp [htype], if_pos (by simpa using htype)⟩

/-- After the loop over the headers the regions of the loaded segments are held. -/
theorem Held.requestSegments {elf : ElfImage} {l : List Nat}
    (h : Held root st list) (hmem : ∀ i ∈ l, ∀ phdr, phdrAt elf i = some phdr → phdr ∈ headers elf)
    (heq : Elf.requestSegments elf st list l = (st', list', .ok ())) :
    Held root st' list' ∧ list'.map Prod.snd = list.map Prod.snd ++ (l.filterMap (phdrAt elf)).filter isLoaded
      ∧ (l.filterMap (phdrAt elf)).length = l.length := by
  induction l generalizing st list with
  | nil =>
    cases heq
    exact ⟨h, (append_nil _).symm, rfl⟩
  | cons i l ih =>
    have hrest := fun j hj => hmem j (mem_cons_of_mem _ hj)
    rw [Elf.requestSegments] at heq
    cases hphdr : phdrAt elf i with
    | none =>
      rw [hphdr] at heq
      nomatch heq
    | some phdr =>
      rw [hphdr] at heq
      dsimp only at heq
      rw [filterMap_cons_some hphdr]
      rcases requestElfSegment_cases st phdr with ⟨hno, hreq⟩ | ⟨hyes, hpos, st₁, res, hreq, hsdram⟩ | ⟨st₁, hreq⟩
      · rw [hreq] at heq
        obtain ⟨hheld, hlist, hlen⟩ := ih h hrest heq
        rw [filter_cons_of_neg (by simp [hno])]
        exact ⟨hheld, hlist, congrArg (· + 1) hlen⟩
      · rw [hreq] at heq
        have hlt := (headers_lt (hmem i (mem_cons_self) phdr hphdr)).1
        obtain ⟨hheld, hlist, hlen⟩ := ih (h.request hpos hlt hsdram) hrest heq
        rw [filter_cons_of_pos hyes]
        refine ⟨hheld, ?_, congrArg (· + 1) hlen⟩
        rw [hlist, map_append, map_singleton, append_assoc, singleton_append]
      · rw [hreq] at heq
        nomatch heq

end Barebox.Elf
