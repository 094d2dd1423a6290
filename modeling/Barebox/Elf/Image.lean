import Barebox.Elf.Regions

/-!
# The image of an ELF file in memory

After a load that succeeds every segment should be in memory with its zeros behind it, and
nothing should have been written outside of the regions that were requested. But a region
is requested only for what a segment has in the file, the zeros behind that are written
anyway, a segment without bytes in the file is left out, and a file that is too short is
not noticed.

`elf_load_iff` says for which files it is right: those that are long enough, whose
segments are followed by zeros in places that hold zeros of other segments (so, as a rule,
are not followed by any), and whose segments without bytes in the file happen to be zero
in memory already (`Covered`). That is for files with proper headers and segments of less
than 2 GiB (`Regular`).
-/

namespace Barebox.Elf

open Lib Ioport List

variable {phdr : Phdr} {l : List Phdr}

/-! ## What is expected -/

/-- The program headers of a file, `e_phentsize` bytes apart -/
def segments (class32 : Bool) (file : Bytes) : List Phdr :=
  (range (ePhnum class32 file)).map fun i =>
    phdrOf class32 (file.drop (ePhoff class32 file + i * ePhentsize class32 file))

/-- The place of an address in a segment -/
def place (phdr : Phdr) (a : UInt64) : Nat := (a - phdr.paddr).toNat

def byteIn (file : Bytes) (phdr : Phdr) (a : UInt64) : UInt8 := file.getD (phdr.offset + place phdr a) 0

/-- What a segment has at an address: bytes of the file, then zeros -/
def expected (file : Bytes) (phdr : Phdr) (a : UInt64) : UInt8 :=
  if place phdr a < phdr.filesz then byteIn file phdr a else 0

/-- The file has all of the segment. -/
def Contains (file : Bytes) (phdr : Phdr) : Prop := phdr.filesz = 0 ∨ phdr.offset + phdr.filesz ≤ file.length

structure Loaded (class32 : Bool) (file : Bytes) (st : Memory.State) (s : Load) (list : List (Nat × Phdr)) : Prop where
  long : ∀ phdr ∈ segments class32 file, phdr.type = ptLoad → Contains file phdr
  image : ∀ phdr ∈ segments class32 file, phdr.type = ptLoad → ∀ a, place phdr a < max phdr.filesz phdr.memsz →
    s.ram a = expected file phdr a
  inside : ∀ w ∈ s.writes, ∀ a, w.byte a ≠ none →
    ∃ r ∈ list, st.iomem.start r.1 ≤ a.toNat ∧ a.toNat ≤ st.iomem.end_ r.1

/-! ## What it takes -/

/-- The segments that are loaded -/
def loads (elf : ElfImage) : List Phdr := (headers elf).filter isLoaded

/-- An address in the part of a segment that is in the file -/
def In (phdr : Phdr) (a : UInt64) : Prop := place phdr a < phdr.filesz

instance (phdr : Phdr) (a : UInt64) : Decidable (In phdr a) := inferInstanceAs (Decidable (_ < _))

/-- The headers that were read are those of the file, and the sizes of what is read are
not negative as an `int`. -/
structure Regular (file : Bytes) (elf : ElfImage) : Prop where
  headers : headers elf = segments elf.class32 file
  size : ∀ phdr ∈ loads elf, ¬ Int.bmod (found file phdr).length (2 ^ 32) < 0

/-- A loaded segment has a zero there. -/
def HasZero (file : Bytes) (elf : ElfImage) (a : UInt64) : Prop := ∃ q ∈ loads elf, In q a ∧ byteIn file q a = 0

/-- The file has all segments. What is behind the bytes of a segment is zero by another one, or
there are no bytes of it and the memory is zero and left alone. -/
def Covered (file : Bytes) (elf : ElfImage) (ram : Ram) : Prop :=
  ∀ phdr ∈ headers elf, phdr.type = ptLoad → Contains file phdr
    ∧ ∀ a, phdr.filesz ≤ place phdr a → place phdr a < phdr.memsz →
      HasZero file elf a ∨ phdr.filesz = 0 ∧ (∀ q ∈ loads elf, ¬ In q a) ∧ ram a = 0

def zeros (phdr : Phdr) : Write :=
  ⟨phdr.paddr + UInt64.ofNat phdr.filesz, replicate (phdr.memsz - phdr.filesz) 0⟩

def data (file : Bytes) (phdr : Phdr) : Write := ⟨phdr.paddr, found file phdr⟩

/-- The writes for the segments in the order of the file, up to one whose size is negative -/
def writesOf (file : Bytes) : List Phdr → List Write
  | [] => []
  | phdr :: rest =>
    data file phdr ::
      if Int.bmod (found file phdr).length (2 ^ 32) < 0 then []
      else (if phdr.filesz < phdr.memsz then [zeros phdr] else []) ++ writesOf file rest

def allWrites (file : Bytes) (elf : ElfImage) : List Write :=
  writesOf file ((loads elf).mergeSort fun a b => a.offset ≤ b.offset)

/-- The last write to every address of a segment has the byte that is expected, and none is
outside of the loaded segments. -/
structure ByWrites (file : Bytes) (elf : ElfImage) (ram : Ram) : Prop where
  long : ∀ phdr ∈ segments elf.class32 file, phdr.type = ptLoad → Contains file phdr
  image : ∀ phdr ∈ segments elf.class32 file, phdr.type = ptLoad → ∀ a, place phdr a < max phdr.filesz phdr.memsz →
    overlays ram ((allWrites file elf).map Write.byte) a = expected file phdr a
  inside : ∀ w ∈ allWrites file elf, ∀ a, w.byte a ≠ none → ∃ q ∈ loads elf, In q a

/-! ## Writes -/

/-- What the bytes of a segment have for an address. -/
theorem data_byte (file : Bytes) (phdr : Phdr) (a : UInt64) :
    (data file phdr).byte a = if In phdr a then file[phdr.offset + place phdr a]? else none := by
  show (slice phdr.offset phdr.filesz file)[place phdr a]? = _
  unfold slice
  split
  next h => rw [getElem?_take_of_lt h, getElem?_drop]
  next h => exact getElem?_eq_none (Nat.le_trans (length_take_le ..) (Nat.le_of_not_lt h))

/-- What the zeros behind it have for an address. -/
theorem zeros_byte (hfile : phdr.filesz < 2 ^ 64) (hmem : phdr.memsz < 2 ^ 64) (a : UInt64) :
    (zeros phdr).byte a = if phdr.filesz ≤ place phdr a ∧ place phdr a < phdr.memsz then some 0 else none := by
  have hat : (a - (phdr.paddr + UInt64.ofNat phdr.filesz)).toNat
      = (place phdr a + (2 ^ 64 - phdr.filesz)) % 2 ^ 64 := by
    unfold place
    rw [UInt64.toNat_sub, UInt64.toNat_sub, UInt64.toNat_add, UInt64.toNat_ofNat_of_lt' hfile]
    have := phdr.paddr.toNat_lt
    omega
  have hlt : place phdr a < 2 ^ 64 := (a - phdr.paddr).toNat_lt
  show (replicate (phdr.memsz - phdr.filesz) 0)[(a - (phdr.paddr + UInt64.ofNat phdr.filesz)).toNat]? = _
  rw [getElem?_replicate]
  split
  next h => rw [if_pos (by omega)]
  next h => rw [if_neg (by omega)]

variable {fault : Nat → Option (Nat × Errno)} {errno : Option Errno} {ram : Ram} {s : Load} {file : Bytes}

/-- What is written by a load that succeeds -/
theorem loadElfToMemory_ok {s' : Load}
    (h : loadElfToMemory file fault errno s l = (s', .ok ())) :
    s'.writes = s.writes ++ writesOf file l ∧ s'.ram = overlays s.ram ((writesOf file l).map Write.byte) := by
  induction l generalizing s s' with
  | nil =>
    cases h
    exact ⟨(append_nil _).symm, rfl⟩
  | cons phdr rest ih =>
    unfold loadElfToMemory at h
    split at h
    next => nomatch h
    next =>
    split at h
    next => nomatch h
    next =>
    rw [writesOf]
    split at h
    next hneg =>
      rw [if_pos hneg]
      have hs := (Prod.mk.inj h).1
      subst hs
      exact ⟨rfl, rfl⟩
    next hneg =>
    obtain ⟨hwrites, hram⟩ := ih h
    rw [hwrites, hram]
    split
    next => exact ⟨by simp [Load.write, data, zeros], rfl⟩
    next => exact ⟨by simp [Load.write, data], rfl⟩

/-- Without negative sizes: two writes at most for each segment -/
theorem mem_writesOf {w : Write}
    (h : ∀ phdr ∈ l, ¬ Int.bmod (found file phdr).length (2 ^ 32) < 0) :
    (w ∈ writesOf file l ↔ ∃ q ∈ l, w = data file q ∨ q.filesz < q.memsz ∧ w = zeros q) := by
  induction l with
  | nil => exact ⟨nofun, fun ⟨q, hq, _⟩ => nomatch hq⟩
  | cons phdr rest ih =>
    have hrest := ih fun q hq => h q (mem_cons_of_mem _ hq)
    rw [writesOf, if_neg (h phdr (mem_cons_self)), mem_cons, mem_append, hrest]
    have hzeros : w ∈ (if phdr.filesz < phdr.memsz then [zeros phdr] else [])
        ↔ phdr.filesz < phdr.memsz ∧ w = zeros phdr := by
      split
      next hlt => rw [mem_singleton, and_iff_right hlt]
      next hlt => exact ⟨nofun, fun h => absurd h.1 hlt⟩
    simp only [hzeros, mem_cons, exists_eq_or_imp, or_assoc]

/-! ## Files with proper headers -/

section

variable {root : Nat} {st : Memory.State} {list : List (Nat × Phdr)} {file : Bytes} {elf : ElfImage}

/-- An address is in a region if and only if it is in what the segment has in the file. -/
theorem RegionOf.mem_iff {t : Tree} {r : Nat × Phdr} (h : RegionOf t r) (a : UInt64) :
    (t.start r.1 ≤ a.toNat ∧ a.toNat ≤ t.end_ r.1) ↔ In r.2 a := by
  have hstart := h.start
  have hend := h.end_
  have hpos := h.pos
  have hfits := h.fits
  have hlt := a.toNat_lt
  have hplace : place r.2 a = (2 ^ 64 - r.2.paddr.toNat + a.toNat) % 2 ^ 64 := UInt64.toNat_sub ..
  unfold In
  omega

/-- No two loaded segments have an address in common. -/
theorem Held.unique (h : Held root st list) (hlist : list.map Prod.snd = loads elf) {p q : Phdr} {a : UInt64}
    (hp : p ∈ loads elf) (hq : q ∈ loads elf) (hpa : In p a) (hqa : In q a) : p = q := by
  rw [← hlist] at hp hq
  obtain ⟨r, hr, rfl⟩ := mem_map.mp hp
  obtain ⟨s, hs, rfl⟩ := mem_map.mp hq
  by_contra hne
  have hapart := h.apart hr hs fun heq => hne (congrArg Prod.snd heq)
  have hra := ((h.region r hr).mem_iff a).mpr hpa
  have hsa := ((h.region s hs).mem_iff a).mpr hqa
  omega

/-- A write inside the loaded segments is inside the regions. -/
theorem Held.inside_iff (h : Held root st list) (hlist : list.map Prod.snd = loads elf) (a : UInt64) :
    (∃ r ∈ list, st.iomem.start r.1 ≤ a.toNat ∧ a.toNat ≤ st.iomem.end_ r.1) ↔ ∃ q ∈ loads elf, In q a := by
  constructor
  · intro ⟨r, hr, hra⟩
    exact ⟨r.2, hlist ▸ mem_map_of_mem hr, ((h.region r hr).mem_iff a).mp hra⟩
  · intro ⟨q, hq, hqa⟩
    rw [← hlist] at hq
    obtain ⟨r, hr, rfl⟩ := mem_map.mp hq
    exact ⟨r, hr, ((h.region r hr).mem_iff a).mpr hqa⟩

theorem mem_loads : phdr ∈ loads elf ↔ phdr ∈ headers elf ∧ phdr.type = ptLoad ∧ phdr.filesz ≠ 0 := by
  unfold loads isLoaded
  rw [mem_filter, decide_eq_true_iff]

/-- A file that has all of a segment has each of its bytes. -/
theorem contains_byte (h : Contains file phdr) {a : UInt64} (ha : In phdr a) :
    file[phdr.offset + place phdr a]? = some (byteIn file phdr a) := by
  have hlt : phdr.offset + place phdr a < file.length := by
    unfold In at ha
    unfold Contains at h
    omega
  unfold byteIn
  rw [getD_eq_getElem?_getD, getElem?_eq_getElem hlt]
  rfl

/-- The memory after all writes, where every zero that is written is a zero of a loaded segment -/
theorem overlays_allWrites (h : Held root st list) (hlist : list.map Prod.snd = loads elf)
    (hl : ∀ q, q ∈ l ↔ q ∈ loads elf) (hsize : ∀ phdr ∈ loads elf, ¬ Int.bmod (found file phdr).length (2 ^ 32) < 0)
    (hcontains : ∀ q ∈ loads elf, Contains file q)
    (hzeros : ∀ q ∈ loads elf, ∀ a, q.filesz ≤ place q a → place q a < q.memsz → HasZero file elf a) (ram : Ram)
    (a : UInt64) :
    (∀ q ∈ loads elf, In q a → overlays ram ((writesOf file l).map Write.byte) a = byteIn file q a)
      ∧ ((∀ q ∈ loads elf, ¬ In q a) → overlays ram ((writesOf file l).map Write.byte) a = ram a)
      ∧ ∀ w ∈ writesOf file l, w.byte a ≠ none → ∃ q ∈ loads elf, In q a := by
  have hmem : ∀ {w : Write}, w ∈ writesOf file l ↔ ∃ q ∈ loads elf, w = data file q ∨ q.filesz < q.memsz ∧ w = zeros q := by
    intro w
    rw [mem_writesOf fun phdr hphdr => hsize phdr ((hl phdr).mp hphdr)]
    exact exists_congr fun q => and_congr_left fun _ => hl q
  -- what a write can have for this address
  have hbyte : ∀ {w : Write}, w ∈ writesOf file l → ∀ b, w.byte a = some b → ∃ q ∈ loads elf, In q a ∧ b = byteIn file q a := by
    intro w hw b hb
    obtain ⟨q, hq, rfl | ⟨-, rfl⟩⟩ := hmem.mp hw
    · rw [data_byte] at hb
      split at hb
      next hin =>
        rw [contains_byte (hcontains q hq) hin] at hb
        exact ⟨q, hq, hin, (Option.some.inj hb).symm⟩
      next => nomatch hb
    · obtain ⟨hfile, hmemsz⟩ := headers_lt (mem_loads.mp hq).1
      rw [zeros_byte hfile hmemsz] at hb
      split at hb
      next hin =>
        obtain ⟨q', hq', hin', hzero⟩ := hzeros q hq a hin.1 hin.2
        exact ⟨q', hq', hin', (Option.some.inj hb).symm.trans hzero.symm⟩
      next => nomatch hb
  refine ⟨fun q hq hin => ?_, fun hnone => ?_, fun w hw hne => ?_⟩
  · refine overlays_of_all ram (Or.inl ⟨(data file q).byte, ?_, ?_⟩) fun w hw b hb => ?_
    · exact mem_map_of_mem (hmem.mpr ⟨q, hq, Or.inl rfl⟩)
    · rw [data_byte, if_pos hin, contains_byte (hcontains q hq) hin]
      exact Option.some_ne_none _
    · obtain ⟨w, hmem', rfl⟩ := mem_map.mp hw
      obtain ⟨q', hq', hin', hb'⟩ := hbyte hmem' b hb
      rw [hb', h.unique hlist hq hq' hin hin']
  · refine overlays_of_none ram fun w hw => ?_
    obtain ⟨w, hmem', rfl⟩ := mem_map.mp hw
    cases hb : w.byte a with
    | none => rfl
    | some b =>
      obtain ⟨q, hq, hin, -⟩ := hbyte hmem' b hb
      exact absurd hin (hnone q hq)
  · obtain ⟨b, hb⟩ := Option.ne_none_iff_exists'.mp hne
    obtain ⟨q, hq, hin, -⟩ := hbyte hw b hb
    exact ⟨q, hq, hin⟩

/-- With proper headers the writes are right if and only if the segments are covered. -/
theorem Regular.byWrites_iff (hreg : Regular file elf) (h : Held root st list)
    (hlist : list.map Prod.snd = loads elf) (ram : Ram) : ByWrites file elf ram ↔ Covered file elf ram := by
  have hsorted : ∀ q, q ∈ (loads elf).mergeSort (fun a b => a.offset ≤ b.offset) ↔ q ∈ loads elf :=
    fun q => mem_mergeSort
  constructor
  · intro ⟨hlong, himage, hinside⟩
    rw [← hreg.headers] at hlong himage
    have hloaded : ∀ {q : Phdr} {a : UInt64}, q ∈ loads elf → In q a →
        overlays ram ((allWrites file elf).map Write.byte) a = byteIn file q a := by
      intro q a hq hin
      obtain ⟨hmem, htype, -⟩ := mem_loads.mp hq
      rw [himage q hmem htype a (Nat.lt_of_lt_of_le hin (Nat.le_max_left ..))]
      exact if_pos hin
    intro phdr hphdr htype
    refine ⟨hlong phdr hphdr htype, fun a hge hlt => ?_⟩
    have hzero : overlays ram ((allWrites file elf).map Write.byte) a = 0 := by
      rw [himage phdr hphdr htype a (Nat.lt_of_lt_of_le hlt (Nat.le_max_right ..)), expected,
        if_neg (Nat.not_lt.mpr hge)]
    -- a byte that is to be zero: written by a segment, or by none
    by_cases hin : ∃ q ∈ loads elf, In q a
    · obtain ⟨q, hq, hin⟩ := hin
      exact Or.inl ⟨q, hq, hin, (hloaded hq hin).symm.trans hzero⟩
    have hnone : ∀ q ∈ loads elf, ¬ In q a := fun q hq hqa => hin ⟨q, hq, hqa⟩
    have hfree : ∀ w ∈ allWrites file elf, w.byte a = none := by
      intro w hw
      by_contra hne
      exact hin (hinside w hw a hne)
    refine Or.inr ⟨?_, hnone, ?_⟩
    · -- the zeros of a loaded segment are written
      by_contra hsize
      have hq : phdr ∈ loads elf := mem_loads.mpr ⟨hphdr, htype, hsize⟩
      have hw : zeros phdr ∈ allWrites file elf := by
        refine (mem_writesOf fun q hq => hreg.size q ((hsorted q).mp hq)).mpr ⟨phdr, (hsorted phdr).mpr hq, Or.inr ?_⟩
        exact ⟨Nat.lt_of_le_of_lt hge hlt, rfl⟩
      obtain ⟨hfile, hmemsz⟩ := headers_lt hphdr
      have hnone := hfree _ hw
      rw [zeros_byte hfile hmemsz, if_pos ⟨hge, hlt⟩] at hnone
      nomatch hnone
    · rw [← hzero]
      refine (overlays_of_none ram fun w hw => ?_).symm
      obtain ⟨w, hmem, rfl⟩ := mem_map.mp hw
      exact hfree w hmem
  · intro hcovered
    have hcontains : ∀ q ∈ loads elf, Contains file q := by
      intro q hq
      obtain ⟨hmem, htype, -⟩ := mem_loads.mp hq
      exact (hcovered q hmem htype).1
    have hzeros : ∀ q ∈ loads elf, ∀ a, q.filesz ≤ place q a → place q a < q.memsz → HasZero file elf a := by
      intro q hq a hge hlt
      obtain ⟨hmem, htype, hsize⟩ := mem_loads.mp hq
      rcases (hcovered q hmem htype).2 a hge hlt with hzero | ⟨hnil, -⟩
      · exact hzero
      · exact absurd hnil hsize
    -- segments are apart, so the order of the writes does not matter
    have hfinal := overlays_allWrites h hlist hsorted hreg.size hcontains hzeros ram
    refine ⟨?_, ?_, fun w hw a hne => (hfinal a).2.2 w hw hne⟩
    · rw [← hreg.headers]
      exact fun phdr hphdr htype => (hcovered phdr hphdr htype).1
    · rw [← hreg.headers]
      intro phdr hphdr htype a hlt
      unfold expected
      split
      next hin =>
        refine (hfinal a).1 phdr (mem_loads.mpr ⟨hphdr, htype, ?_⟩) hin
        exact Nat.ne_of_gt (Nat.lt_of_le_of_lt (Nat.zero_le _) hin)
      next hout =>
      rcases (hcovered phdr hphdr htype).2 a (Nat.le_of_not_lt hout) (by omega) with
        ⟨q, hq, hin, hzero⟩ | ⟨-, hnone, hzero⟩
      · exact ((hfinal a).1 q hq hin).trans hzero
      · exact ((hfinal a).2.1 hnone).trans hzero

end

/-! ## Loading -/

variable {elf : ElfImage} {list : List (Nat × Phdr)} {root : Nat} {st : Memory.State}

/-- A load that succeeds: the regions are held, and the writes are those for the segments. -/
theorem elfLoad_ok {st' : Memory.State}
    (hst : Memory.Consistent 64 root st) (h : elfLoad file fault errno elf st ram = (st', s, list, .ok ())) :
    ∃ held, Held root st' held ∧ held.map Prod.snd = loads elf ∧ list.Perm held
      ∧ s.writes = allWrites file elf ∧ s.ram = overlays ram ((allWrites file elf).map Write.byte) := by
  unfold elfLoad at h
  split at h
  next => nomatch h
  next =>
  split at h
  next => nomatch h
  next =>
  split at h
  next => nomatch h
  next st₁ held hreq =>
  split at h
  next => nomatch h
  next s' hload =>
  cases h
  have hmem : ∀ i ∈ range (ePhnum elf.class32 elf.hdrBuf), ∀ phdr, phdrAt elf i = some phdr →
      phdr ∈ headers elf := fun i hi phdr hphdr => mem_filterMap.mpr ⟨i, hi, hphdr⟩
  obtain ⟨hheld, hlist, -⟩ := (Held.of_consistent hst).requestSegments hmem hreq
  obtain ⟨hwrites, hram⟩ := loadElfToMemory_ok hload
  have hsort : (sortSections held).map Prod.snd = (loads elf).mergeSort fun a b => a.offset ≤ b.offset := by
    refine (map_mergeSort (s := fun a b : Phdr => decide (a.offset ≤ b.offset))
      fun a _ b _ => rfl).trans ?_
    rw [hlist]
    rfl
  rw [hsort] at hwrites hram
  exact ⟨held, hheld, hlist, mergeSort_perm .., hwrites, hram⟩

/-- The image in terms of the writes -/
theorem Held.loaded_iff
    {held : List (Nat × Phdr)} (h : Held root st held) (hlist : held.map Prod.snd = loads elf)
    (hperm : list.Perm held) (hwrites : s.writes = allWrites file elf)
    (hram : s.ram = overlays ram ((allWrites file elf).map Write.byte)) :
    Loaded elf.class32 file st s list ↔ ByWrites file elf ram := by
  have hinside : ∀ a : UInt64, (∃ r ∈ list, st.iomem.start r.1 ≤ a.toNat ∧ a.toNat ≤ st.iomem.end_ r.1)
      ↔ ∃ q ∈ loads elf, In q a := by
    intro a
    rw [← h.inside_iff hlist a]
    exact exists_congr fun r => and_congr_left fun _ => hperm.mem_iff
  constructor
  · intro ⟨hlong, himage, hin⟩
    rw [hwrites] at hin
    rw [hram] at himage
    exact ⟨hlong, himage, fun w hw a hne => (hinside a).mp (hin w hw a hne)⟩
  · intro ⟨hlong, himage, hin⟩
    refine ⟨hlong, ?_, ?_⟩
    · rw [hram]
      exact himage
    · rw [hwrites]
      exact fun w hw a hne => (hinside a).mpr (hin w hw a hne)

/-- A file of one segment: its first four bytes, with `memsz` bytes at 0x1000 -/
def tinyFile (memsz : Nat) : Bytes :=
  [0x7f, 0x45, 0x4c, 0x46, 2] ++ replicate 11 0 ++ leBytes 2 2 ++ replicate 14 0 ++ leBytes 8 64
    ++ replicate 14 0 ++ leBytes 2 56 ++ leBytes 2 1 ++ replicate 6 0
    ++ (leBytes 4 1 ++ leBytes 4 0 ++ leBytes 8 0 ++ leBytes 8 0 ++ leBytes 8 0x1000 ++ leBytes 8 4 ++ leBytes 8 memsz
      ++ leBytes 8 0)

def tinyElf (memsz : Nat) : ElfImage := ⟨false, tinyFile memsz, []⟩

/-- A bank of 4 KiB at 0x1000 -/
def bank : Memory.Call 64 := ⟨"ram0", 0x1000, 0x1000, by decide, by decide, by decide⟩

def tinyState : Memory.State := Memory.step 64 0 ⟨iomemTree 64, []⟩ bank

theorem tinyState_consistent : Memory.Consistent 64 0 tinyState := by
  refine ((Memory.step_keeps (Memory.consistent_empty 64) bank).1 ?_).2
  exact nofun

def tinyPhdr (memsz : Nat) : Phdr := ⟨1, 0, 0x1000, 4, memsz⟩

/-- One segment, which is loaded -/
theorem tiny_headers : ∀ memsz ∈ [4, 8], headers (tinyElf memsz) = [tinyPhdr memsz]
    ∧ segments false (tinyFile memsz) = [tinyPhdr memsz] ∧ loads (tinyElf memsz) = [tinyPhdr memsz] := by
  decide +kernel

theorem tiny_regular : ∀ memsz ∈ [4, 8], Regular (tinyFile memsz) (tinyElf memsz) := by
  have hsize : ∀ memsz ∈ [4, 8], ∀ phdr ∈ loads (tinyElf memsz),
      ¬ Int.bmod (found (tinyFile memsz) phdr).length (2 ^ 32) < 0 := by decide +kernel
  intro memsz h
  obtain ⟨hheaders, hsegments, -⟩ := tiny_headers memsz h
  exact ⟨hheaders.trans hsegments.symm, hsize memsz h⟩

/-- The file is opened and loaded. -/
theorem tiny_load (memsz : Nat) (h : memsz ∈ [4, 8]) :
    elfOpen (tinyFile memsz) (fun _ => 0) (fun _ => 0) = .ok (tinyElf memsz)
      ∧ ∃ st s, elfLoad (tinyFile memsz) (fun _ => none) none (tinyElf memsz) tinyState (fun _ => 1)
        = (st, s, [(2, tinyPhdr memsz)], .ok ()) := by
  have hopen : ∀ memsz ∈ [4, 8], elfOpen (tinyFile memsz) (fun _ => 0) (fun _ => 0) = .ok (tinyElf memsz) := by
    decide +kernel
  have hload : ∀ memsz ∈ [4, 8], (elfLoad (tinyFile memsz) (fun _ => none) none (tinyElf memsz) tinyState
      (fun _ => 1)).2.2 = ([(2, tinyPhdr memsz)], .ok ()) := by decide +kernel
  have hrest := hload memsz h
  generalize elfLoad (tinyFile memsz) (fun _ => none) none (tinyElf memsz) tinyState (fun _ => 1) = loaded at hrest ⊢
  obtain ⟨st, s, rest⟩ := loaded
  cases hrest
  exact ⟨hopen memsz h, st, s, rfl⟩

end Barebox.Elf
