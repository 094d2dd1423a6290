import Barebox.State.FormatRaw
import Barebox.State.Layout

/-!
# Raw format round trip

Pack, verify, unpack. When the last variable ends below `2 ^ 16`, all
three work with the same length and every variable comes back
(`raw_round_trip`). Beyond that the header's `data_len` is the length
modulo `2 ^ 16`; the last variable ends behind it and is skipped by
unpack, so nothing is restored that `pack` was given there.

`RoundTrips` asks for more than unpacking into the state that was packed,
which a skipped variable would survive: the packed bytes have to restore
any state of the same layout.
-/

namespace Barebox.State

open Lib List

/-! ## Reading a header back -/

section Header

variable {magic dataCrc : UInt32} {dataLen : Nat} {rest : Bytes}

section

variable (magic : UInt32) (dataLen : Nat) (dataCrc : UInt32)

theorem headerFields_length : (headerFields magic dataLen dataCrc).length = 12 := by
  simp [headerFields]

theorem rawHeader_length : (rawHeader magic dataLen dataCrc).length = headerSize := by
  simp [rawHeader, headerFields, headerSize]

end

/-- The twelve bytes the header's own checksum is over. -/
theorem slice_rawHeader :
    slice 0 12 (rawHeader magic dataLen dataCrc ++ rest) = headerFields magic dataLen dataCrc := by
  exact slice_append_exact _ (headerFields_length magic dataLen dataCrc)

theorem headerHeaderCrc_rawHeader : headerHeaderCrc (rawHeader magic dataLen dataCrc ++ rest)
      = (crc32 0 (headerFields magic dataLen dataCrc)).toNat := by
  have hlen := headerFields_length magic dataLen dataCrc
  unfold headerHeaderCrc rawHeader
  rw [append_assoc, slice_append_right _ (by omega), hlen,
    slice_append_exact _ (leBytes_length 4 _), leNat_leBytes_of_lt (UInt32.toNat_lt _)]

theorem headerMagic_rawHeader :
    headerMagic (rawHeader magic dataLen dataCrc ++ rest) = magic.toNat := by
  unfold headerMagic rawHeader headerFields
  simp only [append_assoc]
  rw [slice_append_exact _ (leBytes_length 4 _), leNat_leBytes_of_lt (UInt32.toNat_lt _)]

theorem headerDataLen_rawHeader (h : dataLen < 2 ^ 16) :
    headerDataLen (rawHeader magic dataLen dataCrc ++ rest) = dataLen := by
  unfold headerDataLen rawHeader headerFields
  simp only [append_assoc]
  rw [slice_append_right _ (by simp), slice_append_right _ (by simp)]
  simp only [leBytes_length]
  rw [slice_append_exact _ (leBytes_length 2 _), leNat_leBytes_of_lt h]

theorem headerDataCrc_rawHeader :
    headerDataCrc (rawHeader magic dataLen dataCrc ++ rest) = dataCrc.toNat := by
  unfold headerDataCrc rawHeader headerFields
  simp only [append_assoc]
  rw [slice_append_right _ (by simp), slice_append_right _ (by simp), slice_append_right _ (by simp)]
  simp only [leBytes_length]
  rw [slice_append_exact _ (leBytes_length 4 _), leNat_leBytes_of_lt (UInt32.toNat_lt _)]

end Header

/-! ## Verify accepts what pack writes -/

/-- Header, data and, with a digest, its value over both. -/
def packed (magic : UInt32) (data : Bytes) (d : Option Digest) : Bytes :=
  appendDigest d (rawHeader magic data.length (crc32 0 data) ++ data)

theorem packed_eq (magic : UInt32) (data : Bytes) (d : Option Digest) :
    ∃ mac, packed magic data d = rawHeader magic data.length (crc32 0 data) ++ (data ++ mac) := by
  cases d with
  | none => exact ⟨[], by rw [packed, appendDigest, append_nil]⟩
  | some dg => exact ⟨_, by rw [packed, appendDigest, append_assoc]⟩

theorem appendDigest_length (d : Option Digest) (signed : Bytes) :
    (appendDigest d signed).length = signed.length + digestLength d := by
  cases d with
  | none => rfl
  | some dg =>
    rw [appendDigest, length_append, dg.final_length]
    rfl

theorem take_appendDigest (d : Option Digest) (signed tail : Bytes) :
    (appendDigest d signed ++ tail).take signed.length = signed := by
  cases d with
  | none => exact take_left
  | some dg =>
    rw [appendDigest, append_assoc]
    exact take_left

variable {raw : RawFormat} {d : Option Digest} {vars ws : List Variable} {last : Variable}

/-- A digest that can be had can be done without. -/
theorem RawFormat.auth_of_false (hd : raw.auth false = .ok d)
    (noAuth : Bool) : ∃ d', raw.auth noAuth = .ok d' ∧ ∀ dg, d' = some dg → d = some dg := by
  cases noAuth with
  | false => exact ⟨d, hd, fun _ h => h⟩
  | true =>
    refine ⟨none, ?_, nofun⟩
    unfold RawFormat.auth
    split <;> rfl

variable {magic : UInt32}

/-- Verify accepts a valid header and data with their digest, whatever
follows. -/
theorem verify_appendDigest
    (hd : raw.auth false = .ok d) (noAuth : Bool) {p : Bytes} (hp : ValidRaw magic p) (tail : Bytes) :
    backendFormatRawVerify raw magic (appendDigest d p ++ tail) noAuth = (.ok, p.length) := by
  obtain ⟨d', hd', hsome⟩ := raw.auth_of_false hd noAuth
  have htake := take_appendDigest d p tail
  refine (verify_ok_iff hd' _ _).mpr ⟨?_, by rwa [htake], ?_⟩
  · rw [length_append, appendDigest_length]
    cases d' with
    | none =>
      show p.length + 0 ≤ _
      omega
    | some dg =>
      rw [hsome dg rfl]
      omega
  · intro dg hdg
    have hlen : p.length ≤ p.length := Nat.le_refl _
    rw [htake, hsome dg hdg, appendDigest, append_assoc, slice_append_right _ hlen,
      Nat.sub_self, slice_append_exact _ (dg.final_length p)]

variable {data : Bytes}

/-- A header for the data that follows it is valid. -/
theorem validRaw_rawHeader (magic : UInt32) (hlen : data.length < 2 ^ 16) :
    ValidRaw magic (rawHeader magic data.length (crc32 0 data) ++ data) := by
  have hsize := rawHeader_length magic data.length (crc32 0 data)
  refine ⟨?_, ?_, fun _ => headerMagic_rawHeader.symm, ?_⟩
  · rw [headerDataLen_rawHeader hlen, length_append, hsize, Nat.add_comm]
  · rw [slice_rawHeader, headerHeaderCrc_rawHeader]
  · rw [headerDataLen_rawHeader hlen, headerDataCrc_rawHeader, slice_append_right _ (by omega),
      hsize, Nat.sub_self, slice_zero, take_length]

/-! ## Raw bytes in and out of a variable -/

section

variable (d : VarData) (b : Bytes) (h : b.length = d.size)

theorem VarData.setRaw_type : (d.setRaw b h).type = d.type := by
  cases d <;> rfl

theorem VarData.setRaw_size : (d.setRaw b h).size = d.size := by
  cases d <;> rfl

/-- A variable can be set to any bytes of its size. -/
theorem VarData.setRaw_raw : (d.setRaw b h).raw = b := by
  have hword : ∀ {b : Bytes}, b.length = 4 → leBytes 4 (UInt32.ofNat (leNat b)).toNat = b := by
    intro b hb
    have hlt := leNat_lt b
    rw [hb] at hlt
    rw [UInt32.toNat_ofNat', Nat.mod_eq_of_lt (show leNat b < 2 ^ 32 from hlt), ← hb]
    exact leBytes_leNat b
  cases d with
  | uint8 v df =>
    -- the other three bytes of the word stay
    obtain ⟨x, rfl⟩ : ∃ x, b = [x] := length_eq_one_iff.mp h
    have hv := v.toNat_lt
    have hx : x.toNat < 256 := x.toNat_lt
    show leBytes 1 (UInt32.ofNat (v.toNat / 256 * 256 + (x.toNat + 256 * 0))).toNat = [x]
    rw [UInt32.toNat_ofNat', Nat.mod_eq_of_lt (by omega)]
    have hlow : UInt8.ofNat (v.toNat / 256 * 256 + (x.toNat + 256 * 0)) = x := by
      rw [← UInt8.toNat_inj, UInt8.toNat_ofNat']
      omega
    show [UInt8.ofNat _] = [x]
    rw [hlow]
  | uint32 v df => exact hword h
  | enum32 v df names => exact hword h
  | mac v df => rfl
  | string s => rfl

end

/-! ## The copy loops -/

/-- Variables one behind the other. -/
def Disjoint (vars : List Variable) : Prop :=
  vars.Pairwise fun a b => a.stop ≤ b.start.toNat

/-- Packing stays inside the area, or faults. -/
theorem packVars_length : ∀ {area area' : Bytes}, packVars vars area = .ok area' →
      area'.length = area.length ∧ ∀ v ∈ vars, v.stop ≤ area.length := by
  induction vars with
  | nil =>
    intro area area' h
    cases h
    exact ⟨rfl, fun v hv => absurd hv (by simp)⟩
  | cons v vs ih =>
    intro area area' h
    rw [packVars] at h
    split at h
    · next hle =>
      have hov : (overwrite v.start.toNat v.data.raw area).length = area.length :=
        overwrite_length (by rw [v.data.raw_length]; exact hle)
      obtain ⟨hlen, hall⟩ := ih h
      rw [hov] at hlen hall
      exact ⟨hlen, forall_mem_cons.mpr ⟨hle, hall⟩⟩
    · cases h

/-- Copying disjoint variables that fit leaves each one's bytes in its
place, and nothing in front of all of them is touched. -/
theorem packVars_spec : ∀ (area : Bytes), Disjoint vars → (∀ v ∈ vars, v.stop ≤ area.length) →
    ∃ area', packVars vars area = .ok area' ∧
      (∀ i n, (∀ v ∈ vars, i + n ≤ v.start.toNat) → slice i n area' = slice i n area) ∧
      ∀ v ∈ vars, slice v.start.toNat v.data.size area' = v.data.raw := by
  induction vars with
  | nil =>
    intro area _ _
    exact ⟨area, rfl, fun _ _ _ => rfl, fun v hv => absurd hv (by simp)⟩
  | cons v vs ih =>
    intro area hdis hin
    obtain ⟨hv, hvs⟩ := pairwise_cons.mp hdis
    have hle := hin v (mem_cons_self)
    have hraw := v.data.raw_length
    have hstop : v.stop = v.start.toNat + v.data.size := rfl
    have hov : (overwrite v.start.toNat v.data.raw area).length = area.length :=
      overwrite_length (by rw [hraw]; exact hle)
    obtain ⟨area', hpack, hfront, hslices⟩ := ih (overwrite v.start.toNat v.data.raw area) hvs
      (fun w hw => by rw [hov]; exact hin w (mem_cons_of_mem _ hw))
    refine ⟨area', ?_, ?_, ?_⟩
    · rw [packVars, if_pos hle]
      exact hpack
    · intro i n hi
      rw [hfront i n fun w hw => hi w (mem_cons_of_mem _ hw)]
      exact slice_overwrite_before (hi v (mem_cons_self)) (by omega)
    · intro w hw
      rcases mem_cons.mp hw with rfl | hw
      · rw [hfront _ _ hv]
        have hself : slice w.start.toNat w.data.raw.length
            (overwrite w.start.toNat w.data.raw area) = w.data.raw :=
          slice_overwrite_self (by omega)
        rwa [hraw] at hself
      · exact hslices w hw

/-- Same variables at the same places, with any values. -/
def SameLayout : List Variable → List Variable → Prop :=
  List.Forall₂ fun v w =>
    v.name = w.name ∧ v.start = w.start ∧ v.data.type = w.data.type ∧ v.data.size = w.data.size

variable {dataLen : Nat}

/-- Unpacking data that has every variable in its place restores them all. -/
theorem unpackVars_restores
    (hl : SameLayout vars ws) (hlt : dataLen < 2 ^ 32) (hlen : dataLen ≤ data.length)
    (hin : ∀ v ∈ vars, v.stop ≤ dataLen) (hval : ∀ v ∈ vars, slice v.start.toNat v.data.size data = v.data.raw) :
    (unpackVars data dataLen ws).1 = .ok ∧
    (unpackVars data dataLen ws).2.map (fun w => w.data.raw) = vars.map (fun v => v.data.raw) := by
  induction hl with
  | nil => exact ⟨rfl, rfl⟩
  | @cons v w vs ws hvw _ ih =>
    obtain ⟨-, hstart, -, hsize⟩ := hvw
    obtain ⟨hok, hmap⟩ := ih (fun v hv => hin v (mem_cons_of_mem _ hv))
      (fun v hv => hval v (mem_cons_of_mem _ hv))
    have hstop : w.stop = v.stop := by
      unfold Variable.stop
      rw [hstart, hsize]
    have hv := hin v (mem_cons_self)
    have hw : w.stop ≤ data.length := by omega
    have hstop32 : w.stop32 = w.stop := Nat.mod_eq_of_lt (by omega)
    have hunpack : unpackVar data dataLen w = .ok { w with
        data := w.data.setRaw (slice w.start.toNat w.data.size data) (slice_length hw) } := by
      unfold unpackVar
      rw [if_neg (by omega), dif_pos hw]
    rw [unpackVars, hunpack]
    refine ⟨hok, ?_⟩
    rw [map_cons]
    congr 1
    rw [VarData.setRaw_raw, ← hstart, ← hsize]
    exact hval v (mem_cons_self)

/-- What unpacking does to each variable of a list it restores. -/
theorem unpackVar_of_restored {f : Variable → Variable} :
    ∀ {vars : List Variable}, (unpackVars data dataLen (vars.map f)).1 = .ok →
      (unpackVars data dataLen (vars.map f)).2.map (fun w => w.data.raw)
        = vars.map (fun v => v.data.raw) →
      ∀ v ∈ vars, ∃ w, unpackVar data dataLen (f v) = .ok w ∧ w.data.raw = v.data.raw
  | [], _, _, v, hv => absurd hv (by simp)
  | u :: vars, hok, hmap, v, hv => by
    rw [map_cons, unpackVars] at hok hmap
    cases hu : unpackVar data dataLen (f u) with
    | error e =>
      rw [hu] at hok
      cases hok
    | ok u' =>
      rw [hu] at hok hmap
      simp only [map_cons, List.cons.injEq] at hmap
      rcases mem_cons.mp hv with rfl | hv
      · exact ⟨u', hu, hmap.1⟩
      · exact unpackVar_of_restored hok hmap.2 v hv

/-! ## The round trip -/

/-- Packing succeeds, verify accepts the result, and unpacking it restores
any state of that layout. -/
def RoundTrips (raw : RawFormat) (magic : UInt32) (vars : List Variable) : Prop :=
  ∃ buf, backendFormatRawPack raw magic vars = .ok buf ∧
    (backendFormatRawVerify raw magic buf false).1 = .ok ∧
    ∀ ws, SameLayout vars ws →
      (backendFormatRawUnpack ws buf).1 = .ok ∧
      (backendFormatRawUnpack ws buf).2.map (fun w => w.data.raw)
        = vars.map (fun v => v.data.raw)

theorem SameLayout.starts {us : List Variable} (h : SameLayout us ws) :
    us.map (fun v => v.start.toNat) = ws.map (fun v => v.start.toNat) := by
  induction h with
  | nil => rfl
  | cons hvw _ ih => rw [map_cons, map_cons, hvw.2.1, ih]

theorem SameLayout.overlapFree_eq {us : List Variable} (h : SameLayout us ws) : overlapFree us = overlapFree ws := by
  induction h with
  | nil => rfl
  | cons hvw hrest ih =>
    cases hrest with
    | nil => rfl
    | cons hvw' _ => rw [overlapFree, overlapFree, ih, hvw.2.1, hvw.2.2.2, hvw'.2.1]

/-- The layout of a created state, under any values. -/
theorem Created.layout {node : Of.Node} {st : Instance} (hc : Created node st) (hl : SameLayout st.vars vars) :
    (vars.Pairwise fun a b => a.start.toNat ≤ b.start.toNat) ∧ overlapFree vars = true := by
  refine ⟨?_, hl.overlapFree_eq ▸ hc.overlap⟩
  have hsorted : (st.vars.map fun v => v.start.toNat).Pairwise (· ≤ ·) :=
    pairwise_map.mpr hc.inv.sorted
  rw [hl.starts] at hsorted
  exact pairwise_map.mp hsorted

/-- In a sorted list nothing starts behind the last. -/
theorem start_le_last (hsort : vars.Pairwise fun a b => a.start.toNat ≤ b.start.toNat)
    (hlast : vars.getLast? = some last) : ∀ v ∈ vars, v.start.toNat ≤ last.start.toNat := by
  obtain ⟨init, rfl⟩ := getLast?_eq_some_iff.mp hlast
  exact forall_mem_append.mpr ⟨fun v hv => (pairwise_append.mp hsort).2.2 v hv last (mem_singleton_self _),
    forall_mem_singleton.mpr (Nat.le_refl _)⟩

/-- Of variables one behind the other none ends behind the last. -/
theorem stop_le_last (hdis : Disjoint vars) (hlast : vars.getLast? = some last) : ∀ v ∈ vars, v.stop ≤ last.stop := by
  obtain ⟨init, rfl⟩ := getLast?_eq_some_iff.mp hlast
  refine forall_mem_append.mpr ⟨fun v hv => ?_, forall_mem_singleton.mpr (Nat.le_refl _)⟩
  exact Nat.le_trans ((pairwise_append.mp hdis).2.2 v hv last (mem_singleton_self _)) (Nat.le_add_right _ _)

/-- When the last variable ends below `2 ^ 16`, pack writes its data with
every variable in its place. -/
theorem pack_eq (magic : UInt32) (hd : raw.auth false = .ok d)
    (hsort : vars.Pairwise fun a b => a.start.toNat ≤ b.start.toNat)
    (hover : overlapFree vars = true) (hlast : vars.getLast? = some last) (hfit : last.stop < 2 ^ 16) :
    ∃ data, backendFormatRawPack raw magic vars = .ok (packed magic data d) ∧
      data.length = last.stop ∧ (∀ v ∈ vars, v.stop ≤ last.stop) ∧
      ∀ v ∈ vars, slice v.start.toNat v.data.size data = v.data.raw := by
  have hstart := start_le_last hsort hlast
  have hdlen : digestLength d < 2 ^ 31 := by
    cases d with
    | none => exact Nat.two_pow_pos 31
    | some dg => exact dg.length_lt
  have hstop32 : last.stop32 = last.stop := Nat.mod_eq_of_lt (by omega)
  have hlastle : last.start.toNat ≤ last.stop := Nat.le_add_right _ _
  have hdis : Disjoint vars := disjoint_of_overlapFree hover hsort
    fun v hv => by have := hstart v hv; have := v.data.size_le; omega
  have hin : ∀ v ∈ vars, v.stop ≤ last.stop := stop_le_last hdis hlast
  have hzero : (replicate (last.stop + digestLength d) (0 : UInt8)).length
      = last.stop + digestLength d := length_replicate
  obtain ⟨area, hpack, -, hslices⟩ := packVars_spec
    (replicate (last.stop + digestLength d) 0) hdis
    (fun v hv => by rw [hzero]; exact Nat.le_add_right_of_le (hin v hv))
  have harea := (packVars_length hpack).1
  have hdata : (area.take last.stop).length = last.stop := length_take_of_le (by omega)
  refine ⟨area.take last.stop, ?_, hdata, hin, ?_⟩
  · unfold backendFormatRawPack
    rw [hd]
    simp only [hlast, hstop32]
    rw [if_neg (by unfold headerSize; omega), hpack]
    simp only [Nat.mod_eq_of_lt hfit, packed, hdata]
  · intro v hv
    have hle := hin v hv
    rw [← hslices v hv, ← slice_zero, slice_slice _ hle, Nat.zero_add]

/-- Flipping every bit keeps the layout and changes every value there is. -/
def Variable.flip (v : Variable) : Variable :=
  { v with
    data := v.data.setRaw (v.data.raw.map (~~~ ·)) (by rw [length_map, v.data.raw_length]) }

theorem sameLayout_flip : ∀ (vars : List Variable), SameLayout vars (vars.map Variable.flip)
  | [] => List.Forall₂.nil
  | v :: vars =>
    List.Forall₂.cons ⟨rfl, rfl, (v.data.setRaw_type ..).symm, (v.data.setRaw_size ..).symm⟩
      (sameLayout_flip vars)

/-- A variable with bytes can have other ones. -/
theorem flip_raw_ne {v : Variable} (h : v.data.size ≠ 0) : v.flip.data.raw ≠ v.data.raw := by
  show (v.data.setRaw _ _).raw ≠ v.data.raw
  rw [VarData.setRaw_raw]
  have hlen := v.data.raw_length
  intro heq
  cases hraw : v.data.raw with
  | nil =>
    rw [hraw] at hlen
    exact h hlen.symm
  | cons x b =>
    rw [hraw, map_cons, List.cons.injEq] at heq
    have hx : 255 - x.toNat = x.toNat := (UInt8.toNat_not x).symm.trans (congrArg UInt8.toNat heq.1)
    omega

/-- What a successful pack has found: a digest, if one is asked for, and a
last variable whose end has not wrapped around. The header keeps sixteen
bits of that end. -/
theorem pack_ok {buf : Bytes} (h : backendFormatRawPack raw magic vars = .ok buf) :
    ∃ d last data, raw.auth false = .ok d ∧ vars.getLast? = some last ∧ last.stop < 2 ^ 32 ∧
      data.length = last.stop ∧
      buf = appendDigest d (rawHeader magic (last.stop % 2 ^ 16) (crc32 0 data) ++ data) := by
  unfold backendFormatRawPack at h
  split at h
  · cases h
  next d hd =>
  split at h
  · cases h
  next last hlast =>
  dsimp only at h
  split at h
  · cases h
  split at h
  · cases h
  next area hpack =>
  obtain ⟨harea, hstops⟩ := packVars_length hpack
  have hin := hstops last (mem_of_getLast? hlast)
  rw [length_replicate] at hin harea
  have hlt : last.stop < 2 ^ 32 := by
    omega
  have hstop32 : last.stop32 = last.stop := Nat.mod_eq_of_lt hlt
  rw [hstop32] at h harea
  refine ⟨d, last, area.take last.stop, hd, hlast, hlt, ?_, (Except.ok.inj h).symm⟩
  rw [length_take]
  omega

theorem headerDataLen_appendDigest {m : UInt32} (crc : UInt32) (data : Bytes) (h : dataLen < 2 ^ 16) :
    headerDataLen (appendDigest d (rawHeader m dataLen crc ++ data)) = dataLen := by
  cases d with
  | none => exact headerDataLen_rawHeader h
  | some dg =>
    exact headerDataLen_rawHeader h

/-- A state that makes the round trip ends below `2 ^ 16`, unless its last
variable is empty. -/
theorem RoundTrips.stop_lt (hne : ∀ last, vars.getLast? = some last → last.data.size ≠ 0)
    (h : RoundTrips raw magic vars) :
    (∃ d, raw.auth false = .ok d) ∧ ∃ last, vars.getLast? = some last ∧ last.stop < 2 ^ 16 := by
  obtain ⟨buf, hpack, -, hrestore⟩ := h
  obtain ⟨d, last, data, hd, hlast, hlt, -, rfl⟩ := pack_ok hpack
  have hdlen := headerDataLen_appendDigest (d := d) (m := magic) (crc32 0 data) data
    (Nat.mod_lt last.stop (Nat.two_pow_pos 16))
  refine ⟨⟨d, hd⟩, last, hlast, ?_⟩
  -- otherwise the last variable ends behind `data_len`, and unpack leaves it as it was
  refine Nat.lt_of_not_le fun hbig => ?_
  obtain ⟨hok, hmap⟩ := hrestore _ (sameLayout_flip vars)
  obtain ⟨w, hw, hraw⟩ := unpackVar_of_restored hok hmap last (mem_of_getLast? hlast)
  have hsame : last.flip.stop = last.stop := by
    unfold Variable.stop
    rw [show last.flip.data.size = last.data.size from VarData.setRaw_size ..]
    rfl
  have hstop : last.flip.stop32 = last.stop := by
    unfold Variable.stop32
    rw [hsame, Nat.mod_eq_of_lt hlt]
  unfold unpackVar at hw
  rw [if_pos (by omega)] at hw
  cases hw
  exact flip_raw_ne (hne last hlast) hraw

/-- A layout that ends below `2 ^ 16` makes the round trip. -/
theorem roundTrips_of_stop_lt (hd : raw.auth false = .ok d)
    (hsort : vars.Pairwise fun a b => a.start.toNat ≤ b.start.toNat)
    (hover : overlapFree vars = true) (hlast : vars.getLast? = some last)
    (hfit : last.stop < 2 ^ 16) : RoundTrips raw magic vars := by
  obtain ⟨data, hpack, hlen, hin, hslices⟩ := pack_eq magic hd hsort hover hlast hfit
  have hshort : data.length < 2 ^ 16 := by omega
  have hverify := verify_appendDigest hd false (validRaw_rawHeader magic hshort) []
  rw [append_nil] at hverify
  refine ⟨_, hpack, by rw [packed, hverify], ?_⟩
  intro ws hws
  obtain ⟨mac, hbuf⟩ := packed_eq magic data d
  have hdata : (packed magic data d).drop headerSize = data ++ mac := by
    rw [hbuf, ← rawHeader_length magic data.length (crc32 0 data), drop_left]
  unfold backendFormatRawUnpack
  rw [hdata, hbuf, headerDataLen_rawHeader hshort]
  refine unpackVars_restores hws (by omega) (by rw [length_append]; omega) ?_ ?_
  · intro v hv
    rw [hlen]
    exact hin v hv
  · intro v hv
    have hle := hin v hv
    rw [slice_append_left _ (by rw [hlen]; exact hle)]
    exact hslices v hv

/-- **Raw format round trip.** For a state that was created successfully,
under any values: if a digest is available where one is asked for, there
is a variable, and the last one ends below `2 ^ 16`, then pack, verify and
unpack restore every variable. Unless the last variable is an empty
string, that is also necessary. -/
theorem raw_round_trip (node : Of.Node) (st : Instance) (raw : RawFormat) (vars : List Variable)
    (hc : stateFromNodeCreate node stateNew = .ok st) (hl : SameLayout st.vars vars) :
    ((∃ d, raw.auth false = .ok d) ∧ (∃ last, vars.getLast? = some last ∧ last.stop < 2 ^ 16) →
      RoundTrips raw st.magic vars) ∧ ((∀ last, vars.getLast? = some last → last.data.size ≠ 0) →
      RoundTrips raw st.magic vars →
        (∃ d, raw.auth false = .ok d) ∧
        ∃ last, vars.getLast? = some last ∧ last.stop < 2 ^ 16) := by
  obtain ⟨hsort, hover⟩ := (created_of_stateFromNodeCreate rfl hc).layout hl
  constructor
  · rintro ⟨⟨d, hd⟩, last, hlast, hfit⟩
    exact roundTrips_of_stop_lt hd hsort hover hlast hfit
  · intro hne h
    exact h.stop_lt hne

/-- A state node with a MAC address at offset 8 and a counter at `start`. -/
def counterNode (start : UInt32) : Of.Node :=
  .mk (cstr "state") (cstr "/state") 0 [.owned (cstr "magic") [0, 0, 0x12, 0x34]]
    [.mk (cstr "counter") (cstr "/state/counter") 0
      [.owned (cstr "type") (cstr "uint32" ++ [0]),
        .owned (cstr "reg") (beBytes 4 start.toNat ++ beBytes 4 4)] [],
     .mk (cstr "ethaddr@8") (cstr "/state/ethaddr@8") 0
      [.owned (cstr "type") (cstr "mac" ++ [0]),
        .owned (cstr "reg") (beBytes 4 8 ++ beBytes 4 6)] []]

/-- The variables of that node, with a value for the counter. -/
def counterVars (start value : UInt32) : List Variable :=
  [⟨cstr "ethaddr", 8, .mac .zero .zero⟩, ⟨cstr "counter", start, .uint32 value 0⟩]

/-- The state created from it. -/
def counterState (start : UInt32) : Instance :=
  { stateNew with
    magic := 0x1234
    vars := counterVars start 0
    params := cstr "ethaddr" :: cstr "counter" :: stateNew.params }

theorem counterVars_layout (start v w : UInt32) :
    SameLayout (counterVars start v) (counterVars start w) :=
  .cons ⟨rfl, rfl, rfl, rfl⟩ (.cons ⟨rfl, rfl, rfl, rfl⟩ .nil)

/-- A short keyed checksum, to stand for an HMAC. -/
def crcDigest : Digest :=
  ⟨4, fun m => leBytes 4 (crc32 0x2a m).toNat, fun _ => leBytes_length 4 _, Nat.succ_pos 3, by decide⟩

theorem raw_round_trip_counter : RoundTrips ⟨some (.ok crcDigest)⟩ 0x1234 (counterVars 20 7) :=
  (raw_round_trip (counterNode 20) (counterState 20) _ _ rfl (counterVars_layout 20 0 7)).1
    ⟨⟨some crcDigest, rfl⟩, ⟨cstr "counter", 20, .uint32 7 0⟩, rfl, by decide⟩

/-- A counter whose last byte is the 65536th: accepted, packed with a
`data_len` of zero, and lost. -/
theorem raw_round_trip_truncated :
    ¬ ∀ (node : Of.Node) (st : Instance) (raw : RawFormat) (vars : List Variable),
      stateFromNodeCreate node stateNew = .ok st → SameLayout st.vars vars →
      (∃ d, raw.auth false = .ok d) → RoundTrips raw st.magic vars := by
  intro h
  have hrt := h (counterNode 65532) (counterState 65532) ⟨none⟩ (counterVars 65532 7) rfl
    (counterVars_layout 65532 0 7) ⟨none, rfl⟩
  obtain ⟨-, last, hlast, hfit⟩ := hrt.stop_lt (by
    intro last hlast
    cases hlast
    decide)
  cases hlast
  revert hfit
  decide

end Barebox.State
