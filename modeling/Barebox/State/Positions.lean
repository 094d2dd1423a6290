import Barebox.State.RawRoundTrip

/-!
# Where the variables lie

`state_from_node` sorts the variables by their start and compares neighbours; the raw format
takes the end of the last one for the length of the data. Both compute in 32 bits.

Sorted neighbours that do not overlap are enough, as long as no variable ends at or behind
`2 ^ 32`. One that does is compared by the end that is left of it modulo `2 ^ 32`: it passes,
whatever is behind it. `positions_iff` reads the condition off the `reg` properties.
-/

namespace Barebox.State

open Lib Of

/-- The byte is one of the variable's. -/
def Variable.Has (v : Variable) (i : Nat) : Prop := v.start.toNat ≤ i ∧ i < v.stop

/-- No byte belongs to two variables, and all are inside of the data that
`backend_format_raw_pack` allocates for the last variable. -/
structure WellPlaced (vars : List Variable) : Prop where
  disjoint : vars.Pairwise fun a b => ∀ i, ¬ (a.Has i ∧ b.Has i)
  inside : ∀ last, vars.getLast? = some last → ∀ v ∈ vars, ∀ i, v.Has i → i < last.stop32

/-- The `reg` properties of the nodes that become variables. -/
def regs (l : List (Bytes × Node)) : List (UInt32 × UInt32) :=
  l.filterMap fun v =>
    match nodeType v.2 with
    | .ok (some _) => (ofPropertyReadU32Pair v.2 (cstr "reg")).toOption
    | _ => none

def Variable.position (v : Variable) : Nat × Nat := (v.start.toNat, v.data.size)

def regPosition (r : UInt32 × UInt32) : Nat × Nat := (r.1.toNat, r.2.toNat)

/-! ## The variables are where the nodes say -/

/-- A node with a type adds one variable, at the position in its `reg`, … -/
theorem createAt_regs {name : Bytes} {node : Node} {st st' : Instance} (h : createAt name node st = .ok st') :
    (st'.vars.map Variable.position).Perm ((regs [(name, node)]).map regPosition ++ st.vars.map Variable.position) := by
  unfold createAt at h
  split at h
  · cases h
  · next hty =>
    cases h
    simp [regs, hty]
  · next t hty =>
    split at h
    · cases h
    next d₀ hcreate =>
    split at h
    · cases h
    next start size hreg =>
    split at h
    · cases h
    next hsize =>
    split at h
    · cases h
    next d himp =>
    cases h
    have hd : d.size = size.toNat := by
      have hkept := (importFrom_type_size t d₀ node .live).2
      rw [himp] at hkept
      exact hkept.trans (Decidable.not_not.mp hsize).symm
    have hregs : regs [(name, node)] = [(start, size)] := by
      simp [regs, hty, hreg, Except.toOption]
    rw [hregs]
    refine ((stateAddVar_perm ⟨name, start, d⟩ st.vars).map Variable.position).trans ?_
    simp [Variable.position, regPosition, hd]

/-- … and so does each of them. -/
theorem createRun_regs : ∀ {l : List (Bytes × Node)} {st st' : Instance}, createRun l st = .ok st' →
    (st'.vars.map Variable.position).Perm ((regs l).map regPosition ++ st.vars.map Variable.position)
  | [], _, _, h => by
    cases h
    exact List.Perm.refl _
  | (name, node) :: l, st, st', h => by
    rw [createRun] at h
    split at h
    · cases h
    next st₁ hat =>
    have hsplit : regs ((name, node) :: l) = regs [(name, node)] ++ regs l :=
      List.filterMap_append (l := [(name, node)]) ..
    rw [hsplit, List.map_append]
    calc (st'.vars.map Variable.position).Perm ((regs l).map regPosition ++ st₁.vars.map Variable.position) :=
          createRun_regs h
      List.Perm _ ((regs l).map regPosition
            ++ ((regs [(name, node)]).map regPosition ++ st.vars.map Variable.position)) :=
          (createAt_regs hat).append_left _
      List.Perm _ _ := by
          rw [← List.append_assoc]
          exact List.perm_append_comm.append_right _

/-! ## Sorted and compared -/

/-- The variables are well placed if and only if none of them ends at or behind `2 ^ 32`. -/
theorem wellPlaced_iff {vars : List Variable} (hsort : vars.Pairwise fun a b => a.start.toNat ≤ b.start.toNat)
    (hover : overlapFree vars = true) : WellPlaced vars ↔ ∀ v ∈ vars, v.stop < 2 ^ 32 := by
  constructor
  · intro h v hv
    obtain ⟨last, hlast⟩ : ∃ last, vars.getLast? = some last :=
      Option.ne_none_iff_exists'.mp fun hnone => List.ne_nil_of_mem hv (List.getLast?_eq_none_iff.mp hnone)
    rcases Nat.eq_zero_or_pos v.data.size with hempty | hpos
    · have := v.start.toNat_lt
      unfold Variable.stop
      omega
    · -- the last byte of the variable is below a number of 32 bits
      have hin := h.inside last hlast v hv (v.stop - 1) (by unfold Variable.Has Variable.stop; omega)
      have hlt : last.stop32 < 2 ^ 32 := Nat.mod_lt _ (Nat.two_pow_pos 32)
      omega
  · intro h
    have hdis := disjoint_of_overlapFree hover hsort h
    refine ⟨?_, ?_⟩
    · refine hdis.imp fun hab i ⟨⟨_, ha⟩, ⟨hb, _⟩⟩ => ?_
      exact absurd (Nat.lt_of_lt_of_le ha hab) (Nat.not_lt.mpr hb)
    · intro last hlast v hv i ⟨_, hi⟩
      have hstop32 : last.stop32 = last.stop := Nat.mod_eq_of_lt (h last (List.mem_of_getLast? hlast))
      rw [hstop32]
      exact Nat.lt_of_lt_of_le hi (stop_le_last hdis hlast v hv)

/-- The layout check, for every state node: what it accepts is well placed if and only if
`start + size` of every `reg` is below `2 ^ 32`. -/
theorem positions_iff (node : Node) (st₀ st : Instance) (h₀ : st₀.vars = [])
    (h : stateFromNodeCreate node st₀ = .ok st) :
    WellPlaced st.vars ↔ ∀ r ∈ regs (visitsAll node.children []), r.1.toNat + r.2.toNat < 2 ^ 32 := by
  have hc := created_of_stateFromNodeCreate h₀ h
  rw [wellPlaced_iff hc.inv.sorted hc.overlap]
  have hperm : (st.vars.map Variable.position).Perm ((regs (visitsAll node.children [])).map regPosition) := by
    obtain ⟨⟨magic, hrun⟩, -⟩ := createRun_of_stateFromNodeCreate h
    simpa [h₀] using createRun_regs hrun
  have hvars : (∀ v ∈ st.vars, v.stop < 2 ^ 32) ↔ ∀ p ∈ st.vars.map Variable.position, p.1 + p.2 < 2 ^ 32 := by
    rw [List.forall_mem_map]
    rfl
  have hregs : (∀ r ∈ regs (visitsAll node.children []), r.1.toNat + r.2.toNat < 2 ^ 32)
      ↔ ∀ p ∈ (regs (visitsAll node.children [])).map regPosition, p.1 + p.2 < 2 ^ 32 := by
    rw [List.forall_mem_map]
    rfl
  rw [hvars, hregs]
  exact ⟨fun h p hp => h p (hperm.mem_iff.mpr hp), fun h p hp => h p (hperm.mem_iff.mp hp)⟩

/-- A state node with a MAC address at `start` and a byte behind its first byte. -/
def macNode (start : UInt32) : Node :=
  .mk (cstr "state") (cstr "/state") 0 [.owned (cstr "magic") [0, 0, 0x12, 0x34]]
    [.mk (cstr "ethaddr") (cstr "/state/ethaddr") 0
      [.owned (cstr "type") (cstr "mac" ++ [0]),
        .owned (cstr "reg") (beBytes 4 start.toNat ++ beBytes 4 6)] [],
     .mk (cstr "flags") (cstr "/state/flags") 0
      [.owned (cstr "type") (cstr "uint8" ++ [0]),
        .owned (cstr "reg") (beBytes 4 0xfffffffd ++ beBytes 4 1)] []]

/-- The state created from it, if the check lets it pass. -/
def macState (start : UInt32) : Instance :=
  { stateNew with
    magic := 0x1234
    vars := [⟨cstr "ethaddr", start, .mac .zero .zero⟩, ⟨cstr "flags", 0xfffffffd, .uint8 0 0⟩]
    params := cstr "flags" :: cstr "ethaddr" :: stateNew.params }

theorem positions_low : WellPlaced (macState 16).vars := by
  have hregs : regs (visitsAll (macNode 16).children []) = [(16, 6), (0xfffffffd, 1)] := rfl
  refine (positions_iff (macNode 16) stateNew (macState 16) rfl rfl).mpr ?_
  rw [hregs]
  simp

/-- The MAC address ends behind `2 ^ 32`; the byte in the middle of it is not noticed. -/
theorem positions_wrapped :
    stateFromNodeCreate (macNode 0xfffffffc) stateNew = .ok (macState 0xfffffffc)
      ∧ ¬ WellPlaced (macState 0xfffffffc).vars := by
  refine ⟨rfl, fun h => ?_⟩
  have hboth := (List.pairwise_cons.mp h.disjoint).1 _ (List.mem_singleton_self _) 0xfffffffd
  exact hboth (by unfold Variable.Has; decide)

end Barebox.State
