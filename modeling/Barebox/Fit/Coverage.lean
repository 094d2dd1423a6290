import Barebox.Fit.Model
import Barebox.Fit.Walk

/-!
# What verified boot has verified

A boot from a FIT image takes three calls: `fit_open_buf`,
`fit_open_configuration`, which checks the signatures of the configuration,
and `fit_open_image`, which checks the hash of the image. What is meant to
hold afterwards is that the configuration, the image and its hash node were
all under one signature, property by property, the `data` alone excepted.

Which nodes a signature is about is up to the list `hashed-nodes` in the
signature node, and nothing compares that list with what is booted. So the
answer is a condition on the list (`boot_covered`): in a tame blob, the
three nodes are covered if and only if some signature of the configuration
lists them, and has their property names in its `hashed-strings`.

The signature node is not covered by its own signature. It can be copied to
a new configuration next to the one it was made for, and goes on to verify
there, because everything it lists is still in place.
-/

namespace Barebox.Fit

open Lib Of

/-! ## A boot -/

/-- What a boot has come to. -/
structure FitBoot where
  handle : FitHandle
  conf : Node
  accepted : List (List Span)
  data : Bytes

/-- `fit_open_buf` in `BOOTM_VERIFY_SIGNATURE` mode, `fit_open_configuration`,
and `fit_open_image` of the image `name` of the configuration. -/
def fitBoot {κ : Type} (env : FitEnv κ) (buf : Bytes) (size : Nat) (confName : Option Bytes)
    (name : Bytes) : Except Errno FitBoot :=
  match fitOpenBuf buf size .signature with
  | .error e => .error e
  | .ok handle =>
    match fitOpenConfiguration env handle confName with
    | .error e => .error e
    | .ok (conf, accepted) =>
      match fitOpenImage env handle conf name with
      | .error e => .error e
      | .ok data => .ok ⟨handle, conf, accepted, data⟩

/-! ## Coverage -/

/-- A property in the structure block: its tag, its header, its value. -/
def structSpan (p : Property) : Option Span := p.constAt.map fun a => ⟨a - 12, 12 + p.length⟩

/-- The name of a property in the strings block, with the NUL. -/
def nameSpan (mem : Bytes) (f : FdtHeader) (p : Property) : Option Span :=
  (p.constAt.bind fun a => be32At mem (a - 4)).map fun nameoff =>
    ⟨f.offDtStrings + nameoff, p.name.length + 1⟩

/-- A property has gone into the digest, with its name. -/
def PropCovered (mem : Bytes) (f : FdtHeader) (spans : List Span) (p : Property) : Prop :=
  ∃ sp ∈ structSpan p, ∃ nsp ∈ nameSpan mem f p,
    (∀ i, sp.Has i → InSpans spans i) ∧ ∀ i, nsp.Has i → InSpans spans i

/-- One of the accepted digests has taken in every property of the nodes
except `data`. -/
def Covered (mem : Bytes) (f : FdtHeader) (accepted : List (List Span)) (nodes : List Node) : Prop :=
  ∃ spans ∈ accepted, ∀ np ∈ nodes, ∀ p ∈ np.props, p.name ≠ cstr "data" →
    PropCovered mem f spans p

/-! ## What a signature lists -/

/-- The paths in `hashed-nodes`, and `hashed-strings` as a span. -/
structure SignedPart where
  nodes : List Bytes
  strings : Span

def signedPart (mem : Bytes) (f : FdtHeader) (sigNode : Node) : Option SignedPart :=
  match hashedStrings sigNode, ofReadStringList mem sigNode (cstr "hashed-nodes") with
  | .ok (start, size), .ok nodes =>
    if hashedStringsFit f start size then some ⟨nodes, ⟨f.offDtStrings + start, size⟩⟩ else none
  | _, _ => none

/-- The path of the node is listed, and the name of the property is among
the strings. -/
def SignedPart.Has (mem : Bytes) (f : FdtHeader) (part : SignedPart) (fullName : Bytes)
    (p : Property) : Prop :=
  digestPath fullName ∈ part.nodes ∧ ∃ nsp ∈ nameSpan mem f p,
    part.strings.start ≤ nsp.start ∧ nsp.start + nsp.len ≤ part.strings.start + part.strings.len

instance (mem : Bytes) (f : FdtHeader) (part : SignedPart) (fullName : Bytes) (p : Property) :
    Decidable (part.Has mem f fullName p) := by
  unfold SignedPart.Has
  infer_instance

/-- A signature lists the nodes, but for their `data`. -/
def Lists (mem : Bytes) (f : FdtHeader) (sigNode : Node) (nodes : List Node) : Prop :=
  ∀ np ∈ nodes, ∀ p ∈ np.props, p.name ≠ cstr "data" →
    ∃ part ∈ signedPart mem f sigNode, part.Has mem f np.fullName p

instance (mem : Bytes) (f : FdtHeader) (sigNode : Node) (nodes : List Node) :
    Decidable (Lists mem f sigNode nodes) := by
  unfold Lists
  infer_instance

/-! ## Tame blobs -/

instance : DecidablePred TameName := fun k =>
  decidable_of_iff (slash ∉ k.1 ∧ k.2.count slash < fdtMaxDepth ∧
      k.2.length + (if k.2.count slash = 1 then 2 else 1) < fdtMaxPathLen)
    ⟨fun ⟨h₁, h₂, h₃⟩ => ⟨h₁, h₂, h₃⟩, fun h => ⟨h.noSlash, h.depth, h.short⟩⟩

/-- A blob the digest walks as it was unflattened, with the names of its
properties in the strings block. -/
structure Tame (mem : Bytes) (f : FdtHeader) (root : Node) : Prop where
  forward : walksForward mem f (mem.length + 1) f.offDtStruct = true
  names : ∀ k ∈ root.keys, TameName k
  blob : f.offDtStrings + f.sizeDtStrings ≤ f.totalsize
  strings : ∀ x ∈ root.flat, ∀ p ∈ x.props, ∀ nsp ∈ nameSpan mem f p,
    nsp.start + nsp.len ≤ f.offDtStrings + f.sizeDtStrings

instance (mem : Bytes) (f : FdtHeader) (root : Node) : Decidable (Tame mem f root) :=
  decidable_of_iff (walksForward mem f (mem.length + 1) f.offDtStruct = true ∧
      (∀ k ∈ root.keys, TameName k) ∧ f.offDtStrings + f.sizeDtStrings ≤ f.totalsize ∧
      ∀ x ∈ root.flat, ∀ p ∈ x.props, ∀ nsp ∈ nameSpan mem f p,
        nsp.start + nsp.len ≤ f.offDtStrings + f.sizeDtStrings)
    ⟨fun ⟨h₁, h₂, h₃, h₄⟩ => ⟨h₁, h₂, h₃, h₄⟩, fun h => ⟨h.forward, h.names, h.blob, h.strings⟩⟩

/-- The two blocks of the blob have no byte in common. -/
def BlocksApart (f : FdtHeader) : Prop :=
  f.offDtStrings + f.sizeDtStrings ≤ f.offDtStruct ∨ f.structEnd ≤ f.offDtStrings

instance (f : FdtHeader) : Decidable (BlocksApart f) := inferInstanceAs (Decidable (_ ∨ _))

/-! ## One signature -/

section

variable {κ : Type} {env : FitEnv κ} {mem : Bytes} {size : Nat} {f : FdtHeader} {root : Node}

variable {sigNode image : Node}

/-- A signature that verifies, and what was digested for it. -/
theorem fitVerifySignature_ok {spans : List Span}
    (h : fitVerifySignature env sigNode mem = .ok spans) :
    ∃ start len incNodes, hashedStrings sigNode = .ok (start, len) ∧
      ofReadStringList mem sigNode (cstr "hashed-nodes") = .ok incNodes ∧
      spans = (fitDigest mem incNodes [cstr "data"] start len).2 := by
  unfold fitVerifySignature at h
  split at h
  · cases h
  next start len hstrings =>
  split at h
  · cases h
  next incNodes hnodes =>
  refine ⟨start, len, incNodes, hstrings, hnodes, ?_⟩
  split at h
  · cases h
  dsimp only at h
  split at h
  · cases h
  · split at h
    · cases h
    · cases h
      rfl

/-- `hashed-strings` that pass the check lie in the strings block. -/
theorem hashedStringsFit_le {start len : Nat} (hblob : f.sizeDtStrings < 2 ^ 31)
    (h : hashedStringsFit f start len = true) : start + len ≤ f.sizeDtStrings := by
  have hfit := of_decide_eq_true h
  omega

/-- **A property and a signature that has verified**: covered if listed, and
only then if no block covers for the other. -/
theorem propCovered_spec {spans : List Span} {x : NodeInfo} {p : Property}
    (hf : fdtHeader mem = some f) (hsize : size < 2 ^ 31)
    (hroot : ofUnflattenDtbConst mem size = .ok root) (htame : Tame mem f root)
    (hverify : fitVerifySignature env sigNode mem = .ok spans) (hx : x ∈ root.flat)
    (hp : p ∈ x.props) (hdata : p.name ≠ cstr "data") :
    ((∃ part ∈ signedPart mem f sigNode, part.Has mem f x.fullName p) → PropCovered mem f spans p)
      ∧ (BlocksApart f → PropCovered mem f spans p →
        ∃ part ∈ signedPart mem f sigNode, part.Has mem f x.fullName p) := by
  obtain ⟨start, len, incNodes, hstrings, hnodes, rfl⟩ := fitVerifySignature_ok hverify
  unfold signedPart fitDigest
  rw [hstrings, hnodes, hf]
  dsimp only
  cases hfit : hashedStringsFit f start len with
  | false =>
    -- nothing has gone into the digest, and no property is nothing
    constructor
    · rintro ⟨part, hpart, -⟩
      cases hpart
    · rintro - ⟨sp, hsp, -, -, hall, -⟩
      obtain ⟨a, -, rfl⟩ := Option.map_eq_some_iff.mp hsp
      obtain ⟨sp', hsp', -⟩ := hall (a - 12) (Span.has_start (by omega))
      cases hsp'
  | true =>
    obtain ⟨walk, hloop, hdig⟩ := digest_walk incNodes hf hsize hroot htame.forward htame.names
    have hblob := htame.blob
    obtain ⟨-, htotal, -⟩ := ofUnflatten_loop hf hroot
    have hle := hashedStringsFit_le (by omega) hfit
    simp only [Bool.not_true, Bool.false_eq_true, if_false, if_true, hloop]
    constructor
    · rintro ⟨part, hpart, hlisted, nsp, hnsp, hge', hle'⟩
      cases hpart
      have hconst : ∃ a, p.constAt = some a := by
        unfold nameSpan at hnsp
        cases ha : p.constAt with
        | none =>
          rw [ha] at hnsp
          cases hnsp
        | some a => exact ⟨a, rfl⟩
      obtain ⟨a, ha⟩ := hconst
      obtain ⟨off, rfl, -, -, hcov, -⟩ := hdig.judged x hx p hp a ha hdata
      refine ⟨⟨off + 12 - 12, 12 + p.length⟩, by rw [structSpan, ha]; rfl, nsp, hnsp, ?_, ?_⟩
      · rintro i ⟨hi₁, hi₂⟩
        simp only at hi₁ hi₂
        exact inSpans_concat.mpr (Or.inl (hcov hlisted i (by omega) (by omega)))
      · rintro i ⟨hi₁, hi₂⟩
        refine inSpans_concat.mpr (Or.inr ⟨?_, ?_⟩)
        · exact Nat.le_trans hge' hi₁
        · exact Nat.lt_of_lt_of_le hi₂ hle'
    · rintro hapart ⟨sp, hsp, nsp, hnsp, hall, hname⟩
      unfold BlocksApart at hapart
      obtain ⟨a, ha, rfl⟩ := Option.map_eq_some_iff.mp hsp
      obtain ⟨off, rfl, hge, hend, -, hout⟩ := hdig.judged x hx p hp a ha hdata
      refine ⟨_, rfl, ?_, nsp, hnsp, ?_⟩
      · -- the tag of the property is not in the strings block
        refine Decidable.byContradiction fun hlisted => ?_
        rcases inSpans_concat.mp (hall off (Span.has_start (by omega))) with hi | ⟨hi₁, hi₂⟩
        · exact hout hlisted hi
        · simp only at hi₁ hi₂
          omega
      · -- nor is the name in the structure block
        have hin := htame.strings x hx p hp nsp hnsp
        obtain ⟨nameoff, -, rfl⟩ := Option.map_eq_some_iff.mp hnsp
        have hstring : ∀ i, f.offDtStrings + nameoff ≤ i →
            i < f.offDtStrings + nameoff + (p.name.length + 1) →
            f.offDtStrings + start ≤ i ∧ i < f.offDtStrings + start + len := by
          intro i hge' hlt
          rcases inSpans_concat.mp (hname i ⟨hge', hlt⟩) with hi | hi
          · have hstruct := hdig.inside i hi
            simp only at hin
            omega
          · exact hi
        have hfirst := hstring (f.offDtStrings + nameoff) (by omega) (by omega)
        have hlast := hstring (f.offDtStrings + nameoff + p.name.length) (by omega) (by omega)
        simp only
        omega

/-! ## The whole boot -/

/-- What the signatures of a configuration have accepted. -/
theorem verifyAll_ok : ∀ {sigNodes : List Node} {accepted : List (List Span)},
    verifyAll env mem sigNodes = .ok accepted →
    (∀ spans ∈ accepted, ∃ sigNode ∈ sigNodes, fitVerifySignature env sigNode mem = .ok spans) ∧
    ∀ sigNode ∈ sigNodes, ∃ spans ∈ accepted, fitVerifySignature env sigNode mem = .ok spans
  | [], accepted, h => by
    cases h
    exact ⟨nofun, nofun⟩
  | sigNode :: sigNodes, accepted, h => by
    rw [verifyAll] at h
    split at h
    · cases h
    next spans hspans =>
    split at h
    · cases h
    next rest hrest =>
    cases h
    obtain ⟨hacc, hsig⟩ := verifyAll_ok hrest
    constructor
    · intro sp hsp
      rcases List.mem_cons.mp hsp with rfl | hsp
      · exact ⟨sigNode, List.mem_cons_self .., hspans⟩
      · obtain ⟨s, hs, hv⟩ := hacc sp hsp
        exact ⟨s, List.mem_cons_of_mem _ hs, hv⟩
    · intro s hs
      rcases List.mem_cons.mp hs with rfl | hs
      · exact ⟨spans, List.mem_cons_self .., hspans⟩
      · obtain ⟨sp, hsp, hv⟩ := hsig s hs
        exact ⟨sp, List.mem_cons_of_mem _ hsp, hv⟩

variable {name : Bytes} {handle : FitHandle} {conf : Node}

/-- A node found by its name is a node of the tree. -/
theorem flat_of_ofGetChildByName {np child : Node} {x : NodeInfo}
    (h : ofGetChildByName np name = some child) (hx : x ∈ child.flat) : x ∈ np.flat :=
  flat_of_child (List.mem_of_find?_eq_some h) hx

/-- What a FIT that is open consists of. -/
theorem fitOpenBuf_ok (h : fitOpenBuf mem size .signature = .ok handle) :
    ofUnflattenDtbConst mem size = .ok handle.root ∧ handle.fit = mem ∧
      handle.verify = .signature ∧
      ofGetChildByName handle.root (cstr "images") = some handle.images ∧
      handle.configurations = ofGetChildByName handle.root (cstr "configurations") := by
  unfold fitOpenBuf at h
  split at h
  · cases h
  next root hroot =>
  split at h
  · cases h
  next images himages =>
  cases h
  exact ⟨hroot, rfl, rfl, himages, rfl⟩

variable {accepted : List (List Span)}

/-- A configuration that is open is a child of `/configurations`, and one of its signatures was
accepted. -/
theorem fitOpenConfiguration_ok {name : Option Bytes}
    (hverify : handle.verify = .signature)
    (h : fitOpenConfiguration env handle name = .ok (conf, accepted)) :
    ∃ configurations unit, handle.configurations = some configurations ∧
      ofGetChildByName configurations unit = some conf ∧
      verifyAll env handle.fit conf.children = .ok accepted := by
  unfold fitOpenConfiguration at h
  split at h
  · cases h
  next configurations hconfs =>
  dsimp only at h
  split at h
  · cases h
  next unit hunit =>
  split at h
  · cases h
  next confNode hconf =>
  split at h
  · cases h
  next acc hacc =>
  cases h
  refine ⟨configurations, unit, hconfs, hconf, ?_⟩
  unfold fitConfigVerifySignature at hacc
  rw [hverify] at hacc
  dsimp only at hacc
  split at hacc
  · cases hacc
  · exact hacc

/-- An image that opens has a hash node, and its data is what it returns. -/
theorem fitOpenImage_ok {data : Bytes}
    (hverify : handle.verify = .signature) (h : fitOpenImage env handle conf name = .ok data) :
    ∃ image hash p, fitGetImage handle conf name = .ok image ∧ hashNode image = some hash ∧
      ofFindProperty image (cstr "data") = some p ∧ p.value = data := by
  unfold fitOpenImage at h
  split at h
  · cases h
  next image himage =>
  split at h
  · cases h
  split at h
  · cases h
  next p hp =>
  split at h
  · cases h
  next hhash =>
  cases h
  unfold fitVerifyHash at hhash
  rw [hverify, if_neg (by decide)] at hhash
  split at hhash
  · cases hhash
  next hash hnode =>
  exact ⟨image, hash, p, himage, hnode, hp, rfl⟩

theorem fitGetImage_ok (h : fitGetImage handle conf name = .ok image) :
    ∃ unit, ofGetChildByName handle.images unit = some image := by
  unfold fitGetImage at h
  split at h
  · cases h
  next unit hunit =>
  split at h
  · cases h
  next image' himage =>
  cases h
  exact ⟨unit, himage⟩

theorem hashNode_ok {hash : Node} (h : hashNode image = some hash) :
    ∃ name, ofGetChildByName image name = some hash := by
  rcases Option.or_eq_some_iff.mp h with h | ⟨-, h⟩
  · exact ⟨_, h⟩
  · exact ⟨_, h⟩

/-- Nodes of the tree and the signatures of a configuration. -/
theorem covered_spec {sigNodes nodes : List Node}
    (hf : fdtHeader mem = some f) (hsize : size < 2 ^ 31)
    (hroot : ofUnflattenDtbConst mem size = .ok root) (htame : Tame mem f root)
    (hverify : verifyAll env mem sigNodes = .ok accepted) (hnodes : ∀ np ∈ nodes, np.info ∈ root.flat) :
    ((∃ sigNode ∈ sigNodes, Lists mem f sigNode nodes) → Covered mem f accepted nodes)
      ∧ (BlocksApart f → Covered mem f accepted nodes → ∃ sigNode ∈ sigNodes, Lists mem f sigNode nodes) := by
  obtain ⟨hacc, hsig⟩ := verifyAll_ok hverify
  constructor
  · rintro ⟨sigNode, hmem, hlists⟩
    obtain ⟨spans, hspans, hv⟩ := hsig sigNode hmem
    exact ⟨spans, hspans, fun np hnp p hp hdata =>
      (propCovered_spec hf hsize hroot htame hv (hnodes np hnp) hp hdata).1 (hlists np hnp p hp hdata)⟩
  · rintro hapart ⟨spans, hspans, hcov⟩
    obtain ⟨sigNode, hmem, hv⟩ := hacc spans hspans
    exact ⟨sigNode, hmem, fun np hnp p hp hdata =>
      (propCovered_spec hf hsize hroot htame hv (hnodes np hnp) hp hdata).2 hapart (hcov np hnp p hp hdata)⟩

/-- **Verified boot covers what is listed.** A boot from a tame FIT image has
a configuration, an image whose data it returns, and the hash node the data
was checked with; they are all under one accepted signature if some signature
of the configuration lists them, and if the blocks of the blob are apart, only
then. -/
theorem boot_covered {confName : Option Bytes} {name : Bytes} {b : FitBoot}
    (hf : fdtHeader mem = some f) (hsize : size < 2 ^ 31)
    (hboot : fitBoot env mem size confName name = .ok b) (htame : Tame mem f b.handle.root) :
    ∃ image hash p, fitGetImage b.handle b.conf name = .ok image ∧ hashNode image = some hash ∧
      ofFindProperty image (cstr "data") = some p ∧ p.value = b.data ∧
      ((∃ sigNode ∈ b.conf.children, Lists mem f sigNode [b.conf, image, hash]) →
        Covered mem f b.accepted [b.conf, image, hash]) ∧
      (BlocksApart f → Covered mem f b.accepted [b.conf, image, hash] →
        ∃ sigNode ∈ b.conf.children, Lists mem f sigNode [b.conf, image, hash]) := by
  unfold fitBoot at hboot
  split at hboot
  · cases hboot
  next handle hopen =>
  split at hboot
  · cases hboot
  next conf accepted hconf =>
  split at hboot
  · cases hboot
  next data hdata =>
  cases hboot
  -- opening, the configuration and the image all succeeded
  obtain ⟨hroot, hfit, hverify, himages, hconfs⟩ := fitOpenBuf_ok hopen
  obtain ⟨configurations, unit, hsome, hchild, hall⟩ := fitOpenConfiguration_ok hverify hconf
  obtain ⟨image, hash, p, himage, hhash, hp, hvalue⟩ := fitOpenImage_ok hverify hdata
  obtain ⟨_, hget⟩ := fitGetImage_ok himage
  obtain ⟨_, hhget⟩ := hashNode_ok hhash
  rw [hconfs] at hsome
  rw [hfit] at hall
  have himg : ∀ x ∈ image.flat, x ∈ handle.root.flat := fun x hx =>
    flat_of_ofGetChildByName himages (flat_of_ofGetChildByName hget hx)
  refine ⟨image, hash, p, himage, hhash, hp, hvalue, covered_spec hf hsize hroot htame hall ?_⟩
  simp only [List.forall_mem_cons, List.not_mem_nil, false_imp_iff, implies_true, and_true]
  exact ⟨flat_of_ofGetChildByName hsome (flat_of_ofGetChildByName hchild (info_mem_flat _)),
    himg _ (info_mem_flat _), himg _ (flat_of_ofGetChildByName hhget (info_mem_flat _))⟩

end

/-! ## A FIT image, and a forgery -/

section

/-- Bytes padded to a multiple of four. -/
def pad4 (b : Bytes) : Bytes := b ++ List.replicate ((4 - b.length % 4) % 4) 0

/-- A property and a node in the structure block. -/
def flatProp (nameoff : Nat) (value : Bytes) : Bytes :=
  beBytes 4 3 ++ beBytes 4 value.length ++ beBytes 4 nameoff ++ pad4 value
@[inherit_doc flatProp]
def flatNode (name body : Bytes) : Bytes :=
  beBytes 4 1 ++ pad4 (name ++ [0]) ++ body ++ beBytes 4 2

/-- A blob with this root, and these property names. -/
def flatBlob (root strings : Bytes) : Bytes :=
  let tags := root ++ beBytes 4 9
  [fdtMagic, 56 + tags.length + strings.length, 56, 56 + tags.length, 40, 17, 16, 0, strings.length,
    tags.length].flatMap (beBytes 4 ·) ++ List.replicate 16 0 ++ tags ++ strings

/-- A C string with its NUL. -/
def cstrz (s : String) : Bytes := cstr s ++ [0]

/-- The property names of a FIT image; the offsets below are into these. -/
def fitNames : Bytes :=
  cstrz "type" ++ cstrz "data" ++ cstrz "algo" ++ cstrz "value" ++ cstrz "kernel"
    ++ cstrz "default" ++ cstrz "hashed-nodes" ++ cstrz "hashed-strings" ++ cstrz "key-name-hint"

/-- An image of four bytes, which are their own hash. -/
def fitImage (name : String) (data : Bytes) : Bytes :=
  flatNode (cstr name) (flatProp 0 (cstrz "k") ++ flatProp 5 data
    ++ flatNode (cstr "hash-1") (flatProp 10 (cstrz "id") ++ flatProp 15 data))

/-- The signature that was made for `conf-1` with the image `good`. -/
def fitSignature : Bytes :=
  flatNode (cstr "signature-1")
    (flatProp 36 (cstrz "/" ++ cstrz "/images/good" ++ cstrz "/images/good/hash-1"
        ++ cstrz "/configurations/conf-1")
      ++ flatProp 49 (beBytes 4 0 ++ beBytes 4 fitNames.length)
      ++ flatProp 10 (cstrz "sha1,rsa2048") ++ flatProp 15 [1] ++ flatProp 64 (cstrz "dev"))

def fitConf (name kernel : String) : Bytes :=
  flatNode (cstr name) (flatProp 21 (cstrz kernel) ++ fitSignature)

/-- A FIT image with more images and configurations next to the signed ones. -/
def sampleFit (default : String) (images confs : Bytes) : Bytes :=
  flatBlob (flatNode [] (flatNode (cstr "images") (fitImage "good" [1, 2, 3, 4] ++ images)
    ++ flatNode (cstr "configurations")
      (flatProp 28 (cstrz default) ++ fitConf "conf-1" "good" ++ confs))) fitNames

def honestFit : Bytes := sampleFit "conf-1" [] []

/-- A second image, and a configuration for it with a copy of the signature. -/
def forgedFit : Bytes :=
  sampleFit "conf-2" (fitImage "evil" [6, 6, 6, 6]) (fitConf "conf-2" "evil")

/-- What is digested for the honest image, and was signed. -/
def signedBytes : Bytes :=
  let incNodes := ["/", "/images/good", "/images/good/hash-1", "/configurations/conf-1"].map cstr
  (spanBytes honestFit (fitDigest honestFit incNodes [cstr "data"] 0 fitNames.length).2).getD []

/-- A key that has signed `signedBytes` and nothing else, and digests without
collisions. -/
def sampleEnv : FitEnv Unit where
  digestByAlgo _ := some id
  digestByName _ := some (4, id)
  key _ := some ()
  rsaVerify _ _ _ hash _ := if hash = signedBytes then .ok else .err .EBADMSG
  bareboxRoot := none

/-- A boot of the default configuration. -/
def sampleBoot (fit : Bytes) : Except Errno FitBoot :=
  fitBoot sampleEnv fit fit.length none (cstr "kernel")

/-- A run that succeeds with a result that passes a test. -/
theorem exists_ok_of_any {ε α : Type} {x : Except ε α} {test : α → Bool}
    (h : x.toOption.any test = true) : ∃ a, x = .ok a ∧ test a = true := by
  cases x with
  | error e => cases h
  | ok a => exact ⟨a, rfl, h⟩

/-- Whether a signature lists what a boot takes from a tame blob. -/
def listsBoot (mem : Bytes) (f : FdtHeader) (name : Bytes) (b : FitBoot) : Bool :=
  match fitGetImage b.handle b.conf name with
  | .error _ => false
  | .ok image => (hashNode image).any fun hash => decide (Tame mem f b.handle.root ∧
      ∃ sigNode ∈ b.conf.children, Lists mem f sigNode [b.conf, image, hash])

/-- In the honest image all of it is covered. -/
theorem boot_covered_honest :
    ∃ f b image hash, fdtHeader honestFit = some f ∧ sampleBoot honestFit = .ok b ∧
      Tame honestFit f b.handle.root ∧
      fitGetImage b.handle b.conf (cstr "kernel") = .ok image ∧ hashNode image = some hash ∧
      Covered honestFit f b.accepted [b.conf, image, hash] := by
  have hf : (fdtHeader honestFit).any (fun f => (sampleBoot honestFit).toOption.any
      (listsBoot honestFit f (cstr "kernel"))) = true := by decide +kernel
  obtain ⟨f, hf, hb⟩ := (Option.any_eq_true _ _).mp hf
  obtain ⟨b, hb, htest⟩ := exists_ok_of_any hb
  unfold listsBoot at htest
  split at htest
  · cases htest
  next image himage =>
  obtain ⟨hash, hhash, htest⟩ := (Option.any_eq_true _ _).mp htest
  obtain ⟨htame, hlists⟩ := of_decide_eq_true htest
  obtain ⟨image', hash', p, himage', hhash', -, -, hcovered, -⟩ := boot_covered hf (by decide +kernel) hb htame
  cases himage.symm.trans himage'
  cases hhash.symm.trans hhash'
  exact ⟨f, b, image, hash, hf, hb, htame, himage, hhash, hcovered hlists⟩

/-- Whether a boot has left the tag of some property out of every digest. -/
def leavesOut (b : FitBoot) (name : Bytes) : Bool :=
  match fitGetImage b.handle b.conf name with
  | .error _ => false
  | .ok image =>
    (hashNode image).any fun hash => decide (∃ np ∈ [b.conf, image, hash], ∃ p ∈ np.props,
      p.name ≠ cstr "data" ∧ ∃ sp ∈ structSpan p, ∀ spans ∈ b.accepted, ¬ InSpans spans sp.start)

variable {name : Bytes}

/-- A boot with a node that no accepted digest has seen, found by evaluation. -/
theorem not_covered_of_leavesOut {b : FitBoot} (h : leavesOut b name = true)
    (mem : Bytes) (f : FdtHeader) :
    ∃ image hash, fitGetImage b.handle b.conf name = .ok image ∧ hashNode image = some hash ∧
      ¬ Covered mem f b.accepted [b.conf, image, hash] := by
  unfold leavesOut at h
  split at h
  · cases h
  next image himage =>
  obtain ⟨hash, hhash, h⟩ := (Option.any_eq_true _ _).mp h
  obtain ⟨np, hnp, p, hp, hdata, sp, hsp, hout⟩ := of_decide_eq_true h
  refine ⟨image, hash, himage, hhash, fun ⟨spans, hspans, hcov⟩ => ?_⟩
  obtain ⟨sp', hsp', -, -, hall, -⟩ := hcov np hnp p hp hdata
  cases hsp.symm.trans hsp'
  obtain ⟨a, -, rfl⟩ := Option.map_eq_some_iff.mp hsp
  exact hout spans hspans (hall (a - 12) (Span.has_start (by omega)))

/-- The forgery boots, with the signature of the honest image. -/
theorem boot_uncovered_forged :
    ∃ f b image hash, fdtHeader forgedFit = some f ∧ sampleBoot forgedFit = .ok b ∧
      b.data = [6, 6, 6, 6] ∧ Tame forgedFit f b.handle.root ∧
      fitGetImage b.handle b.conf (cstr "kernel") = .ok image ∧ hashNode image = some hash ∧
      ¬ Covered forgedFit f b.accepted [b.conf, image, hash] := by
  have hf : (fdtHeader forgedFit).any (fun f => (sampleBoot forgedFit).toOption.any fun b =>
      decide (b.data = [6, 6, 6, 6] ∧ Tame forgedFit f b.handle.root ∧
        leavesOut b (cstr "kernel") = true)) = true := by decide +kernel
  obtain ⟨f, hf, hb⟩ := (Option.any_eq_true _ _).mp hf
  obtain ⟨b, hb, htest⟩ := exists_ok_of_any hb
  obtain ⟨hdata, htame, hout⟩ := of_decide_eq_true htest
  obtain ⟨image, hash, himage, hhash, hnot⟩ := not_covered_of_leavesOut hout forgedFit f
  exact ⟨f, b, image, hash, hf, hb, hdata, htame, himage, hhash, hnot⟩

end

end Barebox.Fit
