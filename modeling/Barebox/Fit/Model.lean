import Barebox.Fit.Digest

/-!
# Opening FIT images — `common/image-fit.c`

A FIT image is opened from a buffer; a configuration is opened, which
checks its signatures; then images are opened through the configuration,
which checks their hashes. The tree is unflattened in place: properties are
pointers into the buffer, and `fit_digest` walks the same buffer again.

The model follows a run from `fit_open_buf` to `fit_open_image`. Besides
what the functions return it keeps what `fit_check_rsa_signature` has
accepted: the spans of the blob whose digest it was given.

Mirroring notes:
- `CONFIG_FITIMAGE_SIGNATURE` is on.
- keys, RSA and the digest algorithms are a `FitEnv`; so is the live device
  tree of the machine, of which only the root's `compatible` is read.
- `fit_verify_signature` overwrites the return code of `fit_digest`.
- a string list property is walked string by string to its end, and the
  first string is taken even if the property is empty. The last string ends
  where there is a NUL, inside the property or behind it.
- messages, and what is read for them only, are left out.
-/

namespace Barebox.Fit

open Lib Of

inductive HashAlgo where
  | sha1 | sha256
  deriving DecidableEq

/-- `enum bootm_verify`. -/
inductive BootmVerify where
  | none | hash | signature | available
  deriving DecidableEq

/-- What the FIT code finds around it. -/
structure FitEnv (κ : Type) where
  /-- `digest_alloc_by_algo` -/
  digestByAlgo : HashAlgo → Option (Bytes → Bytes)
  /-- `digest_alloc`: the length of the digest, and the digest -/
  digestByName : Bytes → Option (Nat × (Bytes → Bytes))
  /-- `rsa_get_key`, or the key node of the live tree -/
  key : Bytes → Option κ
  /-- `rsa_verify(key, sig, sig_len, hash, algo)` -/
  rsaVerify : κ → Bytes → Nat → Bytes → HashAlgo → Ret
  /-- `of_get_root_node` -/
  bareboxRoot : Option Node

/-- `struct fit_handle`. -/
structure FitHandle where
  fit : Bytes
  root : Node
  images : Node
  configurations : Option Node
  verify : BootmVerify

/-- `fit_open_buf` -/
def fitOpenBuf (buf : Bytes) (size : Nat) (verify : BootmVerify) : Except Errno FitHandle :=
  match ofUnflattenDtbConst buf size with
  | .error e => .error e
  | .ok root =>
    match ofGetChildByName root (cstr "images") with
    | none => .error .ENOENT
    | some images => .ok ⟨buf, root, images, ofGetChildByName root (cstr "configurations"), verify⟩

/-! ## String lists -/

/-- `of_prop_next_string` over and over, from `cur` on; the property ends at
`stop`. -/
def propStringsFrom (mem : Bytes) (stop : Nat) : Nat → Nat → Option (List Bytes)
  | 0, _ => none
  | n + 1, cur =>
    match cstringAt mem cur with
    | none => none
    | some s =>
      let next := cur + s.length + 1
      if next ≥ stop then some [s]
      else
        match propStringsFrom mem stop n next with
        | none => none
        | some l => some (s :: l)

/-- The strings of a property that lies in the blob. -/
def propStrings (mem : Bytes) (p : Property) : Option (List Bytes) :=
  match p.constAt with
  | none => none
  | some value =>
    let stop := if p.length < 2 ^ 31 then value + p.length else 0
    propStringsFrom mem stop (mem.length + 1) value

def ofReadStringList (mem : Bytes) (np : Node) (name : Bytes) : Except Errno (List Bytes) :=
  match ofFindProperty np name with
  | none => .error .EINVAL
  | some p =>
    match propStrings mem p with
    | none => .error .EFAULT
    | some l => .ok l

/-! ## Signatures -/

/-- The bytes of the spans, one after the other. -/
def spanBytes (mem : Bytes) : List Span → Option Bytes
  | [] => some []
  | sp :: l =>
    if sp.start + sp.len ≤ mem.length then
      (spanBytes mem l).map fun rest => slice sp.start sp.len mem ++ rest
    else none

def fitAllocDigest {κ : Type} (env : FitEnv κ) (sigNode : Node) :
    Except Errno (HashAlgo × (Bytes → Bytes)) :=
  match ofPropertyReadString sigNode (cstr "algo") with
  | .error _ => .error .EINVAL
  | .ok algoName =>
    let algo :=
      if algoName.take 5 = cstr "sha1," then some HashAlgo.sha1
      else if algoName.take 7 = cstr "sha256," then some HashAlgo.sha256
      else none
    match algo with
    | none => .error .EINVAL
    | some algo =>
      match env.digestByAlgo algo with
      | none => .error .EINVAL
      | some digest => .ok (algo, digest)

def fitCheckRsaSignature {κ : Type} (env : FitEnv κ) (sigNode : Node) (algo : HashAlgo)
    (hash : Bytes) : Ret :=
  match ofFindProperty sigNode (cstr "value") with
  | none => .err .EINVAL
  | some sig =>
    match ofPropertyReadString sigNode (cstr "key-name-hint") with
    | .error _ => .err .EINVAL
    | .ok keyName =>
      match env.key keyName with
      | none => .err .ENOENT
      | some key => env.rsaVerify key sig.value sig.length hash algo

/-- The two cells of `hashed-strings`. -/
def hashedStrings (sigNode : Node) : Except Errno (Nat × Nat) :=
  match ofPropertyReadU32Index sigNode (cstr "hashed-strings") 0 with
  | .error _ => .error .EINVAL
  | .ok start =>
    match ofPropertyReadU32Index sigNode (cstr "hashed-strings") 1 with
    | .error _ => .error .EINVAL
    | .ok size => .ok (start.toNat, size.toNat)

/-- `fit_verify_signature`; on success, with the spans whose digest was
accepted. -/
def fitVerifySignature {κ : Type} (env : FitEnv κ) (sigNode : Node) (fit : Bytes) :
    Except Errno (List Span) :=
  match hashedStrings sigNode with
  | .error e => .error e
  | .ok (start, size) =>
    match ofReadStringList fit sigNode (cstr "hashed-nodes") with
    | .error e => .error e
    | .ok incNodes =>
      match fitAllocDigest env sigNode with
      | .error e => .error e
      | .ok (algo, digest) =>
        let (_, spans) := fitDigest fit incNodes [cstr "data"] start size
        match spanBytes fit spans with
        | none => .error .EFAULT
        | some bytes =>
          match fitCheckRsaSignature env sigNode algo (digest bytes) with
          | .err e => .error e
          | .ok => .ok spans

/-! ## Configurations -/

/-- The loop of `fit_config_verify_signature` over the children. -/
def verifyAll {κ : Type} (env : FitEnv κ) (fit : Bytes) : List Node → Except Errno (List (List Span))
  | [] => .ok []
  | sigNode :: sigNodes =>
    match fitVerifySignature env sigNode fit with
    | .error e => .error e
    | .ok spans =>
      match verifyAll env fit sigNodes with
      | .error e => .error e
      | .ok accepted => .ok (spans :: accepted)

/-- `fit_config_verify_signature`; on success, with everything that was
accepted. -/
def fitConfigVerifySignature {κ : Type} (env : FitEnv κ) (handle : FitHandle) (confNode : Node) :
    Except Errno (List (List Span)) :=
  match handle.verify with
  | .none | .hash => .ok []
  | .signature =>
    if confNode.children.isEmpty then .error .EINVAL
    else verifyAll env handle.fit confNode.children
  | .available => verifyAll env handle.fit confNode.children

/-- `of_device_is_compatible` for a node in the blob. -/
def isCompatible (mem : Bytes) (np : Node) (compat : Bytes) : Bool :=
  match ofFindProperty np (cstr "compatible") with
  | none => false
  | some p => ((propStrings mem p).getD []).any fun cp => strcaseeq cp compat

def fitFindCompatibleUnit {κ : Type} (env : FitEnv κ) (fit : Bytes) (confNode : Node) :
    Except Errno Bytes :=
  let defaultUnit : Except Errno Bytes :=
    match ofPropertyReadString confNode (cstr "default") with
    | .ok unit => .ok unit
    | .error _ => .error .ENOENT
  match env.bareboxRoot with
  | none => defaultUnit
  | some root =>
    match ofPropertyReadString root (cstr "compatible") with
    | .error _ => .error .ENOENT
    | .ok machine =>
      match confNode.children.find? fun child => isCompatible fit child machine with
      | some child => .ok child.name
      | none => defaultUnit

/-- `fit_open_configuration`: the node, and what was accepted on the way. -/
def fitOpenConfiguration {κ : Type} (env : FitEnv κ) (handle : FitHandle) (name : Option Bytes) :
    Except Errno (Node × List (List Span)) :=
  match handle.configurations with
  | none => .error .ENOENT
  | some configurations =>
    let unit : Except Errno Bytes :=
      match name with
      | some name => .ok name
      | none => fitFindCompatibleUnit env handle.fit configurations
    match unit with
    | .error e => .error e
    | .ok unit =>
      match ofGetChildByName configurations unit with
      | none => .error .ENOENT
      | some confNode =>
        match fitConfigVerifySignature env handle confNode with
        | .error e => .error e
        | .ok accepted => .ok (confNode, accepted)

/-! ## Images -/

/-- `fit_get_image` through a configuration. -/
def fitGetImage (handle : FitHandle) (configuration : Node) (name : Bytes) : Except Errno Node :=
  match ofPropertyReadString configuration name with
  | .error _ => .error .ENOENT
  | .ok unit =>
    match ofGetChildByName handle.images unit with
    | none => .error .ENOENT
    | some image => .ok image

/-- The hash node of an image. -/
def hashNode (image : Node) : Option Node :=
  (ofGetChildByName image (cstr "hash-1")).or (ofGetChildByName image (cstr "hash@1"))

/-- `fit_verify_hash` -/
def fitVerifyHash {κ : Type} (env : FitEnv κ) (handle : FitHandle) (image : Node)
    (data : Property) : Ret :=
  if handle.verify = .none then .ok
  else
    match hashNode image with
    | none => if handle.verify = .available then .ok else .err .EINVAL
    | some hash =>
      match ofFindProperty hash (cstr "value") with
      | none => .err .EINVAL
      | some value =>
        match ofPropertyReadString hash (cstr "algo") with
        | .error _ => .err .EINVAL
        | .ok algo =>
          match env.digestByName algo with
          | none => .err .EINVAL
          | some (length, digest) =>
            if value.length ≠ length then .err .EINVAL
            else if data.value.length < data.length ∨ value.value.length < value.length then
              .err .EFAULT
            else if digest data.value = value.value then .ok
            else .err .EBADMSG

/-- `fit_open_image` through a configuration: the data. -/
def fitOpenImage {κ : Type} (env : FitEnv κ) (handle : FitHandle) (configuration : Node)
    (name : Bytes) : Except Errno Bytes :=
  match fitGetImage handle configuration name with
  | .error e => .error e
  | .ok image =>
    match ofPropertyReadString image (cstr "type") with
    | .error _ => .error .EINVAL
    | .ok _ =>
      match ofFindProperty image (cstr "data") with
      | none => .error .EINVAL
      | some data =>
        match fitVerifyHash env handle image data with
        | .err e => .error e
        | .ok => .ok data.value

end Barebox.Fit
