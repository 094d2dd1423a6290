import Barebox.State.FormatDtb
import Barebox.State.FormatRaw
import Barebox.State.Direct

/-!
# Loading a state — `state_do_load` of `common/state/state.c`

Loading reads the storage, which verifies every bucket, and then unpacks
the buffer of the bucket in use. Whatever verify has left in the format
object is there when unpack is called. The raw format leaves nothing. The
dtb format leaves the tree of the bucket verified *last*, and unpack takes
that tree without asking where it is from.

`load_selected` says what is loaded, for both formats: the values in the
buffer of the selected bucket, exactly if no later bucket has left a tree
that gives other values.
-/

namespace Barebox.State

open Lib Of

variable {ω φ : Type}

/-- A format with its `unpack`. -/
structure StateFormat (φ : Type) extends Format φ where
  unpack : φ → Instance → Bytes → Nat → Ret × Instance × φ

/-- `state->format`. -/
inductive BackendFormat where
  | raw (raw : RawFormat) (noAuth : Bool)
  | dtb

/-- The format in use for a state with this magic. The object of the dtb
format is its tree; the raw format has none to look after. -/
def BackendFormat.format (magic : UInt32) : BackendFormat → StateFormat (Option Node)
  | .raw r noAuth =>
    { verify := (rawFormat r magic noAuth).verify
      keep := fun root _ => root
      verify_le := (rawFormat r magic noAuth).verify_le
      unpack := fun root st mem len =>
        let (r, vars) := backendFormatRawUnpack st.vars (mem.take len)
        (r, { st with vars := vars }, root) }
  | .dtb =>
    { verify := fun buf => backendFormatDtbVerify buf buf.length
      keep := fun root buf => dtbRoot buf buf.length root
      verify_le := fun buf => dtbVerify_le buf buf.length
      unpack := backendFormatDtbUnpack }

/-- What a load leaves. -/
structure Loaded (ω φ : Type) where
  ret : Ret
  st : Instance
  world : ω
  format : φ
  buckets : List Bucket

/-- One of the verifies reads outside of its buffer. -/
def verifyFaults (drv : Driver ω) (fmt : Format φ) (bs : List Bucket) (w : ω) : Bool :=
  (seenAll drv 0 bs w).any fun o => o.any fun buf => (fmt.verify buf).1 = .err .EFAULT

/-- `state_do_load`. -/
def stateDoLoad (drv : Driver ω) (fmt : StateFormat φ) (bs : List Bucket) (w : ω) (f : φ)
    (st : Instance) : Loaded ω φ :=
  if verifyFaults drv fmt.toFormat bs w then ⟨.err .EFAULT, st, w, f, bs⟩ else
  let o := stateStorageRead drv fmt.toFormat bs w f
  match o.ret with
  | .error e => ⟨.err e, { st with dirty := true }, o.world, o.format, o.buckets⟩
  | .ok payload =>
    match fmt.unpack o.format st o.mem payload.length with
    | (.ok, st, f) =>
      ⟨.ok, { st with initFromDefaults := false, dirty := false }, o.world, f, o.buckets⟩
    | (.err e, st, f) => ⟨.err e, { st with dirty := true }, o.world, f, o.buckets⟩

/-- The raw values of all variables. -/
def Instance.values (st : Instance) : List Bytes := st.vars.map fun v => v.data.raw

/-- The values a buffer that verifies encodes: those a format object with
nothing in it unpacks. -/
def BackendFormat.decode (k : BackendFormat) (st : Instance) (buf : Bytes) : List Bytes :=
  let fmt := k.format st.magic
  (fmt.unpack none st buf (fmt.verify buf).2).2.1.values

/-- The tree that is there when verify has seen the buffers `later` after
one with the tree `tree`. -/
def laterTree (tree : Node) (later : List (Option Bytes)) : Option Node :=
  later.foldl (BackendFormat.dtb.format 0).see (some tree)

/-- What the buffers behind the selected one must not do: leave a tree that
gives other values. -/
def BackendFormat.Agrees (st : Instance) (buf : Bytes) (later : List (Option Bytes)) : BackendFormat → Prop
  | .raw _ _ => True
  | .dtb => ∀ size tree other, be32At buf 4 = some size → ofUnflattenDtb buf size = .ok tree →
    laterTree tree later = some other →
      (importTree (some other) st).2.values = (importTree (some tree) st).2.values

/-- A load that succeeds has selected a buffer and unpacked its memory with
what the format object then was. -/
theorem stateDoLoad_ok {drv : Driver ω} {fmt : StateFormat φ} {bs : List Bucket} {w : ω} {f : φ}
    {st : Instance} (hbs : ∀ b ∈ bs, b.buf.length ≤ b.len)
    (hok : (stateDoLoad drv fmt bs w f st).ret = .ok) :
    ∃ pre buf post, seenAll drv 0 bs w = pre ++ some buf :: post ∧
      (∀ o ∈ pre, o.bind fmt.accepts = none) ∧ (fmt.verify buf).1 = .ok ∧
      (stateDoLoad drv fmt bs w f st).st.values
        = (fmt.unpack (post.foldl fmt.see (fmt.keep (pre.foldl fmt.see f) buf)) st buf
            (fmt.verify buf).2).2.1.values := by
  unfold stateDoLoad at hok ⊢
  split at hok
  · cases hok
  next hverified =>
  rw [if_neg hverified]
  have hread : (stateStorageRead drv fmt.toFormat bs w f).format
      = (seenAll drv 0 bs w).foldl fmt.see f := by
    rw [stateStorageRead_format, scan_format]
  cases hfirst : firstValid (scan drv fmt.toFormat 0 bs w f).1 with
  | none =>
    have hret : (stateStorageRead drv fmt.toFormat bs w f).ret = .error .ENOENT := by
      rw [stateStorageRead_ret, hfirst]
    simp only [hret] at hok
    cases hok
  | some x =>
    obtain ⟨u, b⟩ := x
    obtain ⟨pre, buf, post, hseen, hpre, hverify, -, hmem⟩ := scan_selected drv fmt.toFormat bs 0 w f
      hfirst
    have hmem := hmem hbs
    have hret : (stateStorageRead drv fmt.toFormat bs w f).ret = .ok (buf.take b.len) := by
      rw [stateStorageRead_ret, hfirst, hmem]
    have hused : (stateStorageRead drv fmt.toFormat bs w f).mem = buf := by
      rw [stateStorageRead_mem, hfirst, hmem]
    -- the handler has seen that the length fits
    have hlen : (buf.take b.len).length = b.len := by
      have hle := fmt.verify_le buf
      rw [hverify] at hle
      rw [List.length_take]
      exact Nat.min_eq_left hle
    refine ⟨pre, buf, post, hseen, hpre, by rw [hverify], ?_⟩
    have hformat : (stateStorageRead drv fmt.toFormat bs w f).format
        = post.foldl fmt.see (fmt.keep (pre.foldl fmt.see f) buf) := by
      rw [hread, hseen, List.foldl_append]
      rfl
    simp only [hret, hused, hformat, hlen, hverify] at hok ⊢
    split at hok
    · next st' f' hunpack =>
      rw [hunpack]
      rfl
    · cases hok

/-- **What a load loads.** The values are those in the buffer of the first
bucket that reads and verifies, if and only if (for the dtb format) the
buckets behind it leave no tree that gives other values. -/
theorem load_selected (k : BackendFormat) (drv : Driver ω) (bs : List Bucket)
    (hbs : ∀ b ∈ bs, b.buf.length ≤ b.len) (w : ω) (root : Option Node) (st : Instance)
    (hok : (stateDoLoad drv (k.format st.magic) bs w root st).ret = .ok) :
    ∃ pre buf post, seenAll drv 0 bs w = pre ++ some buf :: post ∧
      (∀ o ∈ pre, o.bind (k.format st.magic).accepts = none) ∧
      ((k.format st.magic).verify buf).1 = .ok ∧
      ((stateDoLoad drv (k.format st.magic) bs w root st).st.values = k.decode st buf
        ↔ k.Agrees st buf post) := by
  obtain ⟨pre, buf, post, hseen, hpre, hverify, hvalues⟩ := stateDoLoad_ok hbs hok
  refine ⟨pre, buf, post, hseen, hpre, hverify, ?_⟩
  rw [hvalues]
  cases k with
  | raw r noAuth => exact ⟨fun _ => trivial, fun _ => rfl⟩
  | dtb =>
    obtain ⟨hsize, hle, tree, htree, hkeep⟩ := dtbVerify_ok (Prod.ext hverify rfl)
    -- the selected buffer has left its own tree, whatever was there before
    have hroot : post.foldl (BackendFormat.dtb.format st.magic).see
        (dtbRoot buf buf.length (pre.foldl (BackendFormat.dtb.format st.magic).see root))
        = laterTree tree post := by
      rw [hkeep]
      rfl
    have hown : dtbRoot buf (backendFormatDtbVerify buf buf.length).2 none = some tree := by
      unfold dtbRoot
      rw [hsize]
      dsimp only
      rw [if_neg (Nat.lt_irrefl _), htree]
    have hdecode : BackendFormat.dtb.decode st buf = (importTree (some tree) st).2.values := by
      show (backendFormatDtbUnpack none st buf
        (backendFormatDtbVerify buf buf.length).2).2.1.values = _
      unfold backendFormatDtbUnpack
      rw [Option.isSome_none, if_neg Bool.false_ne_true, hown]
    have hload : (backendFormatDtbUnpack (laterTree tree post) st buf
        (backendFormatDtbVerify buf buf.length).2).2.1.values
        = (importTree (some ((laterTree tree post).getD tree)) st).2.values := by
      unfold backendFormatDtbUnpack
      cases laterTree tree post with
      | none => rw [Option.isSome_none, if_neg Bool.false_ne_true, hown, Option.getD_none]
      | some other => rfl
    show (backendFormatDtbUnpack (post.foldl (BackendFormat.dtb.format st.magic).see
      (dtbRoot buf buf.length _)) st buf (backendFormatDtbVerify buf buf.length).2).2.1.values = _
      ↔ _
    rw [hroot, hload, hdecode]
    constructor
    · intro h size tree' other hsize' htree' hlater
      cases hsize.symm.trans hsize'
      cases htree.symm.trans htree'
      rw [hlater] at h
      exact h
    · intro h
      cases hlater : laterTree tree post with
      | none => rfl
      | some other => exact h _ tree other hsize htree hlater

/-- A flat device tree with one variable; the name has seven letters, the
type six, and the `len` bytes of the value are padded to four. -/
def flatVariable (name type : Bytes) (len : Nat) (value : Bytes) : Bytes :=
  let begin := beBytes 4 1
  let stop := beBytes 4 2
  let prop (len nameoff : Nat) := beBytes 4 3 ++ beBytes 4 len ++ beBytes 4 nameoff
  let strings := cstr "magic" ++ [0] ++ cstr "type" ++ [0] ++ cstr "value" ++ [0]
  let tags := begin ++ [0, 0, 0, 0] ++ prop 4 0 ++ beBytes 4 0x1234
    ++ begin ++ name ++ [0] ++ prop 7 6 ++ type ++ [0, 0] ++ prop len 11 ++ value
    ++ stop ++ stop ++ beBytes 4 9
  [fdtMagic, 157, 56, 140, 40, 17, 16, 0, 17, 84].flatMap (beBytes 4 ·)
    ++ List.replicate 16 0 ++ tags ++ strings

/-- One with a counter. -/
def flatCounter (value : UInt32) : Bytes :=
  flatVariable (cstr "counter") (cstr "uint32") 4 (beBytes 4 value.toNat)

/-- The state it is for. -/
def flatCounterState : Instance :=
  { stateNew with magic := 0x1234, vars := [⟨cstr "counter", 0, .uint32 0 0⟩] }

/-- Two buckets of 256 bytes, with a payload in each. -/
def twoBuckets : DirectConfig := ⟨0, 256, 2, 512, false, [], by decide⟩
@[inherit_doc twoBuckets]
def twoPayloads (a b : Bytes) : Device twoBuckets :=
  let bucket (p : Bytes) : Bytes := (directMeta p.length ++ p ++ List.replicate 256 0xff).take 256
  ⟨bucket a ++ bucket b, by
    have hbucket : ∀ p, (bucket p).length = 256 := by
      intro p
      rw [List.length_take, List.length_append, List.length_replicate]
      omega
    rw [List.length_append, hbucket, hbucket]
    rfl⟩

/-- Loading from them. -/
def loadTwo (a b : Bytes) : Loaded (Device twoBuckets) (Option Node) :=
  stateDoLoad (directDriver twoBuckets fun _ => none)
    (BackendFormat.dtb.format flatCounterState.magic) (List.replicate 2 ⟨[], 0, false⟩)
    (twoPayloads a b) none flatCounterState

/-- A second verify of a buffer leaves the same tree. -/
theorem laterTree_same {buf : Bytes} {size : Nat} {tree : Node} (hsize : be32At buf 4 = some size)
    (htree : ofUnflattenDtb buf size = .ok tree) : laterTree tree [some buf] = some tree := by
  show dtbRoot buf buf.length (some tree) = some tree
  unfold dtbRoot
  rw [hsize]
  dsimp only
  rw [htree]
  split <;> rfl

/-- The first of two buckets is selected, if it has the counter 1. -/
theorem flatCounter_selected {o : Option Bytes} {pre post : List (Option Bytes)} {buf : Bytes}
    (h : [some (flatCounter 1), o] = pre ++ some buf :: post)
    (hpre : ∀ o ∈ pre, o.bind (BackendFormat.dtb.format flatCounterState.magic).accepts = none) :
    buf = flatCounter 1 ∧ post = [o] := by
  cases pre with
  | nil =>
    cases h
    exact ⟨rfl, rfl⟩
  | cons o' pre =>
    obtain rfl : some (flatCounter 1) = o' := (List.cons.inj h).1
    exact absurd (hpre _ (List.mem_cons_self ..)) (by decide +kernel)

/-- The counter is 1 in both buckets, and 1 is loaded. -/
theorem load_selected_same : (loadTwo (flatCounter 1) (flatCounter 1)).st.values
    = BackendFormat.dtb.decode flatCounterState (flatCounter 1) := by
  obtain ⟨pre, buf, post, hseen, hpre, -, hvalues⟩ := load_selected .dtb
    (directDriver twoBuckets fun _ => none) (List.replicate 2 ⟨[], 0, false⟩) (by decide)
    (twoPayloads (flatCounter 1) (flatCounter 1)) none flatCounterState (by decide +kernel)
  have hboth : seenAll (directDriver twoBuckets fun _ => none) 0 (List.replicate 2 ⟨[], 0, false⟩)
      (twoPayloads (flatCounter 1) (flatCounter 1)) = [some (flatCounter 1), some (flatCounter 1)] := by
    decide +kernel
  obtain ⟨rfl, rfl⟩ := flatCounter_selected (hboth.symm.trans hseen) hpre
  refine hvalues.mpr fun size tree other hsize htree hlater => ?_
  cases (laterTree_same hsize htree).symm.trans hlater
  rfl

/-- The counter is 1 in the first bucket and 2 in the second: the first is
selected, and 2 is loaded. -/
theorem load_selected_later : ¬ ∀ (ω : Type) (k : BackendFormat) (drv : Driver ω) (bs : List Bucket),
      (∀ b ∈ bs, b.buf.length ≤ b.len) → ∀ (w : ω) (root : Option Node) (st : Instance),
      (stateDoLoad drv (k.format st.magic) bs w root st).ret = .ok →
      ∃ pre buf post, seenAll drv 0 bs w = pre ++ some buf :: post ∧
        (∀ o ∈ pre, o.bind (k.format st.magic).accepts = none) ∧
        ((k.format st.magic).verify buf).1 = .ok ∧
        (stateDoLoad drv (k.format st.magic) bs w root st).st.values = k.decode st buf := by
  intro h
  obtain ⟨pre, buf, post, hseen, hpre, -, hvalues⟩ := h (Device twoBuckets) .dtb
    (directDriver twoBuckets fun _ => none) (List.replicate 2 ⟨[], 0, false⟩) (by decide)
    (twoPayloads (flatCounter 1) (flatCounter 2)) none flatCounterState (by decide +kernel)
  have hboth : seenAll (directDriver twoBuckets fun _ => none) 0 (List.replicate 2 ⟨[], 0, false⟩)
      (twoPayloads (flatCounter 1) (flatCounter 2))
      = [some (flatCounter 1), some (flatCounter 2)] := by
    decide +kernel
  obtain ⟨rfl, rfl⟩ := flatCounter_selected (hboth.symm.trans hseen) hpre
  revert hvalues
  decide +kernel

end Barebox.State
