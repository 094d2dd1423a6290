import Barebox.Of.Fdt
import Barebox.Lib.Spans

/-!
# What a FIT signature is about — `fit_digest` of `common/image-fit.c`

A FIT image is a flat device tree, and a signature in it covers the nodes
whose paths are listed next to the signature. `fit_digest` finds their
bytes by a walk of its own over the tags of the blob: it keeps track of the
path, looks it up in the list, and feeds to the digest

* the tags of a listed node and its properties (`want` is 2),
* of the children of a listed node the tags that begin and end them
  (`want` is 1),
* `FDT_END`, and the part of the strings block the signature names,

leaving out the properties in `exc_props`. What is fed is recorded here as
spans of the blob.

Mirroring notes:
- `maxlen` is an `int` here, unlike in `__of_unflatten_dtb`.
- an error leaves what has been fed so far in the digest, and the caller
  does not look at it; so the spans are there in both cases.
- a span that would end before it starts is an update with a length close
  to `2 ^ 64`: `EFAULT`. So is a tag that ends a node before the root has
  begun (`stack[-1]`).
- the stack of `want`s is a list; its length is `depth + 1`.
- fuel is that of `ofUnflatten`, for the same reason.
-/

namespace Barebox.Fit

open Lib Of

def fdtMaxDepth : Nat := 32
def fdtMaxPathLen : Nat := 200

/-- The local variables of `fit_digest`; `dt` is `dt_struct`. -/
structure DigestState where
  dt : Nat
  path : Bytes
  stack : List Nat
  want : Nat
  spans : Spans

/-- What a tag has come to behind the `switch`. -/
structure TagResult where
  path : Bytes
  stack : List Nat
  want : Nat
  size : Nat
  keep : Bool

/-- An `unsigned int` taken for an `int`. -/
def toInt32 (n : Nat) : Int := if n < 2 ^ 31 then n else (n : Int) - 2 ^ 32

def slash : UInt8 := 0x2f

/-- The path without its last component: back to the last slash. -/
def popPath (path : Bytes) : Bytes := ((path.reverse.dropWhile (· ≠ slash)).drop 1).reverse

/-- `case FDT_BEGIN_NODE` -/
def digestBegin (mem : Bytes) (f : FdtHeader) (incNodes : List Bytes) (s : DigestState) :
    Except Errno TagResult :=
  let name := s.dt + 4
  let maxlen := toInt32 (f.maxlen name)
  match strnlenAt mem name ((maxlen + 1) % 2 ^ 64).toNat with
  | none => .error .EFAULT
  | some len =>
    if (len : Int) > maxlen then .error .ESPIPE
    else if s.stack.length = fdtMaxDepth then .error .ESPIPE
    else if s.path.length + 2 + len ≥ fdtMaxPathLen then .error .ESPIPE
    else
      let path := (if s.path.length ≠ 1 then s.path ++ [slash] else s.path) ++ slice name len mem
      let want := if path ∈ incNodes then 2 else s.want - 1
      .ok ⟨path, s.want :: s.stack, want, 4 + len + 1, want ≠ 0⟩

/-- `case FDT_END_NODE` -/
def digestEnd (s : DigestState) : Except Errno TagResult :=
  match s.stack with
  | [] => .error .EFAULT
  | want :: stack => .ok ⟨popPath s.path, stack, want, 4, s.want ≠ 0⟩

/-- `case FDT_PROP` -/
def digestProp (mem : Bytes) (f : FdtHeader) (excProps : List Bytes) (s : DigestState) :
    Except Errno TagResult :=
  match be32At mem (s.dt + 4), be32At mem (s.dt + 8) with
  | some len, some nameoff =>
    match dtString f nameoff with
    | none => .error .ESPIPE
    | some name =>
      match cstringAt mem name with
      | none => .error .EFAULT
      | some name => .ok ⟨s.path, s.stack, s.want, 12 + len, 2 ≤ s.want ∧ name ∉ excProps⟩
  | _, _ => .error .EFAULT

def digestTag (mem : Bytes) (f : FdtHeader) (incNodes excProps : List Bytes) (s : DigestState) :
    Tag → Except Errno TagResult
  | .beginNode => digestBegin mem f incNodes s
  | .endNode => digestEnd s
  | .prop => digestProp mem f excProps s
  | .nop => .ok ⟨s.path, s.stack, s.want, 4, 2 ≤ s.want⟩
  | .stop => .ok ⟨s.path, s.stack, s.want, 4, true⟩

/-- One turn of the loop of `fit_digest`. -/
def digestTurn (mem : Bytes) (f : FdtHeader) (incNodes excProps : List Bytes) (s : DigestState) :
    Turn DigestState (Errno × List Span) (List Span) :=
  let fail (e : Errno) : Turn DigestState (Errno × List Span) (List Span) :=
    .fail (e, s.spans.closed)
  match be32At mem s.dt with
  | none => fail .EFAULT
  | some tag =>
    match Tag.ofNat? tag with
    | none => fail .EINVAL
    | some tag =>
      match digestTag mem f incNodes excProps s tag with
      | .error e => fail e
      | .ok r =>
        match dtStructAdvance f s.dt r.size with
        | 0 => fail .ESPIPE
        | next =>
          if !r.keep && s.spans.opened.any fun start => s.dt < start then fail .EFAULT
          else
            let spans := s.spans.note s.dt r.keep
            if tag ≠ .stop then .next ⟨next, r.path, r.stack, r.want, spans⟩
            else if spans.opened.any fun start => next < start then fail .EFAULT
            else .done (spans.finish next)

/-- The check of `hashed-strings`. -/
def hashedStringsFit (f : FdtHeader) (start size : Nat) : Bool :=
  ¬ (start > f.sizeDtStrings ∨ size > f.sizeDtStrings ∨ (start + size) % 2 ^ 32 > f.sizeDtStrings)

/-- `fit_digest`: the return code, and the spans of the blob that have gone
into the digest. -/
def fitDigest (mem : Bytes) (incNodes excProps : List Bytes) (hashedStringsStart hashedStringsSize : Nat) :
    Ret × List Span :=
  match fdtHeader mem with
  | none => (.err .EFAULT, [])
  | some f =>
    if !hashedStringsFit f hashedStringsStart hashedStringsSize then (.err .EINVAL, [])
    else
      match loop (digestTurn mem f incNodes excProps) (.EFAULT, []) (mem.length + 1)
        ⟨f.offDtStruct, [], [], 0, ⟨[], none⟩⟩ with
      | .error (e, spans) => (.err e, spans)
      | .ok spans => (.ok, spans ++ [⟨f.offDtStrings + hashedStringsStart, hashedStringsSize⟩])

end Barebox.Fit
