import Barebox.State.Storage

/-!
# Direct buckets — `common/state/backend_bucket_direct.c`

On media without erase, bucket `i` is the stretch of `stride` bytes at
`base + i * stride` of one device. A write puts eight bytes of metadata
(`direct_magic`, the length) in front of the data if both fit; otherwise,
for compatibility, the data alone. A read looks for the magic and, without
it, takes the whole stretch.

The metadata of a read are trusted up to a length of `stride`, so a read
may reach eight bytes into the next bucket.

Mirroring notes:
- `state_storage_file_buckets_init` refuses a device too small for all
  copies; `DirectConfig` has that as a field. One more bucket's metadata
  may lie behind the last copy: such a read runs into the end of the device
  and the rest of its buffer is whatever `xmalloc` found (`heap`).
- seeking and reading can fail; the outcome of each bucket's read is an
  argument. Writes are those of a working device.
- `len <= max_size - sizeof(meta)` is computed in `size_t`: below eight the
  difference wraps around and everything fits.
-/

namespace Barebox.State

open Lib

structure DirectConfig where
  base : Nat
  stride : Nat
  count : Nat
  size : Nat
  backwardCompatible : Bool
  heap : Bytes
  fits : base + count * stride ≤ size

def directMagic : Nat := 0x2354fdf3

/-- The device's contents. -/
structure Device (cfg : DirectConfig) where
  bytes : Bytes
  length_eq : bytes.length = cfg.size

/-- Where bucket `i` begins. -/
def DirectConfig.off (cfg : DirectConfig) (i : Nat) : Nat := cfg.base + i * cfg.stride

/-- `read_full` into a fresh buffer: `len` bytes, the end of the device
notwithstanding. -/
def readFull (cfg : DirectConfig) (bytes : Bytes) (off len : Nat) : Bytes :=
  let got := slice off len bytes
  got ++ (cfg.heap ++ List.replicate len 0).take (len - got.length)

/-- `state_backend_bucket_direct_read`; `fault` is the error of a seek or a
read that fails. -/
def stateBackendBucketDirectRead (cfg : DirectConfig) (fault : Option Errno) (dev : Device cfg)
    (i : Nat) : BucketRead :=
  match fault with
  | some e => .fail e
  | none =>
    let header := readFull cfg dev.bytes (cfg.off i) 8
    if leNat (header.take 4) = directMagic then
      let readLen := leNat (header.drop 4)
      if readLen > cfg.stride then .fail .EINVAL
      else .data false (readFull cfg dev.bytes (cfg.off i + 8) readLen)
    else if !cfg.backwardCompatible then .fail .EINVAL
    else .data false (readFull cfg dev.bytes (cfg.off i) cfg.stride)

/-- The device with `new` written at `off`; past the end it does not go. -/
def Device.put {cfg : DirectConfig} (dev : Device cfg) (off : Nat) (new : Bytes) :
    Except Errno (Device cfg) :=
  if h : off + new.length ≤ cfg.size then
    .ok ⟨overwrite off new dev.bytes, by
      rw [overwrite_length (by rw [dev.length_eq]; exact h), dev.length_eq]⟩
  else .error .ENOSPC

/-- "write the meta data only if there is head room". -/
def DirectConfig.headRoom (cfg : DirectConfig) (len : Nat) : Prop :=
  cfg.stride < 8 ∨ len + 8 ≤ cfg.stride

instance (cfg : DirectConfig) (len : Nat) : Decidable (cfg.headRoom len) :=
  inferInstanceAs (Decidable (_ ∨ _))

def directMeta (len : Nat) : Bytes := leBytes 4 directMagic ++ leBytes 4 len

/-- `state_backend_bucket_direct_write`. -/
def stateBackendBucketDirectWrite (cfg : DirectConfig) (dev : Device cfg) (i : Nat) (buf : Bytes) :
    Ret × Device cfg :=
  let put (new : Bytes) : Ret × Device cfg :=
    match dev.put (cfg.off i) new with
    | .ok dev => (.ok, dev)
    | .error e => (.err e, dev)
  if cfg.headRoom buf.length then put (directMeta buf.length ++ buf)
  else if !cfg.backwardCompatible then (.err .EINVAL, dev)
  else put buf

/-- The buckets of one device; the reads of the first pass may fail. -/
def directDriver (cfg : DirectConfig) (faults : Nat → Option Errno) : Driver (Device cfg) where
  read dev i := (stateBackendBucketDirectRead cfg (faults i) dev i, dev)
  write dev i buf := stateBackendBucketDirectWrite cfg dev i buf

end Barebox.State
