import Barebox.Base
import Barebox.Crc32
import Barebox.Lib.Loop

/-!
# uImages — `common/uimage.c`

A header of 64 bytes with a CRC of itself and of the `ih_size` bytes behind it. The data of
a multi-file image begins with a table of lengths that ends with a zero.

Mirroring notes:
- a read returns what it is asked for, or less; at least one byte, if there is one. `counts`
  has the number of bytes for each read, as far as the file and the request allow. Read
  errors are left out.
- `read_full` reads all there is.
- buffers that are not filled have something in them: `junk`, `stale`. `EFAULT` is for an
  access outside of a buffer or of the table.
- `ih_size` and the lengths are of 32 bits, and become an `int` in some places. Offsets are
  a `size_t` and lengths an `unsigned long`, and their sums wrap around.
- a decompressor asks for some numbers of bytes (`reqs`), and succeeds or not. There is memory.
-/

namespace Barebox.Uimage

open Lib

/-- `PAGE_SIZE` -/
def pageSize : Nat := 4096

/-- How many of `n` bytes a read returns -/
def readCount (file : Bytes) (pos n count : Nat) : Nat :=
  let there := min n (file.length - pos)
  min there (max 1 count)

/-- `read` -/
def readShort (file : Bytes) (pos n count : Nat) : Bytes := slice pos (readCount file pos n count) file

def be32 (off : Nat) (buf : Bytes) : UInt32 := UInt32.ofNat (beNat (slice off 4 buf))

/-! ## Opening -/

/-- `struct image_header`, in the order of the machine -/
structure Header where
  size : UInt32
  dcrc : UInt32
  type : UInt8
  comp : UInt8
  deriving DecidableEq

/-- `IH_TYPE_RAMDISK`, `IH_TYPE_MULTI` -/
def typeRamdisk : UInt8 := 3
def typeMulti : UInt8 := 4

/-- `IH_COMP_NONE` -/
def compNone : UInt8 := 0

/-- `struct uimage_handle`: the images have an offset and a length -/
structure Handle where
  header : Header
  ihd : List (Nat × Nat)
  dataOffset : Nat
  deriving DecidableEq

/-- The lengths of a multi-file image, at most `n` of them -/
def readTable (file : Bytes) (counts : Nat → Nat) (junk : Nat → Nat → UInt8) : Nat → Nat → Nat → List Nat
  | 0, _, _ => []
  | n + 1, i, pos =>
    let buf := readShort file pos 4 (counts i)
    let size := beNat ((List.range 4).map fun k => buf.getD k (junk i k))
    if size = 0 then [] else size :: readTable file counts junk n (i + 1) (pos + buf.length)

/-- `MAX_MULTI_IMAGE_COUNT` -/
def maxMultiImageCount : Nat := 16

/-- Images one behind the other: `offset += (len + 3) & ~3` -/
def placeImages (l : Long) : Nat → List Nat → List (Nat × Nat)
  | _, [] => []
  | offset, len :: lens =>
    (offset, len) :: placeImages l ((offset + (len + 3) % 2 ^ l.bits / 4 * 4) % 2 ^ l.bits) lens

/-- `uimage_open` -/
def uimageOpen (l : Long) (file : Bytes) (counts : Nat → Nat) (junk : Nat → Nat → UInt8) : Option Handle :=
  let buf := readShort file 0 64 (counts 0)
  let raw := resized buf 64
  if be32 0 raw ≠ 0x27051956 then none
  else if crc32 0 (overwrite 4 [0, 0, 0, 0] raw) ≠ be32 4 raw then none
  else
    let header : Header := ⟨be32 12 raw, be32 24 raw, raw.getD 30 0, raw.getD 31 0⟩
    if header.type = typeMulti then
      let lens := readTable file counts junk maxMultiImageCount 1 buf.length
      some ⟨header, placeImages l 0 lens, 64 + 4 * (lens.length + 1)⟩
    else some ⟨header, [(0, header.size.toNat)], 64⟩

/-! ## Verifying -/

structure Verify where
  len : Nat
  pos : Nat
  crc : UInt32
  buf : Bytes
  reads : Nat

/-- The body of the loop of `uimage_verify` -/
def verifyRead (file : Bytes) (counts : Nat → Nat) (s : Verify) : Verify :=
  let now := min s.len pageSize
  let data := readShort file s.pos now (counts s.reads)
  let buf := overwrite 0 data s.buf
  ⟨s.len - data.length, s.pos + data.length, crc32 s.crc (buf.take now), buf, s.reads + 1⟩

def verifyTurn (file : Bytes) (counts : Nat → Nat) (s : Verify) : Turn Verify Unit UInt32 :=
  if s.len = 0 then .done s.crc else .next (verifyRead file counts s)

def verifyStart (header : Header) (junk : Bytes) : Verify := ⟨header.size.toNat, 64, 0, junk, 0⟩

/-- `uimage_verify`, if it is done after `turns` turns of its loop -/
def uimageVerify (file : Bytes) (header : Header) (counts : Nat → Nat) (junk : Bytes) (turns : Nat) :
    Option (Except Errno Unit) :=
  if file.length < 64 then some (.error .EINVAL)
  else if 2 ^ 31 ≤ header.size.toNat then some (.error .EFAULT)
  else
    match loop (verifyTurn file counts) () turns (verifyStart header junk) with
    | .error () => none
    | .ok crc => some (if crc ≠ header.dcrc then .error .EINVAL else .ok ())

/-! ## Loading -/

/-- What becomes of a call, and the bytes that were handed on -/
structure Outcome where
  handed : Bytes
  result : Except Errno Unit

def Outcome.fail (e : Errno) : Outcome := ⟨[], .error e⟩

/-- The loop of `uncompress_copy`: a page is flushed whole, whatever was read. -/
def copyLoop (file : Bytes) (flush : Nat → Bool) : Nat → Nat → Nat → Bytes → Outcome
  | 0, _, _, _ => ⟨[], .ok ()⟩
  | pages + 1, len, pos, buf =>
    if len = 0 then ⟨[], .ok ()⟩
    else
      let now := min len pageSize
      let buf := overwrite 0 (slice pos now file) buf
      if !flush pos then ⟨buf.take now, .error .EIo⟩
      else
        let rest := copyLoop file flush pages (len - now) (pos + now) buf
        ⟨buf.take now ++ rest.handed, rest.result⟩

/-- `uncompress_copy`; the length is an `int` -/
def uncompressCopy (file : Bytes) (flush : Nat → Bool) (len pos : Nat) (stale : Nat → UInt8) : Outcome :=
  if 2 ^ 31 ≤ len then .fail .EFAULT else copyLoop file flush len len pos ((List.range pageSize).map stale)

/-- A decompressor gets the bytes it asks for, as far as there are any. -/
def uncompress (file : Bytes) (pos : Nat) (reqs : List Nat) (ret : Bool) : Outcome :=
  ⟨slice pos reqs.sum file, if ret then .ok () else .error .EIo⟩

/-- `uimage_load`; whether a flush succeeds is up to its place in the file -/
def uimageLoad (l : Long) (file : Bytes) (handle : Handle) (imageNo : Nat) (flush : Nat → Bool) (stale : Nat → UInt8)
    (reqs : List Nat) (ret : Bool) : Outcome :=
  match handle.ihd[imageNo]? with
  | none => .fail .EINVAL
  | some (offset, len) =>
    let off := (offset + handle.dataOffset) % 2 ^ l.bits
    if file.length < off then .fail .EINVAL
    else if handle.header.comp = compNone ∨ handle.header.type = typeRamdisk then
      uncompressCopy file flush len off stale
    else uncompress file off reqs ret

/-- `uimage_load_to_buf`: the buffer that is returned, or what is handed to the decompressor.
Whether there is gzip data is seen from the first bytes. -/
def uimageLoadToBuf (l : Long) (file : Bytes) (handle : Handle) (imageNo : Int) (stale : Nat → UInt8) (isGzip : Bytes → Bool)
    (reqs : List Nat) (ret : Bool) : Outcome :=
  if imageNo < 0 then .fail .EFAULT
  else
    match handle.ihd[imageNo.toNat]? with
    | none => .fail .EINVAL
    | some (offset, len) =>
      let off := (offset + handle.dataOffset) % 2 ^ l.bits
      if file.length < off then .fail .EINVAL
      else if handle.header.comp = compNone then
        let data := slice off len file
        -- an `int` is compared with an `unsigned long`
        let got := Int.bmod data.length (2 ^ 32)
        if got % 2 ^ l.bits < len then .fail .EINVAL
        else ⟨(List.range len).map fun i => data.getD i (stale i), .ok ()⟩
      else if !isGzip (slice off 128 file) then .fail .EINVAL
      else if file.length < (off + len + 2 ^ l.bits - 4) % 2 ^ l.bits then .fail .EINVAL
      else uncompress file off reqs ret

/-- The calls that load an image -/
inductive Call where
  | load (imageNo : Nat) (flush : Nat → Bool) (stale : Nat → UInt8) (reqs : List Nat) (ret : Bool)
  | loadToBuf (imageNo : Int) (stale : Nat → UInt8) (isGzip : Bytes → Bool) (reqs : List Nat) (ret : Bool)

def Call.run (l : Long) (file : Bytes) (handle : Handle) : Call → Outcome
  | .load imageNo flush stale reqs ret => uimageLoad l file handle imageNo flush stale reqs ret
  | .loadToBuf imageNo stale isGzip reqs ret => uimageLoadToBuf l file handle imageNo stale isGzip reqs ret

end Barebox.Uimage
