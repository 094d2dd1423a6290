import Barebox.Lib.Bytes
import Barebox.Lib.Overlay
import Barebox.Memory.Model

/-!
# Loading ELF files — `common/elf.c`

The program headers are read into a buffer. For each segment that has bytes in the file a
region of memory is requested, then the segments are read in the order in which they are
in the file, and what is left of a segment in memory is set to zero.

Mirroring notes:
- the machine has 64 bits and the byte order of the files. A write goes to `addr`, `addr +
  1` and so on, modulo `2 ^ 64`; `writes` has them all in their order.
- the file can be opened and has `file.length` bytes. Reads return what is there, in one
  or in more pieces, or fail after some bytes (`fault`).
- buffers that a read does not fill have something in them: `stack` and `heap`. `EFAULT`
  is for headers that are not in the buffer.
- `errno` is what an earlier call has left there: `-errno` is returned for a read of more
  than `INT_MAX` bytes, which looks like an error.
- there is memory for the buffer of the headers, unless its size is negative. `low_addr`,
  `high_addr` and `entry`, which nothing here looks at, are left out.
-/

namespace Barebox.Elf

open Lib Ioport

/-! ## Headers -/

/-- A field of a header in either class: its place and its size -/
def field (class32 : Bool) (at32 size32 at64 size64 : Nat) (buf : Bytes) : Nat :=
  if class32 then leNat (slice at32 size32 buf) else leNat (slice at64 size64 buf)

def eType (class32 : Bool) : Bytes → Nat := field class32 16 2 16 2
def ePhoff (class32 : Bool) : Bytes → Nat := field class32 28 4 32 8
def ePhentsize (class32 : Bool) : Bytes → Nat := field class32 42 2 54 2
def ePhnum (class32 : Bool) : Bytes → Nat := field class32 44 2 56 2

/-- `elf_size_of_phdr` -/
def sizeOfPhdr (class32 : Bool) : Nat := if class32 then 32 else 56

/-- A program header -/
structure Phdr where
  type : Nat
  offset : Nat
  paddr : UInt64
  filesz : Nat
  memsz : Nat
  deriving DecidableEq

/-- `elf_phdr_p_type` and the others -/
def phdrOf (class32 : Bool) (buf : Bytes) : Phdr where
  type := field class32 0 4 0 4 buf
  offset := field class32 4 4 8 8 buf
  paddr := UInt64.ofNat (field class32 12 4 24 8 buf)
  filesz := field class32 16 4 32 8 buf
  memsz := field class32 20 4 40 8 buf

/-- `PT_LOAD` -/
def ptLoad : Nat := 1

/-- `struct elf_image`; a section of its list is a region and its header -/
structure ElfImage where
  class32 : Bool
  hdrBuf : Bytes
  list : List (Nat × Phdr)
  deriving DecidableEq

/-- A buffer of `n` bytes into which the file was read -/
def readInto (n : Nat) (file : Bytes) (junk : Nat → UInt8) : Bytes :=
  (List.range n).map fun i => file.getD i (junk i)

/-- `elf_check_image` -/
def elfCheckImage (buf : Bytes) : Except Errno Bool :=
  let class32 := buf.getD 4 0 = 1
  if slice 0 4 buf ≠ [0x7f, 0x45, 0x4c, 0x46] then .error .EINVAL
  else if eType class32 buf ≠ 2 then .error .ENOEXEC
  else if ePhnum class32 buf = 0 then .error .ENOEXEC
  else .ok class32

/-- `elf_open` -/
def elfOpen (file : Bytes) (stack heap : Nat → UInt8) : Except Errno ElfImage :=
  let hdr := readInto 64 file stack
  match elfCheckImage hdr with
  | .error e => .error e
  | .ok class32 =>
    let hdrSize := Int.bmod (ePhoff class32 hdr + ePhnum class32 hdr * ePhentsize class32 hdr) (2 ^ 32)
    if hdrSize < 0 then .error .ENOMEM
    else .ok ⟨class32, readInto hdrSize.toNat file heap, []⟩

/-- Header `i` of the buffer, if it is in there -/
def phdrAt (elf : ElfImage) (i : Nat) : Option Phdr :=
  let off := ePhoff elf.class32 elf.hdrBuf + i * sizeOfPhdr elf.class32
  if off + sizeOfPhdr elf.class32 ≤ elf.hdrBuf.length then some (phdrOf elf.class32 (elf.hdrBuf.drop off))
  else none

/-- The bytes of the file header up to `e_phnum` -/
def ehdrUsed (class32 : Bool) : Nat := if class32 then 46 else 58

/-! ## Regions -/

/-- `request_elf_segment` -/
def requestElfSegment (st : Memory.State) (phdr : Phdr) : Memory.State × Except Errno (Option Nat) :=
  if phdr.type ≠ ptLoad then (st, .ok none)
  else if phdr.filesz = 0 then (st, .ok none)
  else
    match Memory.requestSdramRegion 64 st "elf_section" phdr.paddr.toNat phdr.filesz with
    | (st, none) => (st, .error .EINVAL)
    | (st, some res) => (st, .ok (some res))

/-- The loop over the headers with the numbers `l` -/
def requestSegments (elf : ElfImage) : Memory.State → List (Nat × Phdr) → List Nat →
    Memory.State × List (Nat × Phdr) × Except Errno Unit
  | st, list, [] => (st, list, .ok ())
  | st, list, i :: l =>
    match phdrAt elf i with
    | none => (st, list, .error .EFAULT)
    | some phdr =>
      match requestElfSegment st phdr with
      | (st, .error e) => (st, list, .error e)
      | (st, .ok none) => requestSegments elf st list l
      | (st, .ok (some res)) => requestSegments elf st (list ++ [(res, phdr)]) l

/-- `elf_release_regions` -/
def elfReleaseRegions (st : Memory.State) (list : List (Nat × Phdr)) : Memory.State :=
  list.foldl (fun st r => Memory.releaseSdramRegion st r.1) st

/-! ## Memory -/

abbrev Ram := UInt64 → UInt8

structure Write where
  addr : UInt64
  bytes : Bytes

/-- What it writes to an address -/
def Write.byte (w : Write) (a : UInt64) : Option UInt8 := w.bytes[(a - w.addr).toNat]?

structure Load where
  ram : Ram
  writes : List Write

def Load.write (s : Load) (w : Write) : Load := ⟨overlay s.ram w.byte, s.writes ++ [w]⟩

section

variable (file : Bytes) (fault : Nat → Option (Nat × Errno)) (errno : Option Errno)

/-- What `read_full` finds of a segment -/
def found (phdr : Phdr) : Bytes := slice phdr.offset phdr.filesz file

/-- `lseek(fd, p_offset, SEEK_SET)`, as an `int`, is not -1 -/
def seeks (phdr : Phdr) : Bool := phdr.offset ≤ file.length ∧ Int.bmod phdr.offset (2 ^ 32) ≠ -1

/-- The loop of `load_elf_to_memory` -/
def loadElfToMemory : Load → List Phdr → Load × Except Errno Unit
  | s, [] => (s, .ok ())
  | s, phdr :: rest =>
    if !seeks file phdr then (s, .error .EPERM)
    else
      match fault phdr.offset with
      | some (n, e) => (s.write ⟨phdr.paddr, (found file phdr).take n⟩, .error e)
      | none =>
        let s := s.write ⟨phdr.paddr, found file phdr⟩
        if Int.bmod (found file phdr).length (2 ^ 32) < 0 then
          (s, match errno with
            | none => .ok ()
            | some e => .error e)
        else
          let s :=
            if phdr.filesz < phdr.memsz then
              s.write ⟨phdr.paddr + UInt64.ofNat phdr.filesz, List.replicate (phdr.memsz - phdr.filesz) 0⟩
            else s
          loadElfToMemory s rest

/-- `list_sort` with `elf_section_cmp`: by offset, and in the order of the table -/
def sortSections (list : List (Nat × Phdr)) : List (Nat × Phdr) :=
  list.mergeSort fun a b => a.2.offset ≤ b.2.offset

/-- `elf_load`: the regions, the memory and the list of the image -/
def elfLoad (elf : ElfImage) (st : Memory.State) (ram : Ram) :
    Memory.State × Load × List (Nat × Phdr) × Except Errno Unit :=
  if elf.list ≠ [] then (st, ⟨ram, []⟩, elf.list, .error .EINVAL)
  else if elf.hdrBuf.length < ehdrUsed elf.class32 then (st, ⟨ram, []⟩, [], .error .EFAULT)
  else
    match requestSegments elf st [] (List.range (ePhnum elf.class32 elf.hdrBuf)) with
    | (st, list, .error e) => (elfReleaseRegions st list, ⟨ram, []⟩, [], .error e)
    | (st, list, .ok ()) =>
      match loadElfToMemory file fault errno ⟨ram, []⟩ ((sortSections list).map (·.2)) with
      | (s, .error e) => (elfReleaseRegions st list, s, [], .error e)
      | (s, .ok ()) => (st, s, sortSections list, .ok ())

end

end Barebox.Elf
