import Barebox.Lib.Bytes

/-!
# CRC-32 — `crypto/crc32.c`

The table is the one `make_crc_table` makes: the constant table of the
source is its printout. The eight-fold unrolled loop and the tail loop are
one fold over the bytes.
-/

namespace Barebox

open Lib

/-- One step of the inner loop of `make_crc_table`. -/
def crcShift (c : UInt32) : UInt32 :=
  if c &&& 1 = 1 then (0xedb88320 : UInt32) ^^^ (c >>> 1) else c >>> 1

def crcTable (n : UInt32) : UInt32 :=
  crcShift (crcShift (crcShift (crcShift (crcShift (crcShift (crcShift (crcShift n)))))))

/-- `DO1`. -/
def crcByte (crc : UInt32) (b : UInt8) : UInt32 :=
  crcTable ((crc ^^^ b.toUInt32) &&& 0xff) ^^^ (crc >>> 8)

def crc32 (crc : UInt32) (buf : Bytes) : UInt32 :=
  buf.foldl crcByte (crc ^^^ 0xffffffff) ^^^ 0xffffffff

theorem crc32_nil (crc : UInt32) : crc32 crc [] = crc := by
  show crc ^^^ 0xffffffff ^^^ 0xffffffff = crc
  rw [UInt32.xor_assoc, UInt32.xor_self, UInt32.xor_zero]

/-- The CRC of two pieces, one after the other -/
theorem crc32_append (crc : UInt32) (a b : Bytes) : crc32 (crc32 crc a) b = crc32 crc (a ++ b) := by
  unfold crc32
  rw [UInt32.xor_assoc, UInt32.xor_self, UInt32.xor_zero, List.foldl_append]

example : crc32 0 (cstr "123456789") = 0xcbf43926 := by decide +kernel

end Barebox
