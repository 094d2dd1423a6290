import Barebox.Base
import Barebox.Lib.Bytes

/-!
# Numbers from strings — `lib/strtox.c`, `lib/kstrtox.c`

The parser behind parameters and environment variables. It never fails: it
takes the digits it finds, wraps around at 64 bits, and stops at the first
character that is no digit of the base. A string without digits is zero.

`kstrtoint` does fail: on a string that is not a number as a whole, except
for a newline at its end, and on a number that does not fit. It is here for
base 10.
-/

namespace Barebox

open Lib

/-- The value of a digit, as `_parse_integer` reads it. -/
def digitVal (c : UInt8) : Option Nat :=
  let lc := c ||| 0x20
  if 0x30 ≤ c ∧ c ≤ 0x39 then some (c.toNat - 0x30)
  else if 0x61 ≤ lc ∧ lc ≤ 0x66 then some (lc.toNat - 0x61 + 10)
  else none

/-- `_parse_integer`: the number, and what is left of the string. The
overflow bit is dropped by every caller modelled here. -/
def parseInteger (base : Nat) : Bytes → Nat → Nat × Bytes
  | [], res => (res, [])
  | c :: s, res =>
    match digitVal c with
    | none => (res, c :: s)
    | some val =>
      if base ≤ val then (res, c :: s)
      else parseInteger base s ((res * base + val) % 2 ^ 64)

/-- `_parse_integer_fixup_radix`; past the end of the string is the NUL. -/
def parseIntegerFixupRadix (s : Bytes) (base : Nat) : Bytes × Nat :=
  let isX := s.getD 1 0 ||| 0x20 = 0x78
  let base :=
    if base = 0 then
      if s.getD 0 0 = 0x30 then
        if isX ∧ (digitVal (s.getD 2 0)).isSome then 16 else 8
      else 10
    else base
  if base = 16 ∧ s.getD 0 0 = 0x30 ∧ isX then (s.drop 2, base) else (s, base)

def simpleStrtoull (s : Bytes) (base : Nat) : Nat × Bytes :=
  let (s, base) := parseIntegerFixupRadix s base
  parseInteger base s 0

example : simpleStrtoull (cstr "0x2a,") 0 = (42, cstr ",") := by decide

def isdigit (c : UInt8) : Bool := 0x30 ≤ c ∧ c ≤ 0x39

/-- The number `_parse_integer` computes, without its overflows. -/
def digitsValue (b : Bytes) : Nat := b.foldl (fun res c => res * 10 + (c.toNat - 0x30)) 0

/-- `_kstrtoull` -/
def kstrtoullDigits (s : Bytes) : Except Errno Nat :=
  let digits := s.takeWhile isdigit
  let rest := s.dropWhile isdigit
  if 2 ^ 64 ≤ digitsValue digits then .error .ERANGE
  else if digits = [] then .error .EINVAL
  else if rest = [] ∨ rest = [0x0a] then .ok (digitsValue digits)
  else .error .EINVAL

/-- `kstrtoull`: there may be a plus sign. -/
def kstrtoull (s : Bytes) : Except Errno Nat :=
  kstrtoullDigits (if s.head? = some 0x2b then s.tail else s)

/-- `kstrtoll`: or a minus sign. -/
def kstrtoll (s : Bytes) : Except Errno Int :=
  if s.head? = some 0x2d then
    match kstrtoullDigits s.tail with
    | .error e => .error e
    | .ok n => if 2 ^ 63 < n then .error .ERANGE else .ok (-n)
  else
    match kstrtoull s with
    | .error e => .error e
    | .ok n => if 2 ^ 63 ≤ n then .error .ERANGE else .ok n

def kstrtoint (s : Bytes) : Except Errno Int :=
  match kstrtoll s with
  | .error e => .error e
  | .ok n => if -2 ^ 31 ≤ n ∧ n < 2 ^ 31 then .ok n else .error .ERANGE

end Barebox
