import Mathlib

/-!
# Return codes and sizes

The C functions report `0` or a negative errno. `Ret` is that convention
as a type; a function that also hands a value out returns
`Except Errno α`.

`EFAULT` is never returned by the C code. It marks the runs that have no
defined continuation there — a copy past the end of a buffer, a read
through a dangling pointer — so that the model stays total without
inventing a result. `EIo` is `EIO`, and `ENXIo` is `ENXIO`.
-/

namespace Barebox

/-- The errno values the modelled functions return. -/
inductive Errno where
  | EPERM | ENOENT | EIo | E2BIG | EACCES | ENOMEM | EFAULT | EBUSY | EEXIST | ENODEV | EINVAL | ENOSPC
  | ENXIo | EBADF | ENOTDIR | EISDIR | EMFILE | ESPIPE | ENOSYS | EROFS | ENOEXEC | ERANGE | ENODATA | EOVERFLOW | EILSEQ | EBADMSG | EUCLEAN | ENOTSUPP | EKEYREJECTED
  | EOPNOTSUPP | EAGAIN | ENETDOWN | ECONNREFUSED | ECONNRESET | ECONNABORTED | EALREADY | ETIMEDOUT
  deriving DecidableEq, Repr

/-- A C return code: `0`, or a negative errno. -/
inductive Ret where
  | ok
  | err (e : Errno)
  deriving DecidableEq, Repr

/-- The size of a `long`, which is also that of a pointer and of a `size_t`. -/
inductive Long where
  | bits32
  | bits64
  deriving DecidableEq

def Long.bits : Long → Nat
  | .bits32 => 32
  | .bits64 => 64

-- these by name, for a `rfl` on a goal with large numbers in it may evaluate them
variable {β α : Type}

theorem ok_bind (a : α) (f : α → Except Errno β) : (Except.ok a >>= f) = f a := rfl

theorem error_bind (e : Errno) (f : α → Except Errno β) :
    (Except.error e >>= f) = .error e := rfl

theorem ok_of_bind {x : Except Errno α} {f : α → Except Errno β} {b : β}
    (h : (x >>= f) = .ok b) : ∃ a, x = .ok a ∧ f a = .ok b := by
  cases x with
  | error e => cases h
  | ok a => exact ⟨a, rfl, h⟩

end Barebox
