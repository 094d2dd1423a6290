import Barebox.Ioport.Run

/-!
# Memory banks — `common/memory.c`

A memory bank is a region of `iomem_resource` with its start and size noted
beside it. `barebox_add_memory_bank` does nothing when a bank has the range
already, grows a bank that is inside of the range, and adds a bank otherwise.

Mirroring notes:
- `iomem` is the tree of resources and `root` is `iomem_resource` in it.
- `newres` and the resources of banks have no flags, so that `resource_contains`
  is about the ranges only. `unsigned long` has the width of `resource_size_t`
  on all machines that the code is built for.
- a bank that grows is changed in place: `banks` has the new one where the old
  one was.
-/

namespace Barebox.Memory

open Lib Ioport

/-- `struct memory_bank` -/
structure Bank where
  start : Nat
  size : Nat
  res : Nat
  deriving DecidableEq

structure State where
  iomem : Tree
  banks : List Bank

/-- `resource_size` -/
def resourceSize (w : Nat) (res : Resource) : Nat := (res.end_ - res.start + 1) % 2 ^ w

/-- `resource_contains(bank->res, newres)` -/
def containsNew (t : Tree) (start end_ : Nat) (bank : Bank) : Bool :=
  t.start bank.res ≤ start ∧ end_ ≤ t.end_ bank.res

/-- `resource_contains(newres, bank->res)` -/
def insideNew (t : Tree) (start end_ : Nat) (bank : Bank) : Bool :=
  start ≤ t.start bank.res ∧ t.end_ bank.res ≤ end_

/-- One side of `barebox_grow_memory_bank`: a region is requested and merged
into that of the bank. -/
def growSide (w root : Nat) (t : Tree) (res : Nat) (name : String) (start end_ : Nat) :
    Tree × Except Errno Unit :=
  match requestRegion t root name start end_ with
  | (t, .error e) => (t, .error e)
  | (t, .ok new) => ((mergeRegions w t name res new).1, .ok ())

/-- `barebox_grow_memory_bank` -/
def growMemoryBank (w root : Nat) (t : Tree) (bank : Bank) (name : String) (start end_ : Nat) :
    Tree × Bank × Except Errno Unit :=
  let bankEnd := t.end_ bank.res
  let below := if start < bank.start then growSide w root t bank.res name start (bank.start - 1)
    else (t, .ok ())
  match below with
  | (t, .error e) => (t, bank, .error e)
  | (t, .ok ()) =>
    let above := if bankEnd < end_ then growSide w root t bank.res name (bankEnd + 1) end_
      else (t, .ok ())
    match above with
    | (t, .error e) => (t, bank, .error e)
    | (t, .ok ()) => (t, { bank with start := start, size := resourceSize w (t.at_ bank.res) }, .ok ())

/-- The last address of a range. -/
def lastOf (w start size : Nat) : Nat := (start + size + 2 ^ w - 1) % 2 ^ w

/-- `barebox_add_memory_bank` -/
def addMemoryBank (w root : Nat) (st : State) (name : String) (start size : Nat) :
    State × Except Errno Unit :=
  let end_ := lastOf w start size
  let other := fun bank =>
    !(containsNew st.iomem start end_ bank || insideNew st.iomem start end_ bank)
  match st.banks.dropWhile other with
  | bank :: post =>
    if containsNew st.iomem start end_ bank then (st, .ok ())
    else
      let (t, bank, ret) := growMemoryBank w root st.iomem bank name start end_
      (⟨t, st.banks.takeWhile other ++ bank :: post⟩, ret)
  | [] =>
    match requestRegion st.iomem root name start end_ with
    | (t, .error e) => ({ st with iomem := t }, .error e)
    | (t, .ok res) => (⟨t, st.banks ++ [⟨start, size, res⟩]⟩, .ok ())

/-- The loop of `request_sdram_region` -/
def requestFromBanks (name : String) (start end_ : Nat) : Tree → List Bank → Tree × Option Nat
  | t, [] => (t, none)
  | t, bank :: banks =>
    match requestRegion t bank.res name start end_ with
    | (t, .ok res) => (t, some res)
    | (t, .error _) => requestFromBanks name start end_ t banks

/-- `request_sdram_region` -/
def requestSdramRegion (w : Nat) (st : State) (name : String) (start size : Nat) : State × Option Nat :=
  let (t, res) := requestFromBanks name start (lastOf w start size) st.iomem st.banks
  ({ st with iomem := t }, res)

/-- `release_sdram_region` -/
def releaseSdramRegion (st : State) (res : Nat) : State :=
  { st with iomem := (releaseRegion st.iomem res).1 }

end Barebox.Memory
