import Barebox.Ctype
import Barebox.Lib.HashChain
import Barebox.Lib.Run

/-!
# The lump directory — `commands/doom/w_wad.c`

Lumps are found by their name, of up to eight characters. Without a hash table the directory
is searched from its end, so that a lump of a WAD that was added later takes precedence; with
one, the chain of the name's hash is.

The hash folds to upper case and the comparison to lower case, in Latin-1. Upper case is a
function of lower case (`toupper_tolower`), but not the other way round: 0xdf is a small
letter without a capital one, and is folded to 0xbf, which is no letter.

Mirroring notes:
- a pointer to a lump is its index, so that a link stays what it is when `ExtendLumpInfo`
  copies the array.
- what is found in a file is the names of its directory; a file that is no WAD has one, its
  own. Their number is not negative, and small enough for an `int`.
- a walk along a chain has fuel for all lumps; that it is enough is part of the result.
-/

namespace Barebox.Doom

open Lib

/-- `lumpinfo_t`: the name, and the link in the hash table -/
structure Lumpinfo where
  name : Bytes
  next : Option Nat

/-- The directory: `lumpinfo` and `lumphash` -/
structure Directory where
  lumpinfo : List Lumpinfo
  lumphash : Option (Nat → Option Nat)

namespace Directory

def numlumps (d : Directory) : Nat := d.lumpinfo.length

def nameAt (d : Directory) (i : Nat) : Bytes := (d.lumpinfo[i]?.map Lumpinfo.name).getD []

def nextAt (d : Directory) (i : Nat) : Option Nat := d.lumpinfo[i]?.bind Lumpinfo.next

end Directory

/-- One character of `W_LumpNameHash` -/
def hashChar (result : UInt32) (c : UInt8) : UInt32 := ((result <<< 5) ^^^ result) ^^^ (toupper c).toUInt32

def wLumpNameHash (s : Bytes) : UInt32 := (strnchars 8 s).foldl hashChar 5381

/-- `W_AddFile` and `ExtendLumpInfo`: the new lumps go to the end, and there is no hash table
any more. -/
def wAddFile (d : Directory) (names : List Bytes) : Directory :=
  { lumpinfo := d.lumpinfo ++ names.map fun name => ⟨strnchars 8 name, none⟩
    lumphash := none }

/-- Hook a lump into the hash table. -/
def hookLump (numlumps : Nat) (d : List Lumpinfo × (Nat → Option Nat)) (i : Nat) :
    List Lumpinfo × (Nat → Option Nat) :=
  match d.1[i]? with
  | none => d
  | some lump =>
    let hash := (wLumpNameHash lump.name).toNat % numlumps
    (d.1.set i { lump with next := d.2 hash }, fun k => if k = hash then some i else d.2 k)

def wGenerateHashTable (d : Directory) : Directory :=
  if 0 < d.numlumps then
    let table := (List.range d.numlumps).foldl (hookLump d.numlumps) (d.lumpinfo, fun _ => none)
    ⟨table.1, some table.2⟩
  else d

/-- The loop without a hash table, from lump `i - 1` down -/
def searchDown (d : Directory) (name : Bytes) : Nat → Int
  | 0 => -1
  | i + 1 => if strncasecmp (d.nameAt i) name 8 = 0 then i else searchDown d name i

/-- The loop along a chain -/
def searchChain (d : Directory) (name : Bytes) (first : Option Nat) : Option Int :=
  (follow d.nextAt (fun i => strncasecmp (d.nameAt i) name 8 = 0) (d.numlumps + 1) first).map fun
    | some i => i
    | none => -1

def wCheckNumForName (d : Directory) (name : Bytes) : Option Int :=
  match d.lumphash with
  | some lumphash => searchChain d name (lumphash ((wLumpNameHash name).toNat % d.numlumps))
  | none => some (searchDown d name d.numlumps)

/-! ## Runs -/

inductive Call where
  | addFile (names : List Bytes)
  | generateHashTable

def Directory.call (d : Directory) : Call → Directory
  | .addFile names => wAddFile d names
  | .generateHashTable => wGenerateHashTable d

/-- Before any file -/
def Directory.empty : Directory := ⟨[], none⟩

end Barebox.Doom
