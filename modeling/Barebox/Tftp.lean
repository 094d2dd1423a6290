import Barebox.Strtox

/-!
# The options a TFTP server agrees to — `fs/tftp.c`

An OACK is a list of options, each a name and a value that end in a NUL. Its parser should stay
inside the packet and leave a block size that there is room for. But it takes any number for
the block size, and behind a name without a value it reads past the packet. `tftp_oack_iff`
says which packets are harmless.

Mirroring notes:
- `pkt` is what is behind the opcode. `tftp_recv` ignores a packet without two bytes there.
- `none` is a read outside of the packet.
- A block is put into the fifo, and into the packet of the connection, which has `PKTSIZE` bytes,
  behind the headers of Ethernet, IP, UDP and TFTP.
-/

namespace Barebox.Tftp

open Lib List

/-- What an OACK sets in `struct file_priv` -/
structure FilePriv where
  filesize : Int
  blocksize : Int

/-- `TFTP_FIFO_SIZE` -/
def fifoSize : Int := 4096

/-- What the headers leave of `PKTSIZE` -/
def packetRoom : Int := 1518 - 14 - 20 - 8 - 4

/-- The string at `s`, and what is behind its NUL -/
def strAt : Bytes → Option (Bytes × Bytes)
  | [] => none
  | c :: s => if c = 0 then some ([], s) else (strAt s).map fun p => (c :: p.1, p.2)

theorem strAt_eq_some_iff {s str rest : Bytes} : strAt s = some (str, rest) ↔ 0 ∉ str ∧ s = str ++ 0 :: rest := by
  induction s generalizing str with
  | nil => simp [strAt]
  | cons c s ih =>
    rw [strAt]
    split
    next hc => cases str <;> grind
    next hc =>
      rw [Option.map_eq_some_iff]
      cases str with
      | nil => simp [hc]
      | cons d str => grind

/-- The number, as an `int` -/
def blksize (val : Bytes) : Int := Int.bmod (simpleStrtoull val 10).1 (2 ^ 32)

def isBlksize (o : Bytes × Bytes) : Bool := o.1 = cstr "blksize"

/-- What an option sets -/
def setOption (priv : FilePriv) (o : Bytes × Bytes) : FilePriv where
  filesize := if o.1 = cstr "tsize" then Int.bmod (simpleStrtoull o.2 10).1 (2 ^ 64) else priv.filesize
  blocksize := if isBlksize o then blksize o.2 else priv.blocksize

def parseLoop (len : Nat) (priv : FilePriv) (s : Bytes) : Option FilePriv :=
  if s = [] then some priv
  else
    match _hopt : strAt s with
    | none => none
    | some (opt, val) =>
      -- never: the bound moves with `s`
      if len < opt.length + 1 then some priv
      else
        match _hval : strAt val with
        | none => none
        | some (str, rest) => parseLoop len (setOption priv (opt, str)) rest
termination_by s.length
decreasing_by
  rw [(strAt_eq_some_iff.mp _hopt).2, (strAt_eq_some_iff.mp _hval).2]
  simp only [length_append, length_cons]
  omega

/-- `tftp_parse_oack` -/
def tftpParseOack (priv : FilePriv) (pkt : Bytes) : Option FilePriv :=
  parseLoop pkt.length priv (pkt.set (pkt.length - 1) 0)

/-! ## What is expected -/

def Fits (blocksize : Int) : Prop := 1 ≤ blocksize ∧ blocksize ≤ fifoSize ∧ blocksize ≤ packetRoom

/-- The bytes hold these options and nothing else. -/
inductive Options : Bytes → List (Bytes × Bytes) → Prop where
  | nil : Options [] []
  | cons {opt val s : Bytes} {opts : List (Bytes × Bytes)} (hopt : 0 ∉ opt) (hval : 0 ∉ val) (hs : Options s opts) :
      Options (opt ++ 0 :: (val ++ 0 :: s)) ((opt, val) :: opts)

/-- The last block size, or that from before if there is none -/
def lastBlksize (before : Int) (opts : List (Bytes × Bytes)) : Int :=
  (opts.reverse.find? isBlksize).elim before fun o => blksize o.2

/-- Options that are well formed are read one pair at a time. -/
theorem Options.strAt_eq {s : Bytes} {opts : List (Bytes × Bytes)} (h : Options s opts) (hs : s ≠ []) :
    ∃ opt val str rest opts', strAt s = some (opt, val) ∧ strAt val = some (str, rest) ∧
      Options rest opts' ∧ opts = (opt, str) :: opts' := by
  cases h with
  | nil => exact absurd rfl hs
  | cons hopt hval h =>
    exact ⟨_, _, _, _, _, strAt_eq_some_iff.mpr ⟨hopt, rfl⟩, strAt_eq_some_iff.mpr ⟨hval, rfl⟩, h, rfl⟩

/-- The loop accepts what is well formed, and sets the options in order. -/
theorem parseLoop_eq_some_iff {len : Nat} {priv p : FilePriv} {s : Bytes} (hlen : s.length ≤ len) :
    parseLoop len priv s = some p ↔ ∃ opts, Options s opts ∧ opts.foldl setOption priv = p := by
  -- along the loop: the end, no option, no room, no value, a pair
  fun_induction parseLoop len priv s with
  | case1 priv =>
    constructor
    · intro h
      exact ⟨[], .nil, Option.some.inj h⟩
    · rintro ⟨opts, hopts, rfl⟩
      generalize hnil : ([] : Bytes) = s at hopts
      cases hopts with
      | nil => rfl
      | cons => simp at hnil
  | case2 priv s hs hopt =>
    refine iff_of_false nofun ?_
    rintro ⟨opts, hopts, -⟩
    obtain ⟨_, _, _, _, _, hopt', -⟩ := hopts.strAt_eq hs
    cases hopt.symm.trans hopt'
  | case3 priv s hs opt val hopt hlt =>
    rw [(strAt_eq_some_iff.mp hopt).2, length_append, length_cons] at hlen
    omega
  | case4 priv s hs opt val hopt hlt hval =>
    refine iff_of_false nofun ?_
    rintro ⟨opts, hopts, -⟩
    obtain ⟨_, _, _, _, _, hopt', hval', -⟩ := hopts.strAt_eq hs
    cases hopt.symm.trans hopt'
    cases hval.symm.trans hval'
  | case5 priv s hs opt val hopt hlt str rest hval ih =>
    obtain ⟨hopt0, rfl⟩ := strAt_eq_some_iff.mp hopt
    obtain ⟨hval0, rfl⟩ := strAt_eq_some_iff.mp hval
    rw [ih (by simp at hlen; omega)]
    constructor
    · rintro ⟨opts, hopts, rfl⟩
      exact ⟨_, .cons hopt0 hval0 hopts, rfl⟩
    · rintro ⟨opts, hopts, rfl⟩
      obtain ⟨_, _, _, _, opts', hopt', hval', hrest, rfl⟩ := hopts.strAt_eq hs
      cases hopt.symm.trans hopt'
      cases hval.symm.trans hval'
      exact ⟨opts', hrest, rfl⟩

/-- The last one counts. -/
theorem foldl_setOption_blocksize (priv : FilePriv) (opts : List (Bytes × Bytes)) :
    (opts.foldl setOption priv).blocksize = lastBlksize priv.blocksize opts := by
  induction opts generalizing priv with
  | nil => rfl
  | cons o opts ih =>
    rw [foldl_cons, ih, lastBlksize, lastBlksize, reverse_cons, find?_append]
    cases opts.reverse.find? isBlksize with
    | some o' => rw [Option.some_or, Option.elim_some, Option.elim_some]
    | none =>
      rw [Option.none_or, find?_singleton, Option.elim_none]
      by_cases ho : isBlksize o = true
      · rw [if_pos ho, Option.elim_some]
        exact if_pos ho
      · rw [if_neg ho, Option.elim_none]
        exact if_neg ho

/-- The parser stays inside the packet and leaves a block size that fits if and only if the packet,
with a NUL for its last byte, is a list of options, and the last block size fits. -/
theorem tftp_oack_iff (priv : FilePriv) (pkt : Bytes) :
    (∃ p, tftpParseOack priv pkt = some p ∧ Fits p.blocksize) ↔
      ∃ opts, Options (pkt.set (pkt.length - 1) 0) opts ∧ Fits (lastBlksize priv.blocksize opts) := by
  simp only [tftpParseOack, parseLoop_eq_some_iff (Nat.le_of_eq length_set), ← foldl_setOption_blocksize]
  constructor
  · rintro ⟨_, ⟨opts, hopts, rfl⟩, hfits⟩
    exact ⟨opts, hopts, hfits⟩
  · rintro ⟨opts, hopts, hfits⟩
    exact ⟨_, ⟨opts, hopts, rfl⟩, hfits⟩

/-- A name without a value -/
theorem tftp_oack_name : ¬ ∃ p, tftpParseOack ⟨0, 512⟩ [0x61, 0] = some p ∧ Fits p.blocksize := by
  simp [tftpParseOack, parseLoop, strAt]

end Barebox.Tftp
