import Barebox.Strtox

/-!
# Commands of fastboot — `common/fastboot.c`

What a command sends to the host and what it does, one after the other.

Mirroring notes:
- `Env` has the outcome of all that a command asks for: `none` for success. Queries
  (`stat`, `get_mtd`, `bbu_find_handler_by_device`) are not listed as operations, `close`,
  `unlink` and `free` neither. `get_mtd` has an answer for each place that it is called from.
- an invalid descriptor cannot be erased; an error pointer for an MTD device has no defined
  use (`Event.undefined`).
- a sparse image is the list of what `sparse_image_read` returns, up to the end.
- a command that starts something else may shut barebox down, for which `fastboot_shutdown`
  answers, and it may return or not.
- some texts are themselves the format of `fastboot_tx_print`. One that asks for an argument has
  no defined result, for there are none. The texts of `strerror` do not.
- there is no `cmd_exec` and no `cmd_flash`, and `start_download` is
  `fastboot_start_download_generic`.
- commands are C strings: without a NUL.
-/

namespace Barebox.Fastboot

open Lib

/-! ## Messages -/

/-- `enum fastboot_msg_type` -/
inductive MsgType where
  | okay | fail | info | data
  deriving DecidableEq

/-- What a command does -/
inductive Op where
  | openFile | erase | fstat | sparseImageOpen | ftruncate | malloc | sparseImageRead | ubiformat | ubiformatWrite
  | discardRange | lseek | writeFull | readFile | bareboxUpdate | copyFile
  deriving DecidableEq

inductive Event where
  | msg (type : MsgType) (sent : Bytes)
  | op (what : Op) (result : Option Errno)
  | undefined
  deriving DecidableEq

def MsgType.text : MsgType → Bytes
  | .okay => cstr "OKAY"
  | .fail => cstr "FAIL"
  | .info => cstr "INFO"
  | .data => cstr "DATA"

/-- `fastboot_tx_print`: 64 bytes at most, the last of them a NUL -/
def fastbootTxPrint (type : MsgType) (text : Bytes) : Event :=
  let sent := type.text ++ text
  .msg type (if sent.length < 64 then sent else sent.take 63 ++ [0])

/-- `%d` -/
def printInt (n : Int) : Bytes :=
  let digits := (Nat.toDigits 10 n.natAbs).map fun c => UInt8.ofNat c.toNat
  if n < 0 then 0x2d :: digits else digits

/-- `%08x` -/
def printHex8 (n : Nat) : Bytes :=
  let digits := (Nat.toDigits 16 n).map fun c => UInt8.ofNat c.toNat
  List.replicate (8 - digits.length) 0x30 ++ digits

/-- Where `vsnprintf` is in a directive -/
inductive FormatState where
  | text | flags | width | point | precision | long | conversion

/-- The character of the conversion: numbers, strings and pointers take an argument. -/
def FormatState.convert (c : UInt8) : Option FormatState :=
  if c ∈ cstr "cspnoxXdiu" then none else some .text

def FormatState.qualify (c : UInt8) : Option FormatState :=
  if c = 0x6c then some .long else if c ∈ cstr "hLZzt" then some .conversion else convert c

def FormatState.behindWidth (c : UInt8) : Option FormatState := if c = 0x2e then some .point else qualify c

/-- The next character of a format; there is no next state if an argument is taken. -/
def FormatState.next : FormatState → UInt8 → Option FormatState
  | .text, c => some (if c = 0x25 then .flags else .text)
  | .flags, c =>
    if c ∈ cstr "-+ #0" then some .flags
    else if isdigit c then some .width
    else if c = 0x2a then none
    else behindWidth c
  | .width, c => if isdigit c then some .width else behindWidth c
  | .point, c => if isdigit c then some .precision else if c = 0x2a then none else qualify c
  | .precision, c => if isdigit c then some .precision else qualify c
  | .long, c => if c = 0x6c then some .conversion else convert c
  | .conversion, c => convert c

/-- A format asks for an argument. -/
def takesArgument (fmt : Bytes) : Bool := (fmt.foldlM FormatState.next .text).isNone

/-! ## The environment -/

/-- As far as types are told apart -/
inductive Filetype where
  | androidSparse | ubi | barebox | other
  deriving DecidableEq

/-- `struct file_list_entry` with `FILE_LIST_FLAG_UBI` and `FILE_LIST_FLAG_CREATE` -/
structure FileListEntry where
  name : Bytes
  filename : Bytes
  flagUbi : Bool
  flagCreate : Bool

/-- `struct fastboot`, with the variables' names and values -/
structure Fb where
  files : List FileListEntry
  vars : List (Bytes × Bytes)

structure Config where
  long : Long
  ubiformat : Bool
  sparse : Bool
  bareboxUpdate : Bool
  commandSupport : Bool
  bootm : Bool
  oem : Bool

/-- What `sparse_image_read` returns, and what becomes of it -/
inductive Chunk where
  | error (e : Errno)
  | data (pos : Nat) (filetype : Filetype) (mtd ubiformat ubiformatWrite discard seek write : Option Errno)

/-- What becomes of a command that may start something else -/
structure Started where
  shutdown : Bool
  ret : Option Int

structure Env where
  strerror : Int → Bytes
  vsnprintf : Bytes → Bytes
  fileTypeToString : Filetype → Bytes
  errno : Errno → Int
  tempname : Filetype
  openFile : Option Errno
  erase : Option Errno
  checkMtd : Option Errno
  flashMtd : Option Errno
  sparseMtd : Option Errno
  ubiformat : Option Errno
  handler : Bool
  readFile : Option Errno
  bareboxUpdate : Option Errno
  copyFile : Option Errno
  stat : Option Errno
  fstat : Option Errno
  isRegular : Bool
  sparseImageOpen : Option Errno
  ftruncate : Option Errno
  malloc : Option Errno
  chunks : List Chunk
  getenv : Bytes → Option Bytes
  setenv : Option Errno
  runCommand : Started
  bootmBoot : Started

/-- `strerror(-ret)` -/
def Env.errorText (env : Env) (e : Errno) : Bytes := env.strerror (env.errno e)

/-- `fastboot_shutdown` -/
def fastbootShutdown : List Event :=
  [fastbootTxPrint .info (cstr "barebox shutting down"), fastbootTxPrint .okay []]

/-- What is sent for a command that has started something -/
def Started.events (started : Started) (answer : Int → Event) : List Event :=
  (if started.shutdown then fastbootShutdown else []) ++ (started.ret.map answer).toList

/-- `fastboot_tx_print` with a text for the format -/
def Env.txFormat (env : Env) (type : MsgType) (fmt : Bytes) : Event :=
  if takesArgument fmt then .undefined
  else fastbootTxPrint type (if 0x25 ∈ fmt then env.vsnprintf fmt else fmt)

/-! ## Simple commands -/

def cbReboot : List Event := [fastbootTxPrint .okay []]

def cbGetvar (fb : Fb) (env : Env) (cmd : Bytes) : List Event :=
  -- `strcmp_l1(cmd, "all")`
  if cmd.isPrefixOf (cstr "all") then
    fb.vars.map (fun v => fastbootTxPrint .info (v.1 ++ cstr ": " ++ v.2)) ++ [fastbootTxPrint .okay []]
  else
    match fb.vars.find? fun v => v.1 = cmd with
    | some v => [env.txFormat .okay v.2]
    | none => [fastbootTxPrint .okay []]

def fastbootStartDownloadGeneric (downloadSize : Nat) : List Event :=
  [fastbootTxPrint .data (printHex8 (downloadSize % 2 ^ 32))]

def cbDownload (cfg : Config) (env : Env) (cmd : Bytes) : List Event :=
  -- `simple_strtoul`
  let downloadSize := (simpleStrtoull cmd 16).1 % 2 ^ cfg.long.bits
  fastbootTxPrint .info (cstr "Downloading " ++ printInt (Int.bmod downloadSize (2 ^ 32)) ++ cstr " bytes...") ::
    .op .openFile env.openFile ::
    match env.openFile with
    | some _ => [fastbootTxPrint .fail (cstr "internal error")]
    | none =>
      if downloadSize = 0 then [fastbootTxPrint .fail (cstr "data invalid size")]
      else fastbootStartDownloadGeneric downloadSize

def cbBoot (env : Env) : List Event :=
  fastbootTxPrint .info (cstr "Booting kernel..\n") ::
    env.bootmBoot.events fun ret =>
      if ret ≠ 0 then fastbootTxPrint .fail (cstr "Booting failed: " ++ env.strerror (-ret))
      else fastbootTxPrint .okay []

def cbOemGetenv (env : Env) (cmd : Bytes) : List Event :=
  [env.txFormat .info ((env.getenv cmd).getD []), fastbootTxPrint .okay []]

def cbOemSetenv (env : Env) (cmd : Bytes) : List Event :=
  -- `parse_assignment`
  if 0x3d ∈ cmd then
    match env.setenv with
    | none => [fastbootTxPrint .okay []]
    | some e => [fastbootTxPrint .fail (env.errorText e)]
  else [fastbootTxPrint .fail (env.errorText .EINVAL)]

def cbOemExec (cfg : Config) (env : Env) : List Event :=
  if !cfg.commandSupport then [fastbootTxPrint .fail (cstr "no command support available")]
  else
    env.runCommand.events fun ret =>
      if ret < 0 then fastbootTxPrint .fail (env.strerror (-ret))
      else if 0 < ret then fastbootTxPrint .fail []
      else fastbootTxPrint .okay []

def cbErase (fb : Fb) (env : Env) (cmd : Bytes) : List Event :=
  fastbootTxPrint .info (cstr "Erasing " ++ cmd ++ cstr "...") ::
    match fb.files.find? fun e => e.name = cmd with
    | none => [fastbootTxPrint .fail (cstr "No such partition: " ++ cmd)]
    | some entry =>
      .op .openFile env.openFile ::
        match env.openFile with
        | some e =>
          -- there is no return here
          [fastbootTxPrint .fail (env.errorText e), .op .erase (some .EBADF),
            fastbootTxPrint .fail (cstr "cannot erase partition " ++ entry.filename ++ cstr ": " ++ env.errorText .EBADF)]
        | none =>
          .op .erase env.erase ::
            match env.erase with
            | some e =>
              [fastbootTxPrint .fail (cstr "cannot erase partition " ++ entry.filename ++ cstr ": " ++ env.errorText e)]
            | none => [fastbootTxPrint .okay []]

/-! ## Flashing -/

/-- `do_ubiformat` of what `get_mtd` has returned; `result` is that of `ubiformat` -/
def doUbiformat (cfg : Config) (mtd result : Option Errno) : List Event × Option Errno :=
  if !cfg.ubiformat then ([fastbootTxPrint .fail (cstr "ubiformat is not available")], some .ENODEV)
  else if mtd ≠ none then ([.undefined], result)
  else ([.op .ubiformat result], result)

/-- `check_ubi` -/
def checkUbi (cfg : Config) (env : Env) (entry : FileListEntry) (filetype : Filetype) (mtd : Option Errno) :
    List Event × Except Errno Bool :=
  if mtd = none ∧ filetype = .ubi ∧ !entry.flagUbi then
    ([fastbootTxPrint .info (cstr "writing UBI image to MTD device, add the 'u' "),
      fastbootTxPrint .info (cstr "flag to the partition description")], .ok false)
  else if !entry.flagUbi then ([], .ok false)
  else if !cfg.ubiformat then ([fastbootTxPrint .fail (cstr "ubiformat not available")], .error .ENOSYS)
  else if mtd ≠ none then ([fastbootTxPrint .fail (cstr "UBI flag given on non-MTD device")], .error .EINVAL)
  else if filetype = .ubi then ([fastbootTxPrint .info (cstr "This is a UBI image...")], .ok true)
  else ([fastbootTxPrint .fail (cstr "This is no UBI image but " ++ env.fileTypeToString filetype)], .error .EINVAL)

/-- What is done with some data of a sparse image; the MTD device is there -/
def writeData (cfg : Config) (entry : FileListEntry) (pos : Nat)
    (ubiformat ubiformatWrite discard seek write : Option Errno) : List Event × Option Errno :=
  if entry.flagUbi then
    if !cfg.ubiformat then ([], some .ENOSYS)
    else
      let (formatted, ret) := if pos = 0 then doUbiformat cfg none ubiformat else ([], none)
      match ret with
      | some e => (formatted, some e)
      | none => (formatted ++ [.op .ubiformatWrite ubiformatWrite], ubiformatWrite)
  else
    match seek with
    | some e => ([.op .discardRange discard, .op .lseek seek], some e)
    | none => ([.op .discardRange discard, .op .lseek none, .op .writeFull write], write)

/-- A turn of the loop of `fastboot_handle_sparse` -/
def sparseTurn (cfg : Config) (env : Env) (entry : FileListEntry) : Chunk → List Event × Option Errno
  | .error e => ([.op .sparseImageRead (some e)], some e)
  | .data pos filetype mtd ubiformat ubiformatWrite discard seek write =>
    let (checked, ret) := if pos = 0 then checkUbi cfg env entry filetype mtd else ([], .ok false)
    match ret with
    | .error e => (.op .sparseImageRead none :: checked, some e)
    | .ok _ =>
      let (written, ret) := writeData cfg entry pos ubiformat ubiformatWrite discard seek write
      (.op .sparseImageRead none :: (checked ++ written), ret)

/-- The loop of `fastboot_handle_sparse` -/
def sparseLoop (cfg : Config) (env : Env) (entry : FileListEntry) : List Chunk → List Event × Option Errno
  | [] => ([.op .sparseImageRead none], none)
  | chunk :: chunks =>
    match sparseTurn cfg env entry chunk with
    | (done, some e) => (done, some e)
    | (done, none) =>
      let (rest, ret) := sparseLoop cfg env entry chunks
      (done ++ rest, ret)

/-- Operations up to the first that fails; then the rest -/
def attempt : List (Op × Option Errno) → List Event × Option Errno → List Event × Option Errno
  | [], rest => rest
  | (what, some e) :: _, _ => ([.op what (some e)], some e)
  | (what, none) :: ops, rest =>
    let (events, ret) := attempt ops rest
    (.op what none :: events, ret)

def fastbootHandleSparse (cfg : Config) (env : Env) (entry : FileListEntry) : List Event × Option Errno :=
  if env.stat ≠ none ∧ !entry.flagCreate then ([], env.stat)
  else
    attempt ([(.openFile, env.openFile), (.fstat, env.fstat), (.sparseImageOpen, env.sparseImageOpen)]
        ++ (if env.isRegular then [(.ftruncate, env.ftruncate)] else []) ++ [(.malloc, env.malloc)])
      (if entry.flagUbi ∧ env.sparseMtd ≠ none then ([], env.sparseMtd) else sparseLoop cfg env entry env.chunks)

/-- `cb_flash` up to `out`, with an entry -/
def flashEntry (cfg : Config) (env : Env) (entry : FileListEntry) : List Event × Option Errno :=
  if env.tempname = .androidSparse then
    if !cfg.sparse then ([fastbootTxPrint .fail (cstr "sparse image not supported")], some .EOPNOTSUPP)
    else
      let (events, ret) := fastbootHandleSparse cfg env entry
      match ret with
      | some e => (events ++ [fastbootTxPrint .fail (cstr "writing sparse image: " ++ env.errorText e)], some e)
      | none => (events, none)
  else
    let (checked, ret) := checkUbi cfg env entry env.tempname env.checkMtd
    match ret with
    | .error e => (checked, some e)
    | .ok true =>
      let (formatted, ret) := doUbiformat cfg env.flashMtd env.ubiformat
      match ret with
      | some e => (checked ++ formatted ++ [fastbootTxPrint .fail (cstr "write partition: " ++ env.errorText e)], some e)
      | none => (checked ++ formatted, none)
    | .ok false =>
      if cfg.bareboxUpdate ∧ env.tempname = .barebox ∧ env.handler then
        let events := checked ++ [fastbootTxPrint .info (cstr "This is a barebox image..."), .op .readFile env.readFile]
        match env.readFile with
        | some e => (events ++ [fastbootTxPrint .fail (cstr "reading barebox")], some e)
        | none =>
          let events := events ++ [.op .bareboxUpdate env.bareboxUpdate]
          match env.bareboxUpdate with
          | some e => (events ++ [fastbootTxPrint .fail (cstr "update barebox: " ++ env.errorText e)], some e)
          | none => (events, none)
      else
        let events := checked ++ [.op .copyFile env.copyFile]
        match env.copyFile with
        | some e => (events ++ [fastbootTxPrint .fail (cstr "write partition: " ++ env.errorText e)], some e)
        | none => (events, none)

/-- `cb_flash` up to `out` -/
def flashFile (cfg : Config) (fb : Fb) (env : Env) (cmd : Bytes) : List Event × Option Errno :=
  match fb.files.find? fun e => e.name = cmd with
  | none => ([fastbootTxPrint .fail (cstr "No such partition: " ++ cmd)], some .ENOENT)
  | some entry => flashEntry cfg env entry

def cbFlash (cfg : Config) (fb : Fb) (env : Env) (cmd : Bytes) : List Event :=
  let (events, ret) := flashFile cfg fb env cmd
  fastbootTxPrint .info (cstr "Copying file to " ++ cmd ++ cstr "...") ::
    (events ++ if ret = none then [fastbootTxPrint .okay []] else [])

/-! ## Commands -/

/-- `fb_run_command`: the first command that the text begins with; else -/
def fbRunCommand (cmds : List (Bytes × (Bytes → List Event))) (cmdbuf : Bytes) : List Event :=
  match cmds.find? fun c => c.1.isPrefixOf cmdbuf with
  | some (cmd, cb) => cb (cmdbuf.drop cmd.length)
  | none => [fastbootTxPrint .fail (cstr "unknown command " ++ cmdbuf)]

def cbOem (cfg : Config) (env : Env) (cmd : Bytes) : List Event :=
  fbRunCommand [(cstr "getenv ", cbOemGetenv env), (cstr "setenv ", cbOemSetenv env),
    (cstr "exec ", fun _ => cbOemExec cfg env)] cmd

def cmdDispatchInfo (cfg : Config) (fb : Fb) (env : Env) : List (Bytes × (Bytes → List Event)) :=
  [(cstr "reboot", fun _ => cbReboot), (cstr "getvar:", cbGetvar fb env),
      (cstr "download:", cbDownload cfg env)]
    ++ (if cfg.bootm then [(cstr "boot", fun _ => cbBoot env)] else [])
    ++ [(cstr "flash:", cbFlash cfg fb env), (cstr "erase:", cbErase fb env)]
    ++ (if cfg.oem then [(cstr "oem ", cbOem cfg env)] else [])

def fastbootExecCmd (cfg : Config) (fb : Fb) (env : Env) (cmdbuf : Bytes) : List Event :=
  fbRunCommand (cmdDispatchInfo cfg fb env) cmdbuf

end Barebox.Fastboot
