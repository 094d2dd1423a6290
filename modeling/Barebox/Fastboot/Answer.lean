import Barebox.Fastboot.Model

/-!
# One answer for each command

The host waits for one message that is not `INFO`. `exec_cmd_iff` says for which commands
and outcomes there is one, at the end, and `OKAY` only if all went well: always, except for

- `erase` of a file that cannot be opened: it is answered twice;
- `flash` of a sparse image that `check_ubi` refuses: it is answered twice;
- `flash` of a sparse image, when a range is not discarded: `OKAY` all the same;
- `flash` of a UBI image, when the MTD device is gone after `check_ubi` has seen it;
- `getvar` and `oem getenv` of a value that asks `vsnprintf` for an argument;
- `boot` and `oem exec` of what shuts barebox down and returns, or does neither.
-/

namespace Barebox.Fastboot

open Lib List

/-! ## What is expected -/

def Event.type? : Event → Option MsgType
  | .msg type _ => some type
  | .op _ _ => none
  | .undefined => none

def messages (l : List Event) : List MsgType := l.filterMap Event.type?

/-- All that was done succeeded. -/
def AllOk (l : List Event) : Prop := ∀ what result, .op what result ∈ l → result = none

/-- One final message, which is the last one, and is `OKAY` only if all went well. All that was
done is defined. -/
def Answered (l : List Event) : Prop :=
  .undefined ∉ l ∧ ∃ infos final, messages l = infos ++ [final] ∧ (∀ t ∈ infos, t = .info) ∧ final ≠ .info
    ∧ (final = .okay → AllOk l)

/-! ## What it takes -/

/-- Barebox is shut down, or the command returns. -/
def Started.Either (started : Started) : Prop := started.shutdown = started.ret.isNone

/-- A UBI image and a device for it, where one is wanted -/
def UbiImage (cfg : Config) (entry : FileListEntry) (filetype : Filetype) (mtd : Option Errno) : Prop :=
  entry.flagUbi = true → cfg.ubiformat = true ∧ mtd = none ∧ filetype = .ubi

/-- `check_ubi` has nothing against a chunk, if it looks at it. -/
def Chunk.Checked (cfg : Config) (entry : FileListEntry) : Chunk → Prop
  | .error _ => True
  | .data pos filetype mtd _ _ _ _ _ => pos = 0 → UbiImage cfg entry filetype mtd

/-- A chunk is read and written. -/
def Chunk.Written (cfg : Config) (entry : FileListEntry) : Chunk → Prop
  | .error _ => False
  | .data pos filetype mtd ubiformat ubiformatWrite _ seek write =>
    if entry.flagUbi then
      cfg.ubiformat = true ∧ (pos = 0 → mtd = none ∧ filetype = .ubi ∧ ubiformat = none) ∧ ubiformatWrite = none
    else seek = none ∧ write = none

/-- What was there before is discarded. -/
def Chunk.Discarded (entry : FileListEntry) : Chunk → Prop
  | .error _ => True
  | .data _ _ _ _ _ discard _ _ => entry.flagUbi = false → discard = none

/-- The chunks are checked, up to the first that is not written. -/
def AllChecked (cfg : Config) (entry : FileListEntry) : List Chunk → Prop
  | [] => True
  | chunk :: chunks => chunk.Checked cfg entry ∧ (chunk.Written cfg entry → AllChecked cfg entry chunks)

/-- What is done before the loop -/
def sparseOps (env : Env) : List (Op × Option Errno) :=
  [(.openFile, env.openFile), (.fstat, env.fstat), (.sparseImageOpen, env.sparseImageOpen)]
    ++ (if env.isRegular then [(.ftruncate, env.ftruncate)] else []) ++ [(.malloc, env.malloc)]

/-- A sparse image whose loop is reached: nothing is refused by `check_ubi`, and if all is written
then all was discarded. -/
def SparseServes (cfg : Config) (env : Env) (entry : FileListEntry) : Prop :=
  (env.stat = none ∨ entry.flagCreate = true) → (∀ o ∈ sparseOps env, o.2 = none) →
    (entry.flagUbi = true → env.sparseMtd = none) → AllChecked cfg entry env.chunks
      ∧ ((∀ chunk ∈ env.chunks, chunk.Written cfg entry) → ∀ chunk ∈ env.chunks, chunk.Discarded entry)

/-- What `flash` needs of the partition. -/
def FlashServes (cfg : Config) (env : Env) (entry : FileListEntry) : Prop :=
  if env.tempname = .androidSparse then cfg.sparse = true → SparseServes cfg env entry
  else entry.flagUbi = true → UbiImage cfg entry env.tempname env.checkMtd → env.flashMtd = none

/-- The condition of the command that is run -/
def needed (needs : List (Bytes × (Bytes → Prop))) (cmdbuf : Bytes) : Prop :=
  match needs.find? fun c => c.1.isPrefixOf cmdbuf with
  | some (cmd, need) => need (cmdbuf.drop cmd.length)
  | none => True

/-- What each of the `oem` commands needs -/
def oemNeeds (cfg : Config) (env : Env) : List (Bytes × (Bytes → Prop)) :=
  [(cstr "getenv ", fun cmd => takesArgument ((env.getenv cmd).getD []) = false),
    (cstr "setenv ", fun _ => True),
    (cstr "exec ", fun _ => cfg.commandSupport = true → env.runCommand.Either)]

/-- What each command needs -/
def commandNeeds (cfg : Config) (fb : Fb) (env : Env) : List (Bytes × (Bytes → Prop)) :=
  [(cstr "reboot", fun _ => True),
      (cstr "getvar:", fun cmd => cmd.isPrefixOf (cstr "all") = false →
        ∀ v, (fb.vars.find? fun v => v.1 = cmd) = some v → takesArgument v.2 = false),
      (cstr "download:", fun _ => True)]
    ++ (if cfg.bootm then [(cstr "boot", fun _ => env.bootmBoot.Either)] else [])
    ++ [(cstr "flash:", fun cmd => ∀ entry, (fb.files.find? fun e => e.name = cmd) = some entry →
        FlashServes cfg env entry),
      (cstr "erase:", fun cmd => ∀ entry, (fb.files.find? fun e => e.name = cmd) = some entry →
        env.openFile = none)]
    ++ (if cfg.oem then [(cstr "oem ", needed (oemNeeds cfg env))] else [])

/-! ## Messages -/

/-- Nothing but `INFO`, and nothing that is not defined -/
def Quiet (l : List Event) : Prop := .undefined ∉ l ∧ ∀ t ∈ messages l, t = .info

theorem messages_append (l l' : List Event) : messages (l ++ l') = messages l ++ messages l' :=
  filterMap_append

@[simp] theorem quiet_nil : Quiet [] := ⟨nofun, nofun⟩

variable {l : List Event} {type : MsgType} {text : Bytes} {l' : List Event}

/-- Quiet is said of each event, so it goes through an append. -/
@[simp] theorem quiet_append : Quiet (l ++ l') ↔ Quiet l ∧ Quiet l' := by
  unfold Quiet
  rw [messages_append, forall_mem_append, mem_append, not_or]
  exact and_and_and_comm

variable {result : Option Errno}

@[simp] theorem quiet_op {what : Op} : Quiet (.op what result :: l) ↔ Quiet l := by
  simp [Quiet, messages, Event.type?]

@[simp] theorem quiet_undefined : ¬ Quiet (.undefined :: l) := fun h => h.1 mem_cons_self

/-- Of the messages only `INFO` may come before the answer. -/
@[simp] theorem quiet_msg : Quiet (fastbootTxPrint type text :: l) ↔ type = .info ∧ Quiet l := by
  simp [Quiet, messages, Event.type?, fastbootTxPrint, and_left_comm]

@[simp] theorem allOk_nil : AllOk [] := nofun

@[simp] theorem allOk_append : AllOk (l ++ l') ↔ AllOk l ∧ AllOk l' := by
  unfold AllOk
  simp only [mem_append, or_imp, forall_and]

/-- An operation counts by its result. -/
@[simp] theorem allOk_op {what : Op} :
    AllOk (.op what result :: l) ↔ result = none ∧ AllOk l := by
  simp [AllOk, or_imp, forall_and]

@[simp] theorem allOk_msg : AllOk (fastbootTxPrint type text :: l) ↔ AllOk l := by
  unfold AllOk fastbootTxPrint
  simp only [mem_cons, reduceCtorEq, false_or]

/-- A final message, behind some others -/
theorem answered_concat (htype : type ≠ .info) :
    Answered (l ++ [fastbootTxPrint type text]) ↔ Quiet l ∧ (type = .okay → AllOk l) := by
  have hmessages : messages (l ++ [fastbootTxPrint type text]) = messages l ++ [type] := messages_append ..
  have hops : AllOk (l ++ [fastbootTxPrint type text]) ↔ AllOk l := by simp
  have hundefined : .undefined ∈ l ++ [fastbootTxPrint type text] ↔ .undefined ∈ l := by simp [fastbootTxPrint]
  unfold Answered
  rw [hmessages, hops, hundefined]
  constructor
  · rintro ⟨hdef, infos, final, heq, hinfos, _, hok⟩
    obtain ⟨rfl, hfinal⟩ := append_inj' heq rfl
    obtain rfl := (List.cons.inj hfinal).1
    exact ⟨⟨hdef, hinfos⟩, hok⟩
  · rintro ⟨⟨hdef, hquiet⟩, hok⟩
    exact ⟨hdef, messages l, type, rfl, hquiet, htype, hok⟩

/-- `FAIL` is an answer whatever was done before, … -/
theorem answered_fail : Answered (l ++ [fastbootTxPrint .fail text]) ↔ Quiet l :=
  (answered_concat (by decide)).trans (and_iff_left nofun)

/-- … and `OKAY` is one only if all of it succeeded. -/
theorem answered_okay : Answered (l ++ [fastbootTxPrint .okay text]) ↔ Quiet l ∧ AllOk l :=
  (answered_concat (by decide)).trans (and_congr_right fun _ => forall_prop_of_true rfl)

/-- Nothing was done before. -/
theorem answered_one (htype : type ≠ .info) : Answered [fastbootTxPrint type text] :=
  (@answered_concat [] type text htype).mpr ⟨quiet_nil, fun _ => allOk_nil⟩

/-- `INFO` before it changes nothing. -/
theorem answered_info : Answered (fastbootTxPrint .info text :: l) ↔ Answered l := by
  have hops : AllOk (fastbootTxPrint .info text :: l) ↔ AllOk l := allOk_msg
  have hmessages : messages (fastbootTxPrint .info text :: l) = .info :: messages l := rfl
  have hundefined : .undefined ∈ fastbootTxPrint .info text :: l ↔ .undefined ∈ l := by simp [fastbootTxPrint]
  unfold Answered
  rw [hmessages, hops, hundefined]
  refine and_congr_right fun _ => ⟨?_, ?_⟩
  · rintro ⟨infos, final, heq, hinfos, hfinal, hok⟩
    cases infos with
    | nil =>
      obtain rfl := (List.cons.inj heq).1
      exact absurd rfl hfinal
    | cons t infos =>
      exact ⟨infos, final, (List.cons.inj heq).2, fun t ht => hinfos t (mem_cons_of_mem _ ht), hfinal, hok⟩
  · rintro ⟨infos, final, heq, hinfos, hfinal, hok⟩
    exact ⟨.info :: infos, final, by rw [heq]; rfl, forall_mem_cons.mpr ⟨rfl, hinfos⟩, hfinal, hok⟩

/-- Without a message there is no answer. -/
theorem not_answered_nil : ¬ Answered [] := by
  rintro ⟨-, infos, final, heq, -⟩
  nomatch (append_eq_nil_iff.mp heq.symm).2

theorem answered_shutdown : Answered fastbootShutdown := answered_info.mpr (answered_one (by decide))

/-- What has started something is answered once if it does one thing of two. -/
theorem answered_started_iff {started : Started} {answer : Int → Event}
    (h : ∀ ret, ∃ type text, answer ret = fastbootTxPrint type text ∧ type ≠ .info) :
    Answered (started.events answer) ↔ started.Either := by
  rcases started with ⟨_ | _, _ | ret⟩
  · exact iff_of_false not_answered_nil nofun
  · obtain ⟨type, text, heq, htype⟩ := h ret
    refine iff_of_true ?_ rfl
    show Answered [answer ret]
    rw [heq]
    exact answered_one htype
  · exact iff_of_true answered_shutdown rfl
  · obtain ⟨type, text, heq, htype⟩ := h ret
    refine iff_of_false (fun htwice => ?_) nofun
    change Answered (fastbootShutdown ++ [answer ret]) at htwice
    rw [heq, answered_concat htype] at htwice
    simpa [fastbootShutdown] using htwice.1

/-- A text for a format -/
theorem quiet_txFormat {env : Env} : Quiet (env.txFormat .info text :: l) ↔ takesArgument text = false ∧ Quiet l := by
  unfold Env.txFormat
  cases takesArgument text with
  | true => exact iff_of_false quiet_undefined nofun
  | false => simp

/-! ## Simple commands -/

/-- `getvar` hands the value of a variable to `vsnprintf` as its format: it answers unless the
value asks for an argument there. A prefix of "all" lists the variables, which are arguments
themselves. -/
theorem answered_getvar_iff (fb : Fb) (env : Env) (cmd : Bytes) : Answered (cbGetvar fb env cmd)
    ↔ (cmd.isPrefixOf (cstr "all") = false →
      ∀ v, (fb.vars.find? fun v => v.1 = cmd) = some v → takesArgument v.2 = false) := by
  unfold cbGetvar
  cases cmd.isPrefixOf (cstr "all") with
  | true =>
    refine iff_of_true (answered_okay.mpr ?_) nofun
    induction fb.vars with
    | nil => exact ⟨quiet_nil, allOk_nil⟩
    | cons v rest ih =>
      rw [map_cons, quiet_msg, allOk_msg]
      exact ⟨⟨rfl, ih.1⟩, ih.2⟩
  | false =>
    cases fb.vars.find? fun v => v.1 = cmd with
    | none => exact iff_of_true (answered_one (by decide)) fun _ => nofun
    | some v =>
      dsimp only
      unfold Env.txFormat
      cases harg : takesArgument v.2 with
      | true => exact iff_of_false (fun h => h.1 mem_cons_self) fun h => nomatch harg.symm.trans (h rfl v rfl)
      | false => exact iff_of_true (answered_one (by decide)) fun _ _ heq => Option.some.inj heq ▸ harg

/-- `download` answers with `DATA`, or with `FAIL` if there is no file or no room for it. -/
theorem answered_download (cfg : Config) (env : Env) (cmd : Bytes) : Answered (cbDownload cfg env cmd) := by
  unfold cbDownload
  rw [answered_info]
  cases env.openFile with
  | some e => exact (@answered_fail [.op .openFile (some e)] _).mpr (by simp)
  | none =>
    dsimp only
    split
    next => exact (@answered_fail [.op .openFile none] _).mpr (by simp)
    next => exact (@answered_concat [.op .openFile none] .data _ (by decide)).mpr (by simp)

/-- `boot` is answered once if what it starts shuts barebox down, or returns, and not both. -/
theorem answered_boot_iff (env : Env) : Answered (cbBoot env) ↔ env.bootmBoot.Either := by
  unfold cbBoot
  rw [answered_info]
  refine answered_started_iff fun ret => ?_
  split <;> exact ⟨_, _, rfl, by decide⟩

/-- `oem getenv` uses a value of the environment as a format in the same way. -/
theorem answered_getenv_iff (env : Env) (cmd : Bytes) :
    Answered (cbOemGetenv env cmd) ↔ takesArgument ((env.getenv cmd).getD []) = false := by
  refine (@answered_okay [env.txFormat .info ((env.getenv cmd).getD [])] _).trans ?_
  rw [quiet_txFormat, and_iff_left quiet_nil]
  refine and_iff_left_of_imp fun hnone => ?_
  rw [Env.txFormat, hnone]
  simp

/-- `oem setenv` answers for every text, with or without an equals sign. -/
theorem answered_setenv (env : Env) (cmd : Bytes) : Answered (cbOemSetenv env cmd) := by
  unfold cbOemSetenv
  split
  next => split <;> exact answered_one (by decide)
  next => exact answered_one (by decide)

/-- `oem exec` answers by the return code of the command, if there are commands at all. -/
theorem answered_exec_iff (cfg : Config) (env : Env) :
    Answered (cbOemExec cfg env) ↔ (cfg.commandSupport = true → env.runCommand.Either) := by
  unfold cbOemExec
  cases cfg.commandSupport with
  | false => exact iff_of_true (answered_one (by decide)) nofun
  | true =>
    rw [forall_prop_of_true rfl]
    refine answered_started_iff fun ret => ?_
    split
    next => exact ⟨_, _, rfl, by decide⟩
    next => split <;> exact ⟨_, _, rfl, by decide⟩

/-- A file that cannot be opened is answered twice. -/
theorem answered_erase_iff (fb : Fb) (env : Env) (cmd : Bytes) : Answered (cbErase fb env cmd)
    ↔ ∀ entry, (fb.files.find? fun e => e.name = cmd) = some entry → env.openFile = none := by
  unfold cbErase
  rw [answered_info]
  cases fb.files.find? fun e => e.name = cmd with
  | none => exact iff_of_true (answered_one (by decide)) nofun
  | some entry =>
    cases env.openFile with
    | some e =>
      refine iff_of_false (fun h => ?_) fun h => nomatch h entry rfl
      have htwice := (@answered_fail
        [.op .openFile (some e), fastbootTxPrint .fail (env.errorText e), .op .erase (some .EBADF)] _).mp h
      simp at htwice
    | none =>
      refine iff_of_true ?_ fun _ _ => rfl
      cases env.erase with
      | some e => exact (@answered_fail [.op .openFile none, .op .erase (some e)] _).mpr (by simp)
      | none => exact (@answered_okay [.op .openFile none, .op .erase none] _).mpr (by simp)

/-! ## Flashing -/

/-- Nothing was said before the answer is given. -/
def Unanswered (p : List Event × Option Errno) : Prop := Quiet p.1 ∧ (p.2 = none → AllOk p.1)

/-- `check_ubi` says itself what it refuses. -/
theorem checkUbi_cases (cfg : Config) (env : Env) (entry : FileListEntry) (filetype : Filetype) (mtd : Option Errno) :
    (∃ e text, checkUbi cfg env entry filetype mtd = ([fastbootTxPrint .fail text], .error e)
        ∧ ¬ UbiImage cfg entry filetype mtd)
      ∨ ∃ l, checkUbi cfg env entry filetype mtd = (l, .ok entry.flagUbi) ∧ Quiet l ∧ AllOk l
        ∧ UbiImage cfg entry filetype mtd := by
  unfold checkUbi UbiImage
  cases hflag : entry.flagUbi with
  | false =>
    refine Or.inr ?_
    split
    next => exact ⟨_, rfl, by simp, by simp, nofun⟩
    next => exact ⟨[], rfl, by simp, by simp, nofun⟩
  | true =>
    rw [if_neg (fun h => nomatch h.2.2), if_neg (by decide)]
    cases hubi : cfg.ubiformat with
    | false => exact Or.inl ⟨_, _, rfl, fun h => nomatch (h rfl).1⟩
    | true =>
      rw [if_neg (by decide)]
      by_cases hmtd : mtd = none
      · rw [if_neg (not_not_intro hmtd)]
        split
        next htype => exact Or.inr ⟨_, rfl, by simp, by simp, fun _ => ⟨rfl, hmtd, htype⟩⟩
        next htype => exact Or.inl ⟨_, _, rfl, fun h => htype (h rfl).2.2⟩
      · rw [if_pos hmtd]
        exact Or.inl ⟨_, _, rfl, fun h => hmtd (h rfl).2.1⟩

/-- Nothing is said while data is written; what fails is the result, except for `discard_range`. -/
theorem writeData_spec (cfg : Config) (entry : FileListEntry) (pos : Nat)
    (ubiformat ubiformatWrite discard seek write : Option Errno) :
    let w := writeData cfg entry pos ubiformat ubiformatWrite discard seek write
    Quiet w.1
      ∧ (w.2 = none
        ↔ if entry.flagUbi then cfg.ubiformat = true ∧ (pos = 0 → ubiformat = none) ∧ ubiformatWrite = none
          else seek = none ∧ write = none)
      ∧ (w.2 = none → (AllOk w.1 ↔ (entry.flagUbi = false → discard = none))) := by
  unfold writeData doUbiformat
  cases entry.flagUbi with
  | true =>
    cases cfg.ubiformat with
    | false => simp
    | true =>
      by_cases hpos : pos = 0
      · cases ubiformat with
        | none => simp [hpos]
        | some e => simp [hpos]
      · simp [hpos]
  | false =>
    cases seek with
    | none => simp +contextual [and_comm]
    | some e => simp

section

variable {cfg : Config} {env : Env} {entry : FileListEntry}

/-- A turn: what is said, whether the loop goes on, and whether all of it went well then. -/
theorem sparseTurn_spec (chunk : Chunk) : (Quiet (sparseTurn cfg env entry chunk).1 ↔ chunk.Checked cfg entry)
    ∧ ((sparseTurn cfg env entry chunk).2 = none ↔ chunk.Written cfg entry)
    ∧ ((sparseTurn cfg env entry chunk).2 = none →
      (AllOk (sparseTurn cfg env entry chunk).1 ↔ chunk.Discarded entry)) := by
  cases chunk with
  | error e => exact ⟨iff_of_true (by simp [sparseTurn]) trivial, iff_of_false nofun id, nofun⟩
  | data pos filetype mtd ubiformat ubiformatWrite discard seek write =>
    obtain ⟨hquiet, hdone, hok⟩ := writeData_spec cfg entry pos ubiformat ubiformatWrite discard seek write
    -- the check is made at the beginning only
    have hcheck : (∃ e text, (if pos = 0 then checkUbi cfg env entry filetype mtd else ([], .ok false))
          = ([fastbootTxPrint .fail text], .error e) ∧ ¬ (pos = 0 → UbiImage cfg entry filetype mtd))
        ∨ ∃ l b, (if pos = 0 then checkUbi cfg env entry filetype mtd else ([], .ok false)) = (l, .ok b)
          ∧ Quiet l ∧ AllOk l ∧ (pos = 0 → UbiImage cfg entry filetype mtd) := by
      split
      next hpos =>
        rcases checkUbi_cases cfg env entry filetype mtd with ⟨e, text, heq, hbad⟩ | ⟨l, heq, hquiet, hok, hgood⟩
        · exact Or.inl ⟨e, text, heq, fun h => hbad (h hpos)⟩
        · exact Or.inr ⟨l, _, heq, hquiet, hok, fun _ => hgood⟩
      next hpos => exact Or.inr ⟨[], false, rfl, quiet_nil, allOk_nil, fun h => absurd h hpos⟩
    rw [sparseTurn]
    rcases hcheck with ⟨e, text, heq, hbad⟩ | ⟨l, b, heq, hl, hlok, hgood⟩
    · rw [heq]
      refine ⟨iff_of_false (by simp) hbad, iff_of_false nofun fun hwritten => hbad fun hpos hflag => ?_, nofun⟩
      rw [Chunk.Written, if_pos hflag] at hwritten
      exact ⟨hwritten.1, (hwritten.2.1 hpos).1, (hwritten.2.1 hpos).2.1⟩
    · rw [heq]
      refine ⟨iff_of_true (by simp [hl, hquiet]) hgood, hdone.trans ?_, fun hnone => ?_⟩
      · rw [Chunk.Written]
        split
        next hflag =>
          refine and_congr_right fun hubi => and_congr_left fun _ => forall_congr' fun hpos => ?_
          exact ⟨fun h => ⟨(hgood hpos hflag).2.1, (hgood hpos hflag).2.2, h⟩, fun h => h.2.2⟩
        next => exact Iff.rfl
      · simpa [hlok, Chunk.Discarded] using hok hnone

/-- The loop over the chunks. -/
theorem sparseLoop_spec (chunks : List Chunk) :
    (Quiet (sparseLoop cfg env entry chunks).1 ↔ AllChecked cfg entry chunks)
      ∧ ((sparseLoop cfg env entry chunks).2 = none ↔ ∀ chunk ∈ chunks, chunk.Written cfg entry)
      ∧ ((sparseLoop cfg env entry chunks).2 = none →
        (AllOk (sparseLoop cfg env entry chunks).1 ↔ ∀ chunk ∈ chunks, chunk.Discarded entry)) := by
  induction chunks with
  | nil =>
    rw [sparseLoop, AllChecked]
    simp
  | cons chunk chunks ih =>
    obtain ⟨hquiet, hdone, hok⟩ := @sparseTurn_spec cfg env entry chunk
    rw [sparseLoop, AllChecked, forall_mem_cons, forall_mem_cons]
    revert hquiet hdone hok
    rcases sparseTurn cfg env entry chunk with ⟨done, _ | e⟩
    · intro hquiet hdone hok
      have hwritten := hdone.mp rfl
      rw [quiet_append, allOk_append, hquiet, hok rfl, ih.1, ih.2.1, and_iff_right hwritten,
        forall_prop_of_true hwritten]
      exact ⟨Iff.rfl, Iff.rfl, fun hnone => and_congr_right fun _ => ih.2.2 (ih.2.1.mpr hnone)⟩
    · intro hquiet hdone hok
      have hstop : ¬ chunk.Written cfg entry := fun h => nomatch hdone.mpr h
      exact ⟨hquiet.trans ⟨fun h => ⟨h, fun h' => absurd h' hstop⟩, And.left⟩,
        iff_of_false nofun fun h => hstop h.1, nofun⟩

/-- Operations before the rest say nothing. -/
theorem attempt_unanswered (rest : List Event × Option Errno) (ops : List (Op × Option Errno)) :
    Unanswered (attempt ops rest) ↔ ((∀ o ∈ ops, o.2 = none) → Unanswered rest) := by
  induction ops with
  | nil => exact ⟨fun h _ => h, fun h => h nofun⟩
  | cons o ops ih =>
    obtain ⟨what, result⟩ := o
    rw [forall_mem_cons]
    cases result with
    | some e => exact iff_of_true ⟨by simp [attempt], nofun⟩ fun h => nomatch h.1
    | none =>
      have hcons : Unanswered (attempt ((what, none) :: ops) rest) ↔ Unanswered (attempt ops rest) := by
        unfold Unanswered
        rw [attempt]
        simp
      rw [hcons, ih]
      exact ⟨fun h h' => h h'.2, fun h h' => h ⟨rfl, h'⟩⟩

/-- The loop over the chunks leaves the answer to `cb_flash` just if the image is one that is
served. -/
theorem handleSparse_unanswered : Unanswered (fastbootHandleSparse cfg env entry) ↔ SparseServes cfg env entry := by
  unfold fastbootHandleSparse SparseServes
  by_cases hstat : env.stat ≠ none ∧ (!entry.flagCreate) = true
  · rw [if_pos hstat]
    refine iff_of_true ⟨quiet_nil, fun _ => allOk_nil⟩ fun h => ?_
    rcases h with hnone | hcreate
    · exact absurd hnone hstat.1
    · rw [hcreate] at hstat
      exact nomatch hstat.2
  · have hthere : env.stat = none ∨ entry.flagCreate = true := by
      cases hcreate : entry.flagCreate with
      | true => exact Or.inr rfl
      | false => exact Or.inl (Classical.byContradiction fun hne => hstat ⟨hne, by rw [hcreate]; rfl⟩)
    rw [if_neg hstat, forall_prop_of_true hthere]
    refine (attempt_unanswered _ (sparseOps env)).trans (imp_congr_right fun _ => ?_)
    by_cases hmtd : entry.flagUbi = true ∧ env.sparseMtd ≠ none
    · rw [if_pos hmtd]
      exact iff_of_true ⟨quiet_nil, fun _ => allOk_nil⟩ fun h => absurd (h hmtd.1) hmtd.2
    · have hmtd' : entry.flagUbi = true → env.sparseMtd = none :=
        fun hflag => Classical.byContradiction fun hne => hmtd ⟨hflag, hne⟩
      obtain ⟨hquiet, hdone, hok⟩ := @sparseLoop_spec cfg env entry env.chunks
      rw [if_neg hmtd, forall_prop_of_true hmtd']
      unfold Unanswered
      rw [hquiet, ← hdone]
      exact and_congr_right fun _ => imp_congr_right hok

/-- What `cb_flash` has said before `out` -/
def Flashed (p : List Event × Option Errno) : Prop :=
  match p.2 with
  | none => Quiet p.1 ∧ AllOk p.1
  | some _ => ∃ l text, p.1 = l ++ [fastbootTxPrint .fail text] ∧ Quiet l

/-- Other images than sparse ones, on a device that is still there -/
theorem flashEntry_flashed (htype : env.tempname ≠ .androidSparse)
    (hmtd : entry.flagUbi = true → UbiImage cfg entry env.tempname env.checkMtd → env.flashMtd = none) :
    Flashed (flashEntry cfg env entry) := by
  unfold flashEntry
  rw [if_neg htype]
  -- refused with a text, or all that was said so far is quiet
  rcases checkUbi_cases cfg env entry env.tempname env.checkMtd with ⟨e, text, heq, _⟩ | ⟨l, heq, hquiet, hok, hubi⟩
  · rw [heq]
    exact ⟨[], text, rfl, quiet_nil⟩
  rw [heq]
  cases hflag : entry.flagUbi with
  | true =>
    have hformat : doUbiformat cfg env.flashMtd env.ubiformat = ([.op .ubiformat env.ubiformat], env.ubiformat) := by
      unfold doUbiformat
      rw [(hubi hflag).1, hmtd hflag hubi]
      rfl
    rw [hformat]
    cases env.ubiformat with
    | some e => exact ⟨_, _, rfl, by simp [hquiet]⟩
    | none => exact ⟨by simp [hquiet], by simp [hok]⟩
  | false =>
    dsimp only
    split
    next =>
      cases env.readFile with
      | some e => exact ⟨_, _, rfl, by simp [hquiet]⟩
      | none =>
        cases env.bareboxUpdate with
        | some e => exact ⟨_, _, rfl, by simp [hquiet]⟩
        | none => exact ⟨by simp [hquiet], by simp [hok]⟩
    next =>
    cases env.copyFile with
    | some e => exact ⟨_, _, rfl, by simp [hquiet]⟩
    | none => exact ⟨by simp [hquiet], by simp [hok]⟩

/-- A device that is gone is formatted all the same. -/
theorem flashEntry_undefined (htype : env.tempname ≠ .androidSparse) (hflag : entry.flagUbi = true)
    (hubi : UbiImage cfg entry env.tempname env.checkMtd) (hmtd : env.flashMtd ≠ none) :
    .undefined ∈ (flashEntry cfg env entry).1 := by
  unfold flashEntry
  rw [if_neg htype]
  rcases checkUbi_cases cfg env entry env.tempname env.checkMtd with ⟨_, _, _, hbad⟩ | ⟨l, heq, -⟩
  · exact absurd hubi hbad
  have hformat : doUbiformat cfg env.flashMtd env.ubiformat = ([.undefined], env.ubiformat) := by
    unfold doUbiformat
    rw [(hubi hflag).1, if_neg (by decide), if_pos hmtd]
  rw [heq, hflag]
  rw [hformat]
  cases env.ubiformat <;> simp

/-- At `out` -/
theorem answered_of_flashed {p : List Event × Option Errno} (h : Flashed p) :
    Answered (p.1 ++ if p.2 = none then [fastbootTxPrint .okay []] else []) := by
  obtain ⟨events, ret⟩ := p
  cases ret with
  | none => exact answered_okay.mpr h
  | some e =>
    obtain ⟨l, text, rfl, hquiet⟩ := h
    rw [if_neg nofun, append_nil]
    exact answered_fail.mpr hquiet

/-- One partition: what its handler has said and the OKAY that `cb_flash` puts behind it on
success. -/
theorem answered_flashEntry_iff :
    Answered ((flashEntry cfg env entry).1 ++ if (flashEntry cfg env entry).2 = none then [fastbootTxPrint .okay []] else [])
      ↔ FlashServes cfg env entry := by
  unfold FlashServes
  by_cases htype : env.tempname = .androidSparse
  · rw [if_pos htype]
    cases hsparse : cfg.sparse with
    | false =>
      refine iff_of_true (answered_of_flashed ?_) nofun
      unfold flashEntry
      rw [if_pos htype, hsparse]
      exact ⟨[], _, rfl, quiet_nil⟩
    | true =>
      rw [forall_prop_of_true rfl, ← handleSparse_unanswered]
      unfold flashEntry
      rw [if_pos htype, hsparse, if_neg (by decide)]
      rcases fastbootHandleSparse cfg env entry with ⟨events, _ | e⟩
      · exact answered_okay.trans ⟨fun h => ⟨h.1, fun _ => h.2⟩, fun h => ⟨h.1, h.2 rfl⟩⟩
      · rw [if_neg nofun, append_nil]
        exact answered_fail.trans ⟨fun h => ⟨h, nofun⟩, And.left⟩
  · rw [if_neg htype]
    refine ⟨fun h hflag hubi => ?_, fun h => answered_of_flashed (flashEntry_flashed htype h)⟩
    by_contra hmtd
    exact h.1 (mem_append_left _ (flashEntry_undefined htype hflag hubi hmtd))

/-- `flash` answers if the partition that is named is one that can be served. A name that is not
there is answered with FAIL. -/
theorem answered_flash_iff (fb : Fb) (cmd : Bytes) : Answered (cbFlash cfg fb env cmd)
    ↔ ∀ entry, (fb.files.find? fun e => e.name = cmd) = some entry → FlashServes cfg env entry := by
  unfold cbFlash
  rw [answered_info]
  unfold flashFile
  cases fb.files.find? fun e => e.name = cmd with
  | none => exact iff_of_true (answered_of_flashed ⟨[], _, rfl, quiet_nil⟩) nofun
  | some entry => exact answered_flashEntry_iff.trans ⟨fun h _ heq => Option.some.inj heq ▸ h, fun h => h entry rfl⟩

end

/-! ## Commands -/

/-- Commands that are answered exactly if what they need is there -/
def Needs (cmds : List (Bytes × (Bytes → List Event))) (needs : List (Bytes × (Bytes → Prop))) : Prop :=
  Forall₂ (fun c n => c.1 = n.1 ∧ ∀ cmd, Answered (c.2 cmd) ↔ n.2 cmd) cmds needs

/-- The first command that the text begins with is the one that is answered. -/
theorem Needs.answered_iff {cmds : List (Bytes × (Bytes → List Event))} {needs : List (Bytes × (Bytes → Prop))}
    (h : Needs cmds needs) (cmdbuf : Bytes) : Answered (fbRunCommand cmds cmdbuf) ↔ needed needs cmdbuf := by
  unfold fbRunCommand needed
  induction h with
  | nil => exact iff_of_true (answered_one (by decide)) trivial
  | @cons c n _ _ hhead _ ih =>
    obtain ⟨name, cb⟩ := c
    obtain ⟨name', need⟩ := n
    obtain ⟨rfl, hiff⟩ := hhead
    rw [find?_cons, find?_cons]
    cases name.isPrefixOf cmdbuf with
    | true => exact hiff _
    | false => exact ih

/-- What the three `oem` commands need, by the table they are looked up in, … -/
theorem oem_needs (cfg : Config) (env : Env) :
    Needs [(cstr "getenv ", cbOemGetenv env), (cstr "setenv ", cbOemSetenv env),
      (cstr "exec ", fun _ => cbOemExec cfg env)] (oemNeeds cfg env) :=
  .cons ⟨rfl, answered_getenv_iff env⟩ <| .cons ⟨rfl, fun cmd => iff_of_true (answered_setenv env cmd) trivial⟩ <|
    .cons ⟨rfl, fun _ => answered_exec_iff cfg env⟩ .nil

/-- … and what the commands need, in the order of the table. -/
theorem command_needs (cfg : Config) (fb : Fb) (env : Env) :
    Needs (cmdDispatchInfo cfg fb env) (commandNeeds cfg fb env) := by
  refine rel_append (rel_append (rel_append ?_ ?_) ?_) ?_
  · exact .cons ⟨rfl, fun _ => iff_of_true (answered_one (by decide)) trivial⟩ <|
      .cons ⟨rfl, answered_getvar_iff fb env⟩ <|
      .cons ⟨rfl, fun cmd => iff_of_true (answered_download cfg env cmd) trivial⟩ .nil
  · cases cfg.bootm with
    | false => exact .nil
    | true => exact .cons ⟨rfl, fun _ => answered_boot_iff env⟩ .nil
  · exact .cons ⟨rfl, answered_flash_iff fb⟩ <| .cons ⟨rfl, answered_erase_iff fb env⟩ .nil
  · cases cfg.oem with
    | false => exact .nil
    | true => exact .cons ⟨rfl, (oem_needs cfg env).answered_iff⟩ .nil

/-- Every command has one answer if and only if it has what it needs. -/
theorem exec_cmd_iff (cfg : Config) (fb : Fb) (env : Env) (cmdbuf : Bytes) :
    Answered (fastbootExecCmd cfg fb env cmdbuf) ↔ needed (commandNeeds cfg fb env) cmdbuf :=
  (command_needs cfg fb env).answered_iff cmdbuf

/-! ## A partition that cannot be opened -/

def onePartition : Fb := ⟨[⟨cstr "root", cstr "/dev/mmc0.root", false, false⟩], []⟩

/-- All else would succeed. -/
def unopened : Env where
  strerror _ := []
  vsnprintf _ := []
  fileTypeToString _ := []
  errno _ := 1
  tempname := .other
  openFile := some .EACCES
  erase := none
  checkMtd := none
  flashMtd := none
  sparseMtd := none
  ubiformat := none
  handler := false
  readFile := none
  bareboxUpdate := none
  copyFile := none
  stat := none
  fstat := none
  isRegular := false
  sparseImageOpen := none
  ftruncate := none
  malloc := none
  chunks := []
  getenv _ := none
  setenv := none
  runCommand := ⟨false, some 0⟩
  bootmBoot := ⟨false, some 0⟩

/-- Everything is configured. -/
def allOn : Config := ⟨.bits32, true, true, true, true, true, true⟩

/-- `erase` answers twice. -/
theorem erase_twice :
    messages (fastbootExecCmd allOn onePartition unopened (cstr "erase:root")) = [.info, .fail, .fail]
      ∧ ¬ Answered (fastbootExecCmd allOn onePartition unopened (cstr "erase:root")) := by
  have hmessages : messages (fastbootExecCmd allOn onePartition unopened (cstr "erase:root")) = [.info, .fail, .fail] := rfl
  refine ⟨hmessages, ?_⟩
  rintro ⟨-, infos, final, heq, hinfos, _⟩
  obtain ⟨rfl, _⟩ := append_inj' (show [MsgType.info, .fail] ++ [.fail] = infos ++ [final] from heq) rfl
  exact nomatch hinfos .fail (mem_cons_of_mem _ (mem_singleton_self _))

end Barebox.Fastboot
