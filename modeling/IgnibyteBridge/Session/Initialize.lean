import IgnibyteBridge.Concurrency.Program
import IgnibyteBridge.Paths
import IgnibyteBridge.Session.Metadata
import IgnibyteBridge.Storage.FileSystem

/-!
# Failing initializations

`initialize_session_files` of `session.rs`, file operation by file operation. In the
programs of the other modules an operation that fails changes nothing else; here
any of them may fail after others have changed the directory.
-/

namespace IgnibyteBridge.Initialize

open Concurrency Storage Fallible Program

/-- The files of a session directory. -/
inductive SessionFile where
  /-- `METADATA`. -/
  | metadata
  /-- `RAW_LOG`. -/
  | rawLog
  /-- `CLEAN_LOG`. -/
  | cleanLog
  /-- A log's `.prev` copy. -/
  | rawPrev
  | cleanPrev
  /-- `SCREEN_SNAPSHOT`. -/
  | screen
  /-- `INPUT_FIFO`. -/
  | inputFifo
  /-- The temp file of `write_atomic`. -/
  | temp
  deriving DecidableEq

/-- The last component of a file's path; the temp file's has two numbers after it. -/
def SessionFile.fileName : SessionFile → String
  | .metadata => "metadata.json"
  | .rawLog => "raw.log"
  | .cleanLog => "clean.log"
  | .rawPrev => "raw.log.prev"
  | .cleanPrev => "clean.log.prev"
  | .screen => "screen.txt"
  | .inputFifo => "input.fifo"
  | .temp => ".metadata.json.tmp"

/-- A path of the operating system. -/
inductive PathText where
  | text (path : String)
  /-- A path that is not valid UTF-8. -/
  | bytes (path : List UInt8)

/-- A path as text. -/
def PathText.toStr : PathText → Option String
  | .text path => some path
  | .bytes _ => none

/-- The outcome of `fs::read_to_string`. -/
inductive Reading where
  | contents (bytes : List UInt8)
  | notFound
  | failed

/-- The file operations. -/
inductive InitAct where
  | readMetadata
  | fifoExists
  | removeFifo
  | mkfifo
  /-- `fs::metadata(path)`, for the length. -/
  | length (file : SessionFile)
  | rename (source target : SessionFile)
  /-- `open` with `O_CREAT` and `O_TRUNC`. -/
  | create (file : SessionFile)
  /-- Whether the mode of an open file grants anything to group or others. -/
  | looseMode (file : SessionFile)
  | setPermissions (file : SessionFile)
  /-- `write_all` to the temp file. -/
  | writeAll (contents : List UInt8)
  | flush
  | removeTemp

/-- What an operation returns. -/
abbrev InitAct.Response : InitAct → Type
  | .readMetadata => Reading
  | .fifoExists => Bool
  | .removeFifo => Bool
  | .mkfifo => Bool
  | .length _ => Option ℕ
  | .rename .. => Bool
  | .create _ => Bool
  | .looseMode _ => Option Bool
  | .setPermissions _ => Bool
  | .writeAll _ => Bool
  | .flush => Bool
  | .removeTemp => Unit

/-- What the code takes from libraries and from its environment. -/
structure Library where
  /-- `bridge_root`. -/
  bridgeRoot : Except String String
  /-- `shell_words::split`. -/
  split : String → Option (List String)
  /-- `serde_json::from_str`, of bytes that need not be text. -/
  fromJson : List UInt8 → Option SessionMetadata
  /-- `serde_json::to_string_pretty`, of a record whose `cwd` is text. -/
  toJson : SessionMetadata → List UInt8

/-- A program that returns a `Result`. -/
abbrev Result (α : Type) := Fallible InitAct InitAct.Response String α

/-- An operation. -/
abbrev call (a : InitAct) : Result a.Response := Fallible.perform a

/-- An error becomes the program's own. -/
def orFail {α : Type} : Except String α → Result α
  | .ok x => pure x
  | .error e => throw e

section Program

variable (lib : Library)

/-- `session_dir`. -/
def sessionDir (name : String) : Except String String :=
  match validateSessionName name with
  | .error e => .error e
  | .ok () => lib.bridgeRoot.map fun root => s!"{root}/sessions/{name}"

/-- `load_metadata`. -/
def loadMetadata (name : String) : Result SessionMetadata := do
  let dir ← orFail (sessionDir lib name)
  match ← call .readMetadata with
  | .notFound => throw s!"no such session '{name}'"
  | .failed => throw s!"failed to read {dir}/{SessionFile.metadata.fileName}"
  | .contents bytes =>
    Fallible.orThrow s!"failed to parse {dir}/{SessionFile.metadata.fileName}" (lib.fromJson bytes)

/-- `rotate_previous_log`. -/
def rotatePreviousLog (dir : String) (log prev : SessionFile) : Result Unit := do
  match ← call (.length log) with
  | some (_ + 1) =>
    Fallible.ensure s!"failed to rotate {dir}/{log.fileName}" (← call (.rename log prev))
  | _ => pure ()

/-- `create_private_file`. -/
def createPrivateFile (dir : String) (file : SessionFile) : Result Unit := do
  Fallible.ensure s!"failed to create {dir}/{file.fileName}" (← call (.create file))
  match ← call (.looseMode file) with
  | none => throw s!"failed to inspect {dir}/{file.fileName}"
  | some false => pure ()
  | some true =>
    Fallible.ensure s!"failed to restrict permissions on {dir}/{file.fileName}"
      (← call (.setPermissions file))

/-- `create_private_file`, whose errors get a context. -/
def createWithContext (dir context : String) (file : SessionFile) : Result Unit := do
  match ← outcome (createPrivateFile dir file) with
  | .ok () => pure ()
  | .error _ => throw context

/-- The closure of `write_atomic`. -/
def writeTemp (dir : String) (contents : List UInt8) : Result Unit := do
  createPrivateFile dir .temp
  Fallible.ensure s!"failed to write {dir}/{SessionFile.temp.fileName}" (← call (.writeAll contents))
  Fallible.ensure s!"failed to flush {dir}/{SessionFile.temp.fileName}" (← call .flush)

/-- `write_atomic` of the record. -/
def writeAtomic (dir : String) (contents : List UInt8) : Result Unit := do
  match ← outcome (writeTemp dir contents) with
  | .error e =>
    call .removeTemp
    throw e
  | .ok () =>
    if ← call (.rename .temp .metadata) then pure ()
    else
      call .removeTemp
      throw s!"failed to replace {dir}/{SessionFile.metadata.fileName}"

/-- `save_metadata` of a session's record. There is none when its `cwd` is not text, which
`serde_json` refuses. -/
def saveMetadata (name : String) (metadata : Option SessionMetadata) : Result Unit := do
  let dir ← orFail (sessionDir lib name)
  let contents ← Fallible.orThrow "failed to serialize metadata" (metadata.map lib.toJson)
  writeAtomic dir contents

/-- The end of `initialize_session_files`, after the FIFO. -/
def createFiles (name dir : String) (metadata : Option SessionMetadata) : Result Unit := do
  rotatePreviousLog dir .rawLog .rawPrev
  rotatePreviousLog dir .cleanLog .cleanPrev
  createWithContext dir "failed to create raw log" .rawLog
  createWithContext dir "failed to create clean log" .cleanLog
  createWithContext dir "failed to create screen snapshot" .screen
  saveMetadata lib name metadata

/-- The part of `initialize_session_files` that replaces the FIFO. -/
def replaceFifo (input : String) : Result Unit := do
  if ← call .fifoExists then
    Fallible.ensure s!"failed to remove {input}" (← call .removeFifo)
  Fallible.ensure s!"failed to create {input}" (← call .mkfifo)

/-- `initialize_session_files`. -/
def initializeSessionFiles (name : String) (cwd : PathText) (cmd : String) (rows cols : Option ℕ) :
    Result ℕ := do
  let dir ← orFail (sessionDir lib name)
  let command ← orFail (parseCommand lib.split cmd)
  let previous ← outcome (loadMetadata lib name)
  let generation := nextGeneration previous.toOption
  replaceFifo s!"{dir}/{SessionFile.inputFifo.fileName}"
  createFiles lib name dir
    (cwd.toStr.map fun cwd => initialMetadata name cwd command generation rows cols)
  pure generation

end Program

/-! ## The directory -/

/-- A point at which the file system can fail. -/
inductive FilePoint where
  | readMetadata
  | fifoExists
  | removeFifo
  | mkfifo
  | length (file : SessionFile)
  | rename (source : SessionFile)
  | create (file : SessionFile)
  | inspect (file : SessionFile)
  | restrict (file : SessionFile)
  | write
  | flush
  | removeTemp

/-- How the file system behaves in one call. -/
structure Faults where
  fails : FilePoint → Bool := fun _ => false
  /-- The files whose mode has to be repaired. -/
  loose : SessionFile → Bool := fun _ => false
  /-- The bytes that a failing write leaves behind. -/
  written : ℕ := 0

/-- The answers of the file system. -/
def Faults.answer (f : Faults) :
    (a : InitAct) → FileSystem SessionFile → a.Response × FileSystem SessionFile
  | .readMetadata, fs =>
    (if f.fails .readMetadata then .failed
      else match fs.read .metadata with
        | some bytes => .contents bytes
        | none => .notFound, fs)
  | .fifoExists, fs => ((fs.entry .inputFifo).isSome && !f.fails .fifoExists, fs)
  | .removeFifo, fs =>
    if (fs.entry .inputFifo).isSome && !f.fails .removeFifo then (true, fs.remove .inputFifo)
    else (false, fs)
  | .mkfifo, fs =>
    if (fs.entry .inputFifo).isNone && !f.fails .mkfifo then (true, fs.create .inputFifo)
    else (false, fs)
  | .length file, fs => (if f.fails (.length file) then none else (fs.read file).map List.length, fs)
  | .rename source target, fs =>
    if (fs.entry source).isSome && !f.fails (.rename source) then (true, fs.rename source target)
    else (false, fs)
  | .create file, fs => if f.fails (.create file) then (false, fs) else (true, fs.create file)
  | .looseMode file, fs => (if f.fails (.inspect file) then none else some (f.loose file), fs)
  | .setPermissions file, fs => (!f.fails (.restrict file), fs)
  | .writeAll contents, fs =>
    let count := if f.fails .write then f.written else contents.length
    (!f.fails .write, fs.write (fs.created .temp) 0 (contents.take count))
  | .flush, fs => (!f.fails .flush, fs)
  | .removeTemp, fs => ((), if f.fails .removeTemp then fs else fs.remove .temp)

/-- `initialize_session_files` in a directory: its result, and the directory it leaves. -/
def initialized (lib : Library) (f : Faults) (name : String) (cwd : PathText) (cmd : String)
    (rows cols : Option ℕ) (fs : FileSystem SessionFile) :
    Except String ℕ × FileSystem SessionFile :=
  (initializeSessionFiles lib name cwd cmd rows cols).run.eval f.answer fs

/-- Every file of the session is the same file with the same contents. -/
def Untouched (before after : FileSystem SessionFile) : Prop :=
  ∀ file ≠ SessionFile.temp, after.entry file = before.entry file ∧
    after.read file = before.read file

/-! ## The steps after the FIFO -/

section Faults

variable (f : Faults)

/-- A private file can be created. -/
def Faults.Creates (file : SessionFile) : Prop :=
  f.fails (.create file) = false ∧ f.fails (.inspect file) = false ∧
    (f.loose file = true → f.fails (.restrict file) = false)

/-- A log that is found to hold something. -/
def Faults.Filled (fs : FileSystem SessionFile) (log : SessionFile) : Prop :=
  f.fails (.length log) = false ∧ ∃ byte bytes, fs.read log = some (byte :: bytes)

/-- A log is not found to hold anything, or it can be renamed. -/
def Faults.Rotates (fs : FileSystem SessionFile) (log : SessionFile) : Prop :=
  f.Filled fs log → f.fails (.rename log) = false

/-- The record can be written. -/
def Faults.Saves (cwd : PathText) : Prop :=
  cwd.toStr.isSome ∧ f.Creates .temp ∧ f.fails .write = false ∧ f.fails .flush = false ∧
    f.fails (.rename .temp) = false

/-- No step after the FIFO fails. -/
def Faults.Completes (fs : FileSystem SessionFile) (cwd : PathText) : Prop :=
  f.Rotates fs .rawLog ∧ f.Rotates fs .cleanLog ∧ f.Creates .rawLog ∧ f.Creates .cleanLog ∧
    f.Creates .screen ∧ f.Saves cwd

end Faults

section Steps

variable {lib : Library} {f : Faults} {fs : FileSystem SessionFile} {dir : String}

/-- The FIFO of a directory is this file. -/
def Fifo (entry : Option ℕ) (fs : FileSystem SessionFile) : Prop := fs.entry .inputFifo = entry

/-- What creating a file leaves true, if it fails at once or later on. -/
theorem decides_createPrivateFile {file : SessionFile} {I : FileSystem SessionFile → Prop}
    (h : f.fails (.create file) = true → I fs) (hcreate : I (fs.create file)) :
    Decides (answering f.answer) (f.Creates file) I (createPrivateFile dir file) fs := by
  unfold createPrivateFile Faults.Creates
  refine decides_answered ?_
  have hanswer : I (f.answer (.create file) fs).2 ∧
      ((f.answer (.create file) fs).1 = true ↔ f.fails (.create file) = false) := by
    cases hfails : f.fails (.create file) with
    | true => simpa [Faults.answer, hfails] using h hfails
    | false => simpa [Faults.answer, hfails] using hcreate
  refine (decides_ensure hanswer.2 hanswer.1).bind (fun _ fs' h => ?_) fun _ => id
  refine decides_answered ?_
  simp only [Faults.answer]
  cases hinspect : f.fails (.inspect file) with
  | true => exact decides_throw (by simp) h
  | false =>
    cases hloose : f.loose file with
    | false => exact decides_pure (by simp) h
    | true =>
      refine decides_answered ?_
      exact decides_ensure (by simp [Faults.answer]) h

/-- Creating a file other than the FIFO succeeds exactly when nothing refuses it, and leaves the
FIFO alone. -/
theorem decides_createWithContext {file : SessionFile} {context : String} {entry : Option ℕ}
    (hfile : file ≠ .inputFifo) (h : Fifo entry fs) :
    Decides (answering f.answer) (f.Creates file) (Fifo entry)
      (createWithContext dir context file) fs := by
  unfold createWithContext
  refine (meets_bind _ _ _ _).mpr ((meets_outcome _ _ _).mpr ?_)
  have hcreate : Fifo entry (fs.create file) := (FileSystem.entry_create_of_ne hfile.symm).trans h
  exact Meets.mono (decides_createPrivateFile (fun _ => h) hcreate) (fun _ _ => id) fun _ _ => id

/-- A log is renamed if there is anything in it, and the files other than the two are left
alone. -/
theorem decides_rotatePreviousLog {log prev : SessionFile} {I : FileSystem SessionFile → Prop}
    (h : I fs) (hrename : I (fs.rename log prev)) :
    Decides (answering f.answer) (f.Rotates fs log) I (rotatePreviousLog dir log prev) fs := by
  unfold rotatePreviousLog Faults.Rotates Faults.Filled
  refine decides_answered ?_
  simp only [Faults.answer]
  cases hlength : f.fails (.length log) with
  | true => exact decides_pure (by simp) h
  | false =>
    cases hread : fs.read log with
    | none => exact decides_pure (by simp) h
    | some bytes =>
      cases bytes with
      | nil => exact decides_pure (by simp) h
      | cons byte bytes =>
        have hentry : (fs.entry log).isSome := by
          unfold FileSystem.read at hread
          cases hentry : fs.entry log with
          | none => simp [hentry] at hread
          | some file => rfl
        refine decides_answered ?_
        cases hfails : f.fails (.rename log) with
        | true =>
          exact decides_ensure (by simp [Faults.answer, hfails])
            (by simpa [Faults.answer, hfails] using h)
        | false =>
          exact decides_ensure (by simp [Faults.answer, hentry, hfails])
            (by simpa [Faults.answer, hentry, hfails] using hrename)

/-- Removing the temporary file leaves the FIFO alone. -/
theorem fifo_removeTemp {entry : Option ℕ} (h : Fifo entry fs) :
    Fifo entry (f.answer .removeTemp fs).2 := by
  change Fifo entry (if f.fails .removeTemp then fs else fs.remove .temp)
  split
  · exact h
  · have hfile : SessionFile.inputFifo ≠ .temp := by decide
    exact (FileSystem.entry_remove_of_ne hfile).trans h

/-- The temp file of a directory is there unless it could not be created. -/
def Faults.Staged (f : Faults) (fs : FileSystem SessionFile) : Prop :=
  f.fails (.create .temp) = false → (fs.entry .temp).isSome

/-- The temporary file is written exactly when neither its creation nor the write nor the flush
fails. -/
theorem decides_writeTemp {contents : List UInt8} {entry : Option ℕ} (h : Fifo entry fs) :
    Decides (answering f.answer)
      (f.Creates .temp ∧ f.fails .write = false ∧ f.fails .flush = false)
      (fun fs => Fifo entry fs ∧ f.Staged fs) (writeTemp dir contents) fs := by
  unfold writeTemp
  have hgone : f.fails (.create .temp) = true → f.Staged fs := by
    intro hfails hfails'
    rw [hfails] at hfails'
    cases hfails'
  have hcreated : f.Staged (fs.create .temp) := by
    intro _
    rw [FileSystem.entry_create_self]
    rfl
  refine Decides.bind (decides_createPrivateFile (fun hfails => ⟨h, hgone hfails⟩)
    ⟨(FileSystem.entry_create_of_ne (by decide)).trans h, hcreated⟩) ?_ fun _ => id
  rintro - fs' hstaged
  refine decides_answered ?_
  refine Decides.bind (decides_ensure ?_ hstaged) (fun _ fs' hstaged => ?_) fun _ => id
  · simp [Faults.answer]
  refine decides_answered ?_
  exact decides_ensure (by simp [Faults.answer]) hstaged

/-- The record is replaced by way of a temp file. -/
theorem decides_writeAtomic {contents : List UInt8} {entry : Option ℕ} (h : Fifo entry fs) :
    Decides (answering f.answer)
      ((f.Creates .temp ∧ f.fails .write = false ∧ f.fails .flush = false) ∧
        f.fails (.rename .temp) = false)
      (Fifo entry) (writeAtomic dir contents) fs := by
  unfold writeAtomic
  refine (meets_bind _ _ _ _).mpr ((meets_outcome _ _ _).mpr
    (Meets.mono (decides_writeTemp h) ?_ ?_))
  · rintro - fs' ⟨hC, hfifo, hstaged⟩
    have hsome : (fs'.entry .temp).isSome := hstaged hC.1.1
    refine decides_answered ?_
    cases hfails : f.fails (.rename .temp) with
    | true =>
      have hanswer : f.answer (.rename .temp .metadata) fs' = (false, fs') := by
        simp [Faults.answer, hfails]
      rw [hanswer]
      exact decides_answered (decides_throw (by simp) (fifo_removeTemp hfifo))
    | false =>
      have hanswer : f.answer (.rename .temp .metadata) fs' =
          (true, fs'.rename .temp .metadata) := by
        simp [Faults.answer, hfails, hsome]
      rw [hanswer]
      exact decides_pure ⟨hC, rfl⟩
        ((FileSystem.entry_rename_of_ne (by decide) (by decide)).trans hfifo)
  · rintro e fs' ⟨hC, hfifo, -⟩
    exact decides_answered (decides_throw (fun h => hC h.1) (fifo_removeTemp hfifo))

/-- A record without text for its `cwd` is not saved. -/
theorem decides_saveMetadata {name : String} {cwd : PathText} {record : String → SessionMetadata}
    {entry : Option ℕ} (hdir : sessionDir lib name = .ok dir) (h : Fifo entry fs) :
    Decides (answering f.answer) (f.Saves cwd) (Fifo entry)
      (saveMetadata lib name (cwd.toStr.map record)) fs := by
  unfold saveMetadata Faults.Saves
  rw [hdir]
  cases hcwd : cwd.toStr with
  | none => exact decides_throw (by simp) h
  | some text =>
    refine Decides.congr (decides_writeAtomic h) ?_
    simp only [Option.isSome_some, true_and, and_assoc]

/-- The steps after the FIFO succeed exactly when none of them fails, and leave the FIFO alone. -/
theorem decides_createFiles {name : String} {cwd : PathText} {record : String → SessionMetadata}
    {entry : Option ℕ} (hdir : sessionDir lib name = .ok dir) (h : Fifo entry fs) :
    Decides (answering f.answer) (f.Completes fs cwd) (Fifo entry)
      (createFiles lib name dir (cwd.toStr.map record)) fs := by
  unfold createFiles Faults.Completes
  have hrename : ∀ {fs : FileSystem SessionFile} {log prev}, log ≠ .inputFifo → prev ≠ .inputFifo →
      Fifo entry fs → Fifo entry (fs.rename log prev) := fun hlog hprev h =>
    (FileSystem.entry_rename_of_ne hlog.symm hprev.symm).trans h
  -- The second log is not touched when the first one is renamed.
  refine Decides.bind (decides_rotatePreviousLog
    (I := fun fs' => Fifo entry fs' ∧ fs'.read .cleanLog = fs.read .cleanLog) ⟨h, rfl⟩
    ⟨hrename (by decide) (by decide) h, FileSystem.read_rename_of_ne (by decide) (by decide)⟩)
    ?_ fun _ => And.left
  rintro - fs' ⟨h, hread⟩
  refine Decides.bind (C := f.Rotates fs .cleanLog) (Decides.congr (decides_rotatePreviousLog h
    (hrename (by decide) (by decide) h)) ?_) ?_ fun _ => id
  · unfold Faults.Rotates Faults.Filled
    rw [hread]
  rintro - fs' h
  refine (decides_createWithContext (by decide) h).bind (fun _ fs' h => ?_) fun _ => id
  refine (decides_createWithContext (by decide) h).bind (fun _ fs' h => ?_) fun _ => id
  refine (decides_createWithContext (by decide) h).bind (fun _ fs' h => ?_) fun _ => id
  exact decides_saveMetadata hdir h

/-- Reading the previous record changes nothing, and cannot fail the initialization. -/
theorem meets_previous {name : String} {E : String → FileSystem SessionFile → Prop} :
    Meets (answering f.answer) (fun _ fs' => fs' = fs) E (outcome (loadMetadata lib name)) fs := by
  refine (meets_outcome _ _ _).mpr ?_
  unfold loadMetadata
  cases sessionDir lib name with
  | error e => rfl
  | ok dir =>
    rw [meets_bind]
    refine (meets_bind _ _ _ _).mpr (meets_answered ?_)
    have hsame : (f.answer .readMetadata fs).2 = fs := rfl
    rw [hsame]
    cases (f.answer .readMetadata fs).1 with
    | contents bytes => exact Fallible.meets_orThrow (fun _ _ => rfl) fun _ => rfl
    | notFound => rfl
    | failed => rfl

end Steps

/-! ## The whole initialization -/

/-- The request is checked before anything is changed. -/
def Library.Accepts (lib : Library) (name cmd : String) : Prop :=
  (∃ dir, sessionDir lib name = .ok dir) ∧ ∃ command, parseCommand lib.split cmd = .ok command

/-- `input.exists()`. -/
def Faults.Sees (f : Faults) (fs : FileSystem SessionFile) : Prop :=
  (fs.entry .inputFifo).isSome ∧ f.fails .fifoExists = false

/-- The old FIFO cannot be removed, or it is not seen to be in the way, or there is none and
no new one can be made. -/
def Faults.SparesFifo (f : Faults) (fs : FileSystem SessionFile) : Prop :=
  f.Sees fs ∧ f.fails .removeFifo = true ∨
    ¬f.Sees fs ∧ ((fs.entry .inputFifo).isSome ∨ f.fails .mkfifo = true)

/-- The condition under which an error leaves the directory as it was. -/
def Faults.Atomic (f : Faults) (lib : Library) (name : String) (cwd : PathText) (cmd : String)
    (fs : FileSystem SessionFile) : Prop :=
  ¬lib.Accepts name cmd ∨ f.SparesFifo fs ∨ f.fails .mkfifo = false ∧ f.Completes fs cwd

section Whole

variable {lib : Library} {f : Faults} {fs fs' : FileSystem SessionFile} {name cmd : String}
  {cwd : PathText}

/-- What was not changed is untouched. -/
theorem Untouched.refl (fs : FileSystem SessionFile) : Untouched fs fs :=
  fun _ _ => ⟨rfl, rfl⟩

/-- A file system whose FIFO is another one was touched. -/
theorem not_untouched {entry : Option ℕ} (h : Fifo entry fs')
    (hentry : fs.entry .inputFifo ≠ entry) :
    ¬Untouched fs fs' :=
  fun hsame => hentry ((hsame .inputFifo (by decide)).1.symm.trans h)

/-- A directory where the FIFO was replaced, and nothing else. -/
def NewFifo (before after : FileSystem SessionFile) : Prop :=
  (∃ entry, Fifo entry after ∧ before.entry .inputFifo ≠ entry) ∧
    ∀ file ≠ SessionFile.inputFifo, after.read file = before.read file

/-- `mkfifo` in a directory without a FIFO. -/
theorem decides_mkfifo {input : String} (hnone : fs'.entry .inputFifo = none)
    (hread : ∀ file ≠ SessionFile.inputFifo, fs'.read file = fs.read file)
    (hfile : fs.entry .inputFifo ≠ some fs'.nextFile) :
    Meets (answering f.answer) (fun _ fs'' => f.fails .mkfifo = false ∧ NewFifo fs fs'')
      (fun _ fs'' => f.fails .mkfifo = true ∧ fs'' = fs')
      (call .mkfifo >>= fun ok => Fallible.ensure s!"failed to create {input}" ok) fs' := by
  refine (meets_bind _ _ _ _).mpr (meets_answered ?_)
  cases hfails : f.fails .mkfifo with
  | true =>
    have hanswer : f.answer .mkfifo fs' = (false, fs') := by simp [Faults.answer, hfails]
    rw [hanswer]
    exact ⟨rfl, rfl⟩
  | false =>
    have hanswer : f.answer .mkfifo fs' = (true, fs'.create .inputFifo) := by
      simp [Faults.answer, hfails, hnone]
    rw [hanswer]
    refine ⟨rfl, ⟨some fs'.nextFile, ?_, hfile⟩, fun file hne => ?_⟩
    · refine (FileSystem.entry_create_self).trans (congrArg some ?_)
      rw [FileSystem.created, hnone]
      rfl
    · exact (FileSystem.read_create_of_ne hne).trans (hread file hne)

/-- The FIFO that stands there is not the file that is created next. -/
theorem entry_ne_nextFile : fs.entry .inputFifo ≠ some fs.nextFile :=
  fun h => absurd (fs.bounded h) (Nat.lt_irrefl _)

/-- The FIFO is replaced, or spared, or removed only. -/
theorem meets_replaceFifo {input : String} :
    Meets (answering f.answer)
      (fun _ fs' => ¬f.SparesFifo fs ∧ f.fails .mkfifo = false ∧ NewFifo fs fs')
      (fun _ fs' => f.SparesFifo fs ∧ fs' = fs ∨
        ¬f.SparesFifo fs ∧ f.fails .mkfifo = true ∧ ¬Untouched fs fs')
      (replaceFifo input) fs := by
  unfold replaceFifo
  refine (meets_bind _ _ _ _).mpr (meets_answered ?_)
  have hsame : (f.answer .fifoExists fs).2 = fs := rfl
  have hseen : (f.answer .fifoExists fs).1 = true ↔ f.Sees fs := by
    simp [Faults.answer, Faults.Sees]
  rw [hsame]
  by_cases hsees : f.Sees fs
  · rw [hseen.mpr hsees, if_pos rfl]
    refine (meets_bind _ _ _ _).mpr (meets_answered ?_)
    have hspares : f.SparesFifo fs ↔ f.fails .removeFifo = true := by
      simp [Faults.SparesFifo, hsees]
    cases hfails : f.fails .removeFifo with
    | true =>
      have hanswer : f.answer .removeFifo fs = (false, fs) := by simp [Faults.answer, hfails]
      rw [hanswer]
      exact .inl ⟨hspares.mpr hfails, rfl⟩
    | false =>
      have hanswer : f.answer .removeFifo fs = (true, fs.remove .inputFifo) := by
        simp [Faults.answer, hfails, hsees.1]
      have hkept : ¬f.SparesFifo fs := by
        rw [hspares, hfails]
        exact Bool.false_ne_true
      have hentry : fs.entry .inputFifo ≠ none := fun h => by simpa [h] using hsees.1
      rw [hanswer]
      have hfile : fs.entry .inputFifo ≠ some (fs.remove .inputFifo).nextFile := entry_ne_nextFile
      refine Meets.mono (decides_mkfifo FileSystem.entry_remove_self
        (fun file hne => FileSystem.read_remove_of_ne hne) hfile) ?_ ?_
      · exact fun _ fs' h => ⟨hkept, h⟩
      · rintro e fs' ⟨hmkfifo, rfl⟩
        exact .inr ⟨hkept, hmkfifo, not_untouched FileSystem.entry_remove_self hentry⟩
  · rw [Bool.eq_false_iff.mpr fun h => hsees (hseen.mp h), if_neg Bool.false_ne_true]
    have hspares : f.SparesFifo fs ↔ (fs.entry .inputFifo).isSome ∨ f.fails .mkfifo = true := by
      simp [Faults.SparesFifo, hsees]
    cases hentry : fs.entry .inputFifo with
    | some file =>
      have hanswer : f.answer .mkfifo fs = (false, fs) := by simp [Faults.answer, hentry]
      refine (meets_bind _ _ _ _).mpr (meets_answered ?_)
      rw [hanswer]
      exact .inl ⟨hspares.mpr (.inl (by rw [hentry]; rfl)), rfl⟩
    | none =>
      refine Meets.mono (decides_mkfifo hentry (fun _ _ => rfl) entry_ne_nextFile) ?_ ?_
      · rintro - fs' ⟨hmkfifo, hnew⟩
        refine ⟨fun h => ?_, hmkfifo, hnew⟩
        rcases hspares.mp h with hsome | hfails
        · rw [hentry] at hsome
          cases hsome
        · rw [hmkfifo] at hfails
          cases hfails
      · rintro e fs' ⟨hmkfifo, rfl⟩
        exact .inl ⟨hspares.mpr (.inr hmkfifo), rfl⟩

/-- Whether the initialization completes depends on the files other than the FIFO only. -/
theorem completes_congr (h : ∀ file ≠ SessionFile.inputFifo, fs'.read file = fs.read file) :
    f.Completes fs' cwd ↔ f.Completes fs cwd := by
  unfold Faults.Completes Faults.Rotates Faults.Filled
  rw [h .rawLog (by decide), h .cleanLog (by decide)]

/-- Whichever way an initialization ends, an error leaves the directory as it was exactly
under the condition. -/
theorem meets_initializeSessionFiles {rows cols : Option ℕ} :
    Meets (answering f.answer) (fun _ _ => f.Atomic lib name cwd cmd fs)
      (fun _ fs' => Untouched fs fs' ↔ f.Atomic lib name cwd cmd fs)
      (initializeSessionFiles lib name cwd cmd rows cols) fs := by
  unfold initializeSessionFiles
  have hrefused : ¬lib.Accepts name cmd → (Untouched fs fs ↔ f.Atomic lib name cwd cmd fs) :=
    fun h => iff_of_true (Untouched.refl fs) (.inl h)
  cases hdir : sessionDir lib name with
  | error e => exact hrefused fun ⟨⟨dir, h⟩, _⟩ => by simp [hdir] at h
  | ok dir =>
    cases hcommand : parseCommand lib.split cmd with
    | error e => exact hrefused fun ⟨_, command, h⟩ => by simp [hcommand] at h
    | ok command =>
      have haccepts : lib.Accepts name cmd := ⟨⟨dir, hdir⟩, command, hcommand⟩
      have hatomic : f.Atomic lib name cwd cmd fs ↔
          f.SparesFifo fs ∨ f.fails .mkfifo = false ∧ f.Completes fs cwd := by
        simp [Faults.Atomic, haccepts]
      refine (meets_bind _ _ _ _).mpr ((meets_bind _ _ _ _).mpr ((meets_bind _ _ _ _).mpr
        (Meets.mono meets_previous ?_ fun _ _ => id)))
      intro previous fs₀ hsame
      rw [hsame]
      refine (meets_bind _ _ _ _).mpr (Meets.mono meets_replaceFifo ?_ ?_)
      · rintro - fs₁ ⟨hspares, hmkfifo, ⟨entry, hfifo, hentry⟩, hread⟩
        have hcompletes : f.Atomic lib name cwd cmd fs ↔ f.Completes fs₁ cwd := by
          rw [hatomic, completes_congr hread]
          simp [hspares, hmkfifo]
        refine (meets_bind _ _ _ _).mpr (Meets.mono (decides_createFiles hdir hfifo) ?_ ?_)
        · exact fun _ _ h => hcompletes.mpr h.1
        · rintro e fs₂ ⟨hfailed, hfifo⟩
          exact iff_of_false (not_untouched hfifo hentry) fun h => hfailed (hcompletes.mp h)
      · rintro e fs₁ (⟨hspares, rfl⟩ | ⟨hspares, hmkfifo, htouched⟩)
        · exact iff_of_true (Untouched.refl _) (hatomic.mpr (.inl hspares))
        · refine iff_of_false htouched fun h => ?_
          rcases hatomic.mp h with hspared | ⟨hmkfifo', -⟩
          · exact hspares hspared
          · rw [hmkfifo] at hmkfifo'
            cases hmkfifo'

/-- **Atomic initialization.** An initialization that returns an error leaves every file of
the session as it was exactly if the request is refused before anything is changed, or the
first step to fail is the removal of the old FIFO or the creation of one where there is none,
or no step fails. -/
theorem initialized_error_untouched (lib : Library) (f : Faults) (name : String) (cwd : PathText)
    (cmd : String) (rows cols : Option ℕ) (fs : FileSystem SessionFile) :
    ((∃ e, (initialized lib f name cwd cmd rows cols fs).1 = .error e) →
      Untouched fs (initialized lib f name cwd cmd rows cols fs).2) ↔
    f.Atomic lib name cwd cmd fs := by
  refine (follows_answering f.answer (initializeSessionFiles lib name cwd cmd rows cols).run
    (fun r fs' => ((∃ e, r = .error e) → Untouched fs fs') ↔ f.Atomic lib name cwd cmd fs) fs).mp
    ((follows_run _ _ fs).mpr (Meets.mono meets_initializeSessionFiles ?_ ?_))
  · exact fun _ _ hatomic => iff_of_true (fun ⟨_, h⟩ => nomatch h) hatomic
  · rintro e fs' h
    exact (forall_prop_of_true ⟨e, rfl⟩).trans h

end Whole

/-- Libraries for which every command is one word, and nothing is ever read. -/
def plainLibrary : Library where
  bridgeRoot := .ok "/bridge"
  split cmd := some [cmd]
  fromJson _ := none
  toJson metadata := metadata.cwd.toUTF8.toList

/-- A session that was started once, and wrote something to its terminal. -/
def priorRun : FileSystem SessionFile :=
  let started := (initialized plainLibrary {} "demo" (.text "/tmp") "cat" none none .empty).2
  started.write (started.created .rawLog) 0 [0x68, 0x69]

/-- A start with a `cwd` that is not text replaces the FIFO and rotates the log before the
record is found not to be serializable. -/
theorem initialized_bytes_cwd :
    (initialized plainLibrary {} "demo" (.bytes [0xff]) "cat" none none priorRun).1 =
      .error "failed to serialize metadata" ∧
    ¬Untouched priorRun
      (initialized plainLibrary {} "demo" (.bytes [0xff]) "cat" none none priorRun).2 := by
  refine ⟨by decide +kernel, fun h => ?_⟩
  have hfifo := (h .inputFifo (by decide)).1
  revert hfifo
  decide +kernel

end IgnibyteBridge.Initialize
