import IgnibyteBridge.Concurrency.System
import IgnibyteBridge.Storage.FileSystem
import IgnibyteBridge.Text.Decimal
import Mathlib.Algebra.Group.Nat.Defs

/-!
# Atomic replacement of a file

`write_atomic` of `paths.rs`, system call by system call, in any number of threads
of any number of processes that replace and read one file. Processes are killed at
any point, and the kernel gives their PIDs to later ones.
-/

namespace IgnibyteBridge

open Concurrency Storage

/-- The last component of a path. -/
inductive FileName where
  | text (name : String)
  /-- A name that is not valid UTF-8. -/
  | bytes (name : List UInt8)
  /-- The path ends in `..` or is a root. -/
  | missing
  deriving DecidableEq

/-- `Path::file_name`, as text. -/
def FileName.toStr : FileName → Option String
  | .text name => some name
  | _ => none

/-- The path of the file that is replaced. -/
structure Target where
  /-- `Path::parent`. -/
  parent : Option String
  fileName : FileName
  /-- The path as errors print it. -/
  display : String

/-- The name of the temp file of one call. -/
def tempName (fileName : String) (pid unique : ℕ) : String :=
  "." ++ fileName ++ ".tmp." ++ pid.repr ++ "." ++ unique.repr

/-- The system calls on files, and the counter. -/
inductive StoreAct where
  /-- `TMP_COUNTER.fetch_add`. -/
  | fetchAdd
  | processId
  | create (name : FileName)
  /-- Whether the mode of an open file grants anything to group or others. -/
  | looseMode (file : ℕ)
  | setPermissions (file : ℕ)
  /-- One write through an open file, which is at this position. -/
  | write (file offset : ℕ) (bytes : List UInt8)
  | flush (file : ℕ)
  | close (file : ℕ)
  | rename (source target : FileName)
  | removeFile (name : FileName)
  | openRead (name : FileName)
  | readAt (file offset : ℕ)

/-- What a system call returns. -/
abbrev StoreAct.Response : StoreAct → Type
  | .fetchAdd => ℕ
  | .processId => ℕ
  | .create _ => Option ℕ
  | .looseMode _ => Option Bool
  | .setPermissions _ => Bool
  | .write .. => Option ℕ
  | .flush _ => Bool
  | .close _ => Unit
  | .rename .. => Bool
  | .removeFile _ => Bool
  | .openRead _ => Option ℕ
  | .readAt .. => Option (List UInt8)

/-- What the environment decides about one call. -/
structure StoreChoice where
  ok : Bool := true
  loose : Bool := false
  count : ℕ := 0

/-- How a thread ends, or the state between two iterations of its loop. -/
inductive StoreResult where
  | wrote (result : Except String Unit)
  | reading (file : ℕ) (got : List UInt8)
  | read (bytes : List UInt8)
  | unreadable

/-! ## The program -/

namespace StoreAct

/-- A program that returns a `Result`. -/
abbrev Result (α : Type) := Fallible StoreAct StoreAct.Response String α

/-- A system call. -/
abbrev call (a : StoreAct) : Result a.Response := Fallible.perform a

/-- A system call of a program without an error of its own. -/
abbrev plain (a : StoreAct) : Program StoreAct StoreAct.Response a.Response := Program.perform a

end StoreAct

open StoreAct (call plain)

/-- `create_private_file`. A file that is given up is closed. -/
def createPrivateFile (name : FileName) (display : String) : StoreAct.Result ℕ := do
  let file ← Fallible.orThrow s!"failed to create {display}" (← call (.create name))
  match ← call (.looseMode file) with
  | none =>
    call (.close file)
    throw s!"failed to inspect {display}"
  | some false => pure file
  | some true =>
    if ← call (.setPermissions file) then pure file
    else
      call (.close file)
      throw s!"failed to restrict permissions on {display}"

/-- `write_all` from a position. A write that moves anything moves at least one byte, so
there are at most as many writes as bytes. -/
def writeRest (file : ℕ) (display : String) : ℕ → ℕ → List UInt8 → StoreAct.Result Unit
  | _, _, [] => pure ()
  | 0, _, _ :: _ => throw s!"failed to write {display}"
  | n + 1, offset, byte :: bytes => do
    match ← call (.write file offset (byte :: bytes)) with
    | none | some 0 => throw s!"failed to write {display}"
    | some (count + 1) => writeRest file display n (offset + (count + 1)) (bytes.drop count)

/-- The closure of `write_atomic`: create, write, flush, and close in any case. -/
def writeTemp (name : FileName) (display : String) (contents : List UInt8) :
    StoreAct.Result Unit := do
  let file ← createPrivateFile name display
  let result ← Fallible.outcome do
    writeRest file display contents.length 0 contents
    Fallible.ensure s!"failed to flush {display}" (← call (.flush file))
  call (.close file)
  match result with
  | .ok () => pure ()
  | .error e => throw e

/-- `write_atomic` once it has its unique number. -/
def writeNumbered (target : Target) (parent fileName : String) (contents : List UInt8)
    (unique : ℕ) : StoreAct.Result Unit := do
  let pid ← call .processId
  let temp := tempName fileName pid unique
  match ← Fallible.outcome (writeTemp (.text temp) s!"{parent}/{temp}" contents) with
  | .error e =>
    let _ ← call (.removeFile (.text temp))
    throw e
  | .ok () =>
    if ← call (.rename (.text temp) target.fileName) then pure ()
    else
      let _ ← call (.removeFile (.text temp))
      throw s!"failed to replace {target.display}"

/-- `write_atomic`. -/
def writeAtomic (target : Target) (contents : List UInt8) : StoreAct.Result Unit := do
  let parent ← Fallible.orThrow s!"path has no parent directory: {target.display}" target.parent
  let fileName ← Fallible.orThrow s!"path has no file name: {target.display}" target.fileName.toStr
  let unique ← call .fetchAdd
  writeNumbered target parent fileName contents unique

/-- One more read of a file that is read to its end. -/
def readMore (file : ℕ) (got : List UInt8) : Program StoreAct StoreAct.Response StoreResult := do
  match ← plain (.readAt file got.length) with
  | none => pure .unreadable
  | some [] => pure (.read got)
  | some bytes => pure (.reading file (got ++ bytes))

/-- What one thread does. -/
inductive Job where
  /-- A call of `write_atomic` in a process. -/
  | write (process : ℕ) (contents : List UInt8)
  /-- A read of the whole file in a process. -/
  | read (process : ℕ)

/-- The process that runs a thread. -/
def Job.process : Job → ℕ
  | .write process _ => process
  | .read process => process

/-- The program of a thread. -/
def Job.program (target : Target) : Job → Program StoreAct StoreAct.Response StoreResult
  | .write _ contents => do
    let result ← (writeAtomic target contents).run
    pure (.wrote result)
  | .read _ => do
    match ← plain (.openRead target.fileName) with
    | none => pure .unreadable
    | some file => readMore file []

/-! ## The machine -/

/-- A process. Its PID is free again when it is gone. -/
inductive Running where
  | unborn
  | running (pid : ℕ)
  | gone
  deriving DecidableEq

/-- The directory, the processes, and the counter that each process has. -/
structure Machine where
  fs : FileSystem FileName
  process : ℕ → Running
  /-- The process that has a PID. -/
  holder : ℕ → Option ℕ
  /-- How often a process has counted. -/
  counted : ℕ → ℕ
  /-- The threads that replaced the file, in that order. -/
  replaced : List ℕ

/-- A process starts with a free PID, or is killed. -/
inductive ProcessEvent where
  | start (process pid : ℕ)
  | kill (process : ℕ)

namespace Machine

/-- Whether a process can run. -/
def runs (m : Machine) (process : ℕ) : Bool :=
  match m.process process with
  | .running _ => true
  | _ => false

/-- One system call of a thread. -/
def perform (target : Target) (job : ℕ → Job) (i : ℕ) :
    (a : StoreAct) → StoreChoice → Machine → Option (a.Response × Machine)
  | .fetchAdd, _, m =>
    let p := (job i).process
    -- The counter is a `u64`.
    some (m.counted p % 2 ^ 64, { m with counted := Function.update m.counted p (m.counted p + 1) })
  | .processId, _, m =>
    match m.process (job i).process with
    | .running pid => some (pid, m)
    | _ => none
  | .create name, c, m =>
    if c.ok then some (some (m.fs.created name), { m with fs := m.fs.create name })
    else some (none, m)
  | .looseMode _, c, m => some (if c.ok then some c.loose else none, m)
  | .setPermissions _, c, m => some (c.ok, m)
  | .write file offset bytes, c, m =>
    if c.ok then
      let count := min c.count bytes.length
      some (some count, { m with fs := m.fs.write file offset (bytes.take count) })
    else some (none, m)
  | .flush _, c, m => some (c.ok, m)
  | .close _, _, m => some ((), m)
  | .rename source new, c, m =>
    if c.ok && (m.fs.entry source).isSome then
      some (true, { m with
        fs := m.fs.rename source new
        replaced := if new = target.fileName then m.replaced ++ [i] else m.replaced })
    else some (false, m)
  | .removeFile name, c, m =>
    if c.ok && (m.fs.entry name).isSome then some (true, { m with fs := m.fs.remove name })
    else some (false, m)
  | .openRead name, c, m => some (if c.ok then m.fs.entry name else none, m)
  | .readAt file offset, c, m =>
    some (if c.ok then some (((m.fs.contents file).drop offset).take (max 1 c.count)) else none, m)

/-- A process starts or is killed. -/
def disturb (m : Machine) : ProcessEvent → Option Machine
  | .start process pid =>
    if m.process process = .unborn ∧ m.holder pid = none then
      some { m with
        process := Function.update m.process process (.running pid)
        holder := Function.update m.holder pid (some process) }
    else none
  | .kill process =>
    match m.process process with
    | .running pid =>
      some { m with
        process := Function.update m.process process .gone
        holder := Function.update m.holder pid none }
    | _ => none

end Machine

/-- The threads that replace and read one file. -/
def storage (target : Target) (job : ℕ → Job) :
    System StoreAct StoreAct.Response StoreResult Machine StoreChoice ProcessEvent where
  alive m i := m.runs (job i).process
  perform := Machine.perform target job
  launched _ _ := none
  again
    | .reading file got => some (readMore file got)
    | _ => none
  disturb e m := m.disturb e

/-- Nothing has run yet. -/
def storageStart (target : Target) (job : ℕ → Job) (fs : FileSystem FileName) :
    Config StoreAct StoreAct.Response StoreResult Machine where
  world := ⟨fs, fun _ => .unborn, fun _ => none, fun _ => 0, []⟩
  thread i := (job i).program target

end IgnibyteBridge
