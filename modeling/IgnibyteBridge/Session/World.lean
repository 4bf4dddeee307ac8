import IgnibyteBridge.Concurrency.Program
import IgnibyteBridge.Session.Metadata
import Mathlib.Data.List.Basic
import Mathlib.Logic.Function.Basic

/-!
# The world that sessions share

Files, locks, processes and threads, and the atomic actions on them. Each
system call that another process or thread can observe is one action. What the
environment decides about an action (whether it fails, how many bytes it moves,
which PID a new process gets) is a `Choice`.
-/

namespace IgnibyteBridge

/-- A process. PIDs are not reused: an identity never changes hands. -/
inductive Process where
  | unborn
  | live (startTime : ℕ)
  | dead
  deriving DecidableEq

/-- The process that runs a thread. -/
inductive Host where
  /-- A command-line client with this one thread. -/
  | client
  | daemon
  /-- A detached supervisor. -/
  | supervisor (pid : ℕ)
  deriving DecidableEq

/-- A thread. -/
inductive Life where
  | unborn
  | live (host : Host)
  | gone
  deriving DecidableEq

/-- The outcome of opening and locking a lock file. -/
inductive Flock where
  | held
  | wouldBlock
  | openFailed
  | flockFailed
  deriving DecidableEq

/-- Who marks a record Stopped. The program passes no such value; it names the
caller of `mark_stopped` and what that caller read before. -/
inductive Stopper where
  | owner
  /-- `stop_session_silent`, with the record it decided on. -/
  | stop (snapshot : SessionMetadata)
  /-- The timeout of a start, with the record it decided on and whether no
  process of that record survived its signals. -/
  | timeout (snapshot : SessionMetadata) (terminated : Bool)
  deriving DecidableEq

/-- The place in the program that saves a record. -/
inductive Site where
  /-- `initialize_session_files`. -/
  | initial
  /-- `run_supervisor`, recording its PID. -/
  | supervisor
  /-- `supervise_pty`, recording the child. -/
  | child
  /-- `supervise_pty`, promoting to Running. -/
  | promote
  /-- `mark_stopped`. -/
  | stopped (by_ : Stopper)
  deriving DecidableEq

/-- The two logs of a session. -/
inductive Log where
  | raw
  | clean
  deriving DecidableEq

/-- The two threads that serve a PTY, each with a stop flag. -/
inductive Worker where
  | output
  | input
  deriving DecidableEq

/-- Calls that only succeed or fail. -/
inductive Step where
  | locateExecutable
  | dupMaster
  | takeWriter
  | clearNonblocking
  | respond
  deriving DecidableEq

/-- The outcome of opening a FIFO for writing. -/
inductive WriterOpen where
  | opened (fifo : ℕ)
  /-- `ENXIO`. -/
  | noReader
  | failed

/-- The outcome of waiting for PTY output. -/
inductive Poll where
  | ready
  /-- A timeout or an interrupted call. -/
  | idle
  | failed
  deriving DecidableEq

/-- A run owner, as statements about runs refer to it. -/
structure Ownership where
  name : String
  /-- The start that spawned it. -/
  start : ℕ
  /-- The generation it owns, once it knows one. -/
  generation : Option ℕ
  /-- The PID of the child it spawned. -/
  child : Option ℕ
  /-- It has passed its promotion to Running. -/
  promoted : Bool
  deriving DecidableEq

/-- A capture thread, as statements about output refer to it. -/
structure Capture where
  name : String
  /-- The start whose run it captures. -/
  start : ℕ
  deriving DecidableEq

/-- A piece of a message, as one thread wrote it to a FIFO. -/
structure Piece where
  fifo : ℕ
  writer : ℕ
  bytes : List UInt8

/-- FIFOs, logs, screens and PTYs. -/
structure Files where
  nextInode : ℕ
  /-- The FIFO at a session's path. -/
  fifo : String → Option ℕ
  /-- The threads that hold a FIFO open for reading. -/
  readers : ℕ → List ℕ
  /-- The bytes in a FIFO. -/
  pipe : ℕ → List UInt8
  /-- What was written to FIFOs, in that order. -/
  pieces : List Piece
  /-- The bytes that an input forwarder has read and not yet written. -/
  inHand : ℕ → List UInt8
  /-- The bytes written to a PTY. -/
  ptyInput : ℕ → List UInt8
  /-- The bytes printed on a PTY and not yet read. -/
  ptyOutput : ℕ → List UInt8
  /-- The file at a log's path. -/
  log : Log → String → Option ℕ
  /-- The file at a log's `.prev` path. -/
  previousLog : Log → String → Option ℕ
  /-- The bytes in a log file. -/
  contents : ℕ → List UInt8
  screen : String → Option (List Char)
  /-- The stop flag of a PTY's worker. -/
  stop : Worker → ℕ → Bool
  capture : ℕ → Option Capture
  /-- The capture threads that have read a chunk and not finished writing it. -/
  holding : List ℕ
  /-- The PTY that a thread forwards input to. -/
  forward : ℕ → Option ℕ

/-- Everything that the processes on one machine share. -/
structure World where
  /-- The session directories. -/
  directories : List String
  /-- `metadata.json` of a session. -/
  metadata : String → Option SessionMetadata
  /-- The thread that locked `start.lock`. -/
  startLock : String → Option ℕ
  /-- The thread that locked `status.lock`. -/
  statusLock : String → Option ℕ
  process : ℕ → Process
  daemonUp : Bool
  life : ℕ → Life
  files : Files
  /-- The starts of a session whose initial record was saved, in that order. -/
  inits : String → List ℕ
  /-- How many initial records of the session a thread last loaded had been
  saved by then. -/
  loadedAt : ℕ → Option ℕ
  owner : ℕ → Option Ownership
  /-- The owners that have recorded their child, or killed it. -/
  accounted : List ℕ
  /-- The threads that listed the session directories. -/
  scans : List ℕ
  /-- The directories that a thread listed and whose records it has not loaded since. -/
  unseen : ℕ → List String

/-- The most bytes that a FIFO takes in one piece, whatever else is written to it. -/
def pipeBuf : ℕ := 4096

/-- The buffer size of the two worker threads. -/
def ioBuffer : ℕ := 8192

/-- What the environment decides about one action. -/
structure Choice where
  ok : Bool := true
  error : String := ""
  flock : Flock := .held
  poll : Poll := .ready
  thread : ℕ := 0
  pid : ℕ := 0
  startTime : ℕ := 0
  count : ℕ := 0
  code : ℕ := 0
  name : String := ""

/-- Actions on session directories, locks and records. -/
inductive DiskAct where
  | ensureBridgeDir (name : String)
  | acquireStartLock (name : String)
  | dropStartLock (name : String)
  | acquireStatusLock (name : String)
  | dropStatusLock (name : String)
  | loadMetadata (name : String)
  | saveMetadata (site : Site) (metadata : SessionMetadata)
  | readSessions

/-- Actions on processes and threads. -/
inductive ProcessAct where
  | resolveCwd (cwd : Option String)
  | attempt (step : Step)
  | processId
  | processStartTime (pid : ℕ)
  | pidIsOurs (pid startTime : Option ℕ)
  | terminatePid (pid : ℕ)
  | spawnSupervisor (name cwd cmd : String)
  | spawnOwner (name cwd cmd : String) (clientPath : Option String) (generation : ℕ)
  | openPty (rows cols : ℕ)
  | spawnCommand (command : List String) (cwd : String) (path : Option String)
  | childWait (pid : ℕ)
  | childKill (pid : ℕ)
  | spawnCapture (name : String) (pty rows cols : ℕ)
  | spawnForward (fifo pty : ℕ)
  | join (thread : ℕ)
  | drain (thread : ℕ)
  | leave
  | processExit

/-- Actions on FIFOs, logs, screens and PTYs. -/
inductive FileAct where
  | fifoExists (name : String)
  | removeFifo (name : String)
  | mkfifo (name : String)
  | logLength (log : Log) (name : String)
  | renameLog (log : Log) (name : String)
  /-- `create_private_file` of a log, which returns the file that it opened and emptied. -/
  | createPrivateLog (log : Log) (name : String)
  | createScreen (name : String)
  | openFifo (name : String)
  | closeFifo (fifo : ℕ)
  | openFifoWriter (name : String)
  | writeFifo (fifo : ℕ) (bytes : List UInt8)
  | readFifo (fifo : ℕ)
  | writePty (pty : ℕ) (bytes : List UInt8)
  /-- The writer of a PTY is dropped, and writes bytes that may depend on the
  terminal's end-of-file character. -/
  | dropWriter (pty : ℕ) (farewell : UInt8 → List UInt8)
  | openAppend (log : Log) (name : String)
  | append (file : ℕ) (bytes : List UInt8)
  | writeScreen (name : String) (text : List Char)
  | pollPty (pty : ℕ)
  | readPty (pty : ℕ)
  | loadStop (worker : Worker) (pty : ℕ)
  | storeStop (worker : Worker) (pty : ℕ)

/-- An atomic action. -/
inductive Act where
  | disk (a : DiskAct)
  | process (a : ProcessAct)
  | file (a : FileAct)

/-- The record that an action saves, and where. -/
def Act.saves : Act → Option (Site × SessionMetadata)
  | .disk (.saveMetadata site metadata) => some (site, metadata)
  | _ => none

/-- The session whose record an action loads. -/
def Act.loads : Act → Option String
  | .disk (.loadMetadata name) => some name
  | _ => none

/-- The session whose `start.lock` an action asks for. -/
def Act.startLocks : Act → Option String
  | .disk (.acquireStartLock name) => some name
  | _ => none

/-- The session whose files an action replaces for a new run. -/
def Act.resets : Act → Option String
  | .file (.removeFifo name) => some name
  | .file (.mkfifo name) => some name
  | .file (.renameLog _ name) => some name
  | .file (.createPrivateLog _ name) => some name
  | .file (.createScreen name) => some name
  | _ => none

/-- The PTY that an action reads. -/
def Act.reads : Act → Option ℕ
  | .file (.readPty pty) => some pty
  | _ => none

/-- The process whose start time an action reads. -/
def Act.inspects : Act → Option ℕ
  | .process (.processStartTime pid) => some pid
  | .process (.pidIsOurs pid (some _)) => pid
  | _ => none

/-- The session whose owner an action starts. -/
def Act.spawns : Act → Option String
  | .process (.spawnSupervisor name _ _) => some name
  | .process (.spawnOwner name _ _ _ _) => some name
  | _ => none

/-- What an action on directories, locks and records returns. -/
abbrev DiskAct.Response : DiskAct → Type
  | .ensureBridgeDir _ => Except String Unit
  | .acquireStartLock _ => Flock
  | .dropStartLock _ => Unit
  | .acquireStatusLock _ => Flock
  | .dropStatusLock _ => Unit
  | .loadMetadata _ => Except String SessionMetadata
  | .saveMetadata _ _ => Except String Unit
  | .readSessions => Except String (List String)

/-- What an action on processes and threads returns; a spawned thread is its handle. -/
abbrev ProcessAct.Response : ProcessAct → Type
  | .resolveCwd _ => Except String String
  | .attempt _ => Bool
  | .processId => ℕ
  | .processStartTime _ => Option ℕ
  | .pidIsOurs _ _ => Bool
  | .terminatePid _ => Except String Unit
  | .spawnSupervisor .. => Option ℕ
  | .spawnOwner .. => ℕ
  | .openPty .. => Option ℕ
  | .spawnCommand .. => Option ℕ
  | .childWait _ => Option (String × ℕ)
  | .childKill _ => Bool
  | .spawnCapture .. => ℕ
  | .spawnForward .. => ℕ
  | .join _ => Unit
  | .drain _ => Unit
  | .leave => Unit
  | .processExit => Unit

/-- What an action on FIFOs, logs, screens and PTYs returns. -/
abbrev FileAct.Response : FileAct → Type
  | .fifoExists _ => Bool
  | .removeFifo _ => Bool
  | .mkfifo _ => Bool
  | .logLength .. => Option ℕ
  | .renameLog .. => Bool
  | .createPrivateLog .. => Option ℕ
  | .createScreen _ => Bool
  | .openFifo _ => Option ℕ
  | .closeFifo _ => Unit
  | .openFifoWriter _ => WriterOpen
  | .writeFifo .. => Option ℕ
  | .readFifo _ => Option (List UInt8)
  | .writePty .. => Bool
  | .dropWriter .. => Unit
  | .openAppend .. => Option ℕ
  | .append .. => Bool
  | .writeScreen .. => Bool
  | .pollPty _ => Poll
  | .readPty _ => Option (List UInt8)
  | .loadStop .. => Bool
  | .storeStop .. => Unit

/-- What an action returns. -/
abbrev Act.Response : Act → Type
  | .disk a => a.Response
  | .process a => a.Response
  | .file a => a.Response

namespace World

/-- Whether the process that runs a thread is alive. -/
def hostAlive (w : World) : Host → Bool
  | .client => true
  | .daemon => w.daemonUp
  | .supervisor pid => match w.process pid with
    | .live _ => true
    | _ => false

/-- Whether a thread can still take a step. -/
def alive (w : World) (i : ℕ) : Bool :=
  match w.life i with
  | .live host => w.hostAlive host
  | _ => false

/-- An advisory lock is free when nobody holds it or its holder is gone. -/
def lockFree (w : World) (holder : Option ℕ) : Bool :=
  match holder with
  | none => true
  | some i => !w.alive i

/-- `process_alive`. -/
def processAlive (w : World) (pid : ℕ) : Bool :=
  match w.process pid with
  | .live _ => true
  | _ => false

/-- `process_start_time`. The start time of a live process may be unreadable. -/
def processStartTime (w : World) (readable : Bool) (pid : ℕ) : Option ℕ :=
  match w.process pid with
  | .live startTime => if readable then some startTime else none
  | _ => none

/-- `pid_is_ours`. -/
def pidIsOurs (w : World) (readable : Bool) (pid recordedStartTime : Option ℕ) : Bool :=
  match pid with
  | none => false
  | some pid =>
    if w.processAlive pid then
      match recordedStartTime with
      | some token => w.processStartTime readable pid = some token
      | none => true
    else false

/-- The process table after a process died. -/
def kill (w : World) (pid : ℕ) : ℕ → Process :=
  if w.processAlive pid then Function.update w.process pid .dead else w.process

/-- The record that lands on disk: an initial record belongs to the start that saves it. -/
def stamp (i : ℕ) (site : Site) (metadata : SessionMetadata) : SessionMetadata :=
  match site with
  | .initial => { metadata with origin := i }
  | _ => metadata

/-- The owners after a save. -/
def ownerAfter (w : World) (i : ℕ) (site : Site) (metadata : SessionMetadata) :
    ℕ → Option Ownership :=
  match site with
  | .supervisor =>
    Function.update w.owner i
      ((w.owner i).map fun o => { o with generation := some metadata.generation })
  | .promote => Function.update w.owner i ((w.owner i).map fun o => { o with promoted := true })
  | _ => w.owner

/-- The initial saves after a save. -/
def initsAfter (w : World) (i : ℕ) (site : Site) (metadata : SessionMetadata) :
    String → List ℕ :=
  match site with
  | .initial => Function.update w.inits metadata.name (w.inits metadata.name ++ [i])
  | _ => w.inits

/-- The owners that have recorded their child or killed it, after a save. -/
def accountedAfter (w : World) (i : ℕ) : Site → List ℕ
  | .child => i :: w.accounted
  | _ => w.accounted

/-- A record replaced its predecessor. -/
def save (w : World) (i : ℕ) (site : Site) (metadata : SessionMetadata) : World :=
  { w with
    metadata := Function.update w.metadata metadata.name (some (stamp i site metadata))
    inits := w.initsAfter i site metadata
    owner := w.ownerAfter i site metadata
    accounted := w.accountedAfter i site }

/-- Actions on directories, locks and records. -/
def performDisk (i : ℕ) : (a : DiskAct) → Choice → World → Option (a.Response × World)
  | .ensureBridgeDir name, c, w =>
    if c.ok then some (.ok (), { w with directories := w.directories.insert name })
    else some (.error c.error, w)
  | .acquireStartLock name, c, w =>
    match c.flock, w.lockFree (w.startLock name) with
    | .held, true => some (.held, { w with startLock := Function.update w.startLock name (some i) })
    | .held, false => none
    | .wouldBlock, true => none
    | flock, _ => some (flock, w)
  | .dropStartLock name, _, w =>
    some ((), { w with startLock := Function.update w.startLock name none })
  | .acquireStatusLock name, c, w =>
    match c.flock, w.lockFree (w.statusLock name) with
    | .held, true =>
      some (.held, { w with statusLock := Function.update w.statusLock name (some i) })
    | .held, false => none
    | .wouldBlock, _ => none
    | flock, _ => some (flock, w)
  | .dropStatusLock name, _, w =>
    some ((), { w with statusLock := Function.update w.statusLock name none })
  | .loadMetadata name, c, w =>
    let w' := { w with
      loadedAt := Function.update w.loadedAt i (some (w.inits name).length)
      unseen := Function.update w.unseen i ((w.unseen i).filter (· ≠ name)) }
    match w.metadata name with
    | none => some (.error s!"no such session '{name}'", w')
    | some metadata => some (if c.ok then .ok metadata else .error c.error, w')
  | .saveMetadata site metadata, c, w =>
    if c.ok then some (.ok (), w.save i site metadata) else some (.error c.error, w)
  | .readSessions, c, w =>
    if c.ok then some (.ok w.directories, { w with
      scans := i :: w.scans
      unseen := Function.update w.unseen i w.directories })
    else some (.error c.error, w)

/-- A new thread of a process. -/
def spawnThread (w : World) (j : ℕ) (host : Host) : ℕ → Life :=
  Function.update w.life j (.live host)

/-- The process that runs a thread; a thread that is not live has none of its own. -/
def hostOf (w : World) (i : ℕ) : Host :=
  match w.life i with
  | .live host => host
  | _ => .client

/-- A FIFO handle moved from one thread to another. -/
def Files.passFifo (f : Files) (fifo i j : ℕ) : ℕ → List ℕ :=
  Function.update f.readers fifo (j :: (f.readers fifo).erase i)

/-- Actions on processes and threads. -/
def performProcess (i : ℕ) : (a : ProcessAct) → Choice → World → Option (a.Response × World)
  | .resolveCwd _, c, w => some (if c.ok then .ok c.name else .error c.error, w)
  | .attempt _, c, w => some (c.ok, w)
  | .processId, _, w =>
    match w.hostOf i with
    | .supervisor pid => some (pid, w)
    | _ => none
  | .processStartTime pid, c, w => some (w.processStartTime c.ok pid, w)
  | .pidIsOurs pid startTime, c, w => some (w.pidIsOurs c.ok pid startTime, w)
  | .terminatePid pid, c, w =>
    if c.ok then some (.ok (), { w with process := w.kill pid }) else some (.error c.error, w)
  | .spawnSupervisor name _ _, c, w =>
    if c.ok then
      if w.life c.thread = .unborn ∧ w.process c.pid = .unborn then
        some (some c.thread, { w with
          process := Function.update w.process c.pid (.live c.startTime)
          life := w.spawnThread c.thread (.supervisor c.pid)
          owner := Function.update w.owner c.thread
            (some ⟨name, i, none, none, false⟩) })
      else none
    else some (none, w)
  | .spawnOwner name _ _ _ generation, c, w =>
    if w.life c.thread = .unborn then
      some (c.thread, { w with
        life := w.spawnThread c.thread (w.hostOf i)
        owner := Function.update w.owner c.thread
          (some ⟨name, i, some generation, none, false⟩) })
    else none
  | .openPty _ _, c, w => some (if c.ok then some i else none, w)
  | .spawnCommand _ _ _, c, w =>
    if c.ok then
      if w.process c.pid = .unborn then
        some (some c.pid, { w with
          process := Function.update w.process c.pid (.live c.startTime)
          owner := Function.update w.owner i
            ((w.owner i).map fun o => { o with child := some c.pid }) })
      else none
    else some (none, w)
  | .childWait pid, c, w =>
    if w.process pid = .dead then some (if c.ok then some (c.error, c.code) else none, w)
    else none
  | .childKill pid, c, w =>
    some (c.ok, if c.ok then { w with process := w.kill pid, accounted := i :: w.accounted } else w)
  | .spawnCapture name _ _ _, c, w =>
    if w.life c.thread = .unborn then
      some (c.thread, { w with
        life := w.spawnThread c.thread (w.hostOf i)
        files := { w.files with
          capture := Function.update w.files.capture c.thread
            ((w.owner i).map fun o => ⟨name, o.start⟩) } })
    else none
  | .spawnForward fifo pty, c, w =>
    if w.life c.thread = .unborn then
      some (c.thread, { w with
        life := w.spawnThread c.thread (w.hostOf i)
        files := { w.files with
          readers := Files.passFifo w.files fifo i c.thread
          forward := Function.update w.files.forward c.thread (some pty) } })
    else none
  | .join thread, _, w => if w.life thread = .gone then some ((), w) else none
  | .drain _, _, w => some ((), w)
  | .leave, _, w => some ((), { w with life := Function.update w.life i .gone })
  | .processExit, _, w =>
    match w.hostOf i with
    | .client => some ((), { w with life := Function.update w.life i .gone })
    | .daemon => some ((), { w with daemonUp := false })
    | .supervisor pid => some ((), { w with process := w.kill pid })

/-- A FIFO handle closed by a thread. -/
def closeReader (f : Files) (fifo i : ℕ) : ℕ → List ℕ :=
  Function.update f.readers fifo ((f.readers fifo).erase i)

/-- Whether a FIFO has a reader. -/
def hasReader (w : World) (fifo : ℕ) : Bool := (w.files.readers fifo).any w.alive

/-- How many bytes of a request move: at least one, at most `limit`. -/
def moved (count limit : ℕ) : ℕ := max 1 (min count limit)

/-- The file at a log's path once it was created or emptied. -/
def createLog (f : Files) (log : Log) (name : String) : Files :=
  match f.log log name with
  | some file => { f with contents := Function.update f.contents file [] }
  | none =>
    { f with
      nextInode := f.nextInode + 1
      contents := Function.update f.contents f.nextInode []
      log := Function.update f.log log (Function.update (f.log log) name (some f.nextInode)) }

/-- Actions on FIFOs, logs, screens and PTYs. -/
def performFile (i : ℕ) (w : World) : (a : FileAct) → Choice → Files → Option (a.Response × Files)
  | .fifoExists name, _, f => some ((f.fifo name).isSome, f)
  | .removeFifo name, c, f =>
    if c.ok then some (true, { f with fifo := Function.update f.fifo name none })
    else some (false, f)
  | .mkfifo name, c, f =>
    if c.ok ∧ f.fifo name = none then
      some (true, { f with
        nextInode := f.nextInode + 1
        fifo := Function.update f.fifo name (some f.nextInode) })
    else some (false, f)
  | .logLength log name, c, f =>
    match f.log log name with
    | some file => some (if c.ok then some (f.contents file).length else none, f)
    | none => some (none, f)
  | .renameLog log name, c, f =>
    match c.ok, f.log log name with
    | true, some file =>
      some (true, { f with
        log := Function.update f.log log (Function.update (f.log log) name none)
        previousLog :=
          Function.update f.previousLog log (Function.update (f.previousLog log) name (some file)) })
    | _, _ => some (false, f)
  | .createPrivateLog log name, c, f =>
    if c.ok then some ((createLog f log name).log log name, createLog f log name)
    else some (none, f)
  | .createScreen name, c, f =>
    if c.ok then some (true, { f with screen := Function.update f.screen name (some []) })
    else some (false, f)
  | .openFifo name, c, f =>
    match c.ok, f.fifo name with
    | true, some fifo =>
      some (some fifo, { f with readers := Function.update f.readers fifo (i :: f.readers fifo) })
    | _, _ => some (none, f)
  | .closeFifo fifo, _, f => some ((), { f with readers := closeReader f fifo i })
  | .openFifoWriter name, c, f =>
    match c.ok, f.fifo name with
    | true, some fifo => some (if w.hasReader fifo then .opened fifo else .noReader, f)
    | _, _ => some (.failed, f)
  | .writeFifo fifo bytes, c, f =>
    if c.ok then
      if w.hasReader fifo then
        let count := if bytes.length ≤ pipeBuf then bytes.length else moved c.count bytes.length
        some (some count, { f with
          pipe := Function.update f.pipe fifo (f.pipe fifo ++ bytes.take count)
          pieces := f.pieces ++ [⟨fifo, i, bytes.take count⟩] })
      else none
    else some (none, f)
  | .readFifo fifo, c, f =>
    if c.ok then
      let count := min (moved c.count ioBuffer) ioBuffer
      some (some ((f.pipe fifo).take count), { f with
        pipe := Function.update f.pipe fifo ((f.pipe fifo).drop count)
        inHand := Function.update f.inHand i ((f.pipe fifo).take count) })
    else some (none, f)
  | .writePty pty bytes, c, f =>
    let count := if c.ok then bytes.length else c.count
    some (c.ok, { f with
      ptyInput := Function.update f.ptyInput pty (f.ptyInput pty ++ bytes.take count)
      inHand := Function.update f.inHand i (bytes.drop count) })
  | .dropWriter pty farewell, c, f =>
    let bytes := farewell (UInt8.ofNat c.code)
    let count := if c.ok then bytes.length else c.count
    some ((), { f with
      ptyInput := Function.update f.ptyInput pty (f.ptyInput pty ++ bytes.take count) })
  | .openAppend log name, c, f =>
    if c.ok then
      match f.log log name with
      | some file => some (some file, f)
      | none => some (some f.nextInode, createLog f log name)
    else some (none, f)
  | .append file bytes, c, f =>
    let count := if c.ok then bytes.length else c.count
    some (c.ok, { f with
      contents := Function.update f.contents file (f.contents file ++ bytes.take count) })
  | .writeScreen name text, c, f =>
    some (c.ok, { f with
      screen := if c.ok then Function.update f.screen name (some text) else f.screen
      holding := f.holding.filter (· ≠ i) })
  | .pollPty _, c, f => some (c.poll, f)
  | .readPty pty, c, f =>
    if c.ok then
      let count := min (moved c.count ioBuffer) ioBuffer
      let bytes := (f.ptyOutput pty).take count
      some (some bytes, { f with
        ptyOutput := Function.update f.ptyOutput pty ((f.ptyOutput pty).drop count)
        holding := if bytes = [] then f.holding else i :: f.holding })
    else some (none, f)
  | .loadStop worker pty, _, f => some (f.stop worker pty, f)
  | .storeStop worker pty, _, f =>
    some ((), { f with
      stop := Function.update f.stop worker (Function.update (f.stop worker) pty true) })

/-- One atomic action. -/
def perform (i : ℕ) : (a : Act) → Choice → World → Option (a.Response × World)
  | .disk a, c, w => performDisk i a c w
  | .process a, c, w => performProcess i a c w
  | .file a, c, w =>
    (performFile i w a c w.files).map fun (r, f) => (r, { w with files := f })

/-- Changes that no thread of ours makes. -/
inductive Disturbance where
  /-- A client is killed. -/
  | clientKilled (i : ℕ)
  /-- A process dies, or is killed. -/
  | processDies (pid : ℕ)
  /-- A process prints on a PTY. -/
  | print (pty : ℕ) (bytes : List UInt8)
  /-- The last handle of a FIFO is closed, and the bytes in it are gone. -/
  | discard (fifo : ℕ)

/-- A change that no thread of ours makes. -/
def disturb (w : World) : Disturbance → Option World
  | .clientKilled i =>
    if w.life i = .live .client then some { w with life := Function.update w.life i .gone }
    else none
  | .processDies pid => some { w with process := w.kill pid }
  | .print pty bytes =>
    some { w with
      files := { w.files with
        ptyOutput := Function.update w.files.ptyOutput pty (w.files.ptyOutput pty ++ bytes) } }
  | .discard fifo =>
    if w.hasReader fifo then none
    else some { w with files := { w.files with pipe := Function.update w.files.pipe fifo [] } }

end World

end IgnibyteBridge
