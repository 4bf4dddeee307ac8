import IgnibyteBridge.Clean.AnsiCleaner
import IgnibyteBridge.Concurrency.System
import IgnibyteBridge.Keys
import IgnibyteBridge.Paths
import IgnibyteBridge.Session.World
import Mathlib.Data.List.Sort

/-!
# The programs that share the world

The functions of `session.rs`, `daemon.rs` and `logs.rs` as programs over atomic
actions, and the system that interleaves them.
-/

namespace IgnibyteBridge

open Concurrency

/-- What the program takes from libraries and from its environment. -/
structure Env where
  /-- `bridge_root`. -/
  root : String
  /-- `shell_words::split`. -/
  split : String → Option (List String)
  /-- `child_path`, which reads the home directory and the process's own PATH. -/
  childPath : Option String → Option String
  /-- `resolve_program_path`, which looks for executable files. -/
  resolveProgramPath : String → String → Option String
  /-- The screen after some output, as `vt100` renders it, trimmed. -/
  render : ℕ → ℕ → List UInt8 → List Char
  /-- What the PTY library's writer writes when it is dropped, given the terminal's
  end-of-file character. -/
  farewell : UInt8 → List UInt8

/-- A program without an error of its own. -/
abbrev Prog (α : Type) := Program Act Act.Response α

/-- A program that returns a `Result`. -/
abbrev Result (α : Type) := Fallible Act Act.Response String α

/-- The state of a capture thread between two iterations of its loop. -/
structure CaptureState where
  name : String
  pty : ℕ
  rows : ℕ
  cols : ℕ
  rawLog : ℕ
  cleanLog : ℕ
  cleaner : AnsiCleaner
  /-- Everything the terminal has processed. -/
  processed : List UInt8

/-- How a thread's program ends: for good, or at the end of a loop's body. -/
inductive ThreadResult where
  | finished
  | replied (reply : Except String Unit)
  | capturing (state : CaptureState)
  | forwarding (fifo pty : ℕ)

/-- An action on processes and threads. -/
def Prog.proc (a : ProcessAct) : Prog a.Response := Program.perform (Act.process a)

/-- An action on FIFOs, logs, screens and PTYs. -/
def Prog.file (a : FileAct) : Prog a.Response := Program.perform (Act.file a)

/-- A program run for its result, whatever it is. -/
def lift {α : Type} (p : Prog α) : Result α := liftM p

/-- An action on directories, locks and records. -/
def disk (a : DiskAct) : Result a.Response := lift (Program.perform (Act.disk a))

/-- An action on processes and threads. -/
def proc (a : ProcessAct) : Result a.Response := lift (Prog.proc a)

/-- An action on FIFOs, logs, screens and PTYs. -/
def file (a : FileAct) : Result a.Response := lift (Prog.file a)

/-- The outcome of a program whose error is handled. -/
def caught {α : Type} (p : Result α) : Result (Except String α) := lift p.run

/-- `?`. -/
def try_ {α : Type} : Except String α → Result α
  | .ok x => pure x
  | .error e => throw e

/-- `?` after `context`. -/
def orThrow {α : Type} (context : String) : Option α → Result α
  | some x => pure x
  | none => throw context

/-- `?` after `context`, on a call that returns nothing. -/
def ensure (context : String) (ok : Bool) : Result Unit :=
  if ok then pure () else throw context

/-- `session_dir(name)?`: the name is checked wherever a path is built from it. -/
def sessionDir (name : String) : Result Unit := try_ (validateSessionName name)

/-- The path of a session's file, as errors print it. -/
def Env.path (env : Env) (name file : String) : String := s!"{env.root}/sessions/{name}/{file}"

/-- The path of a session's `INPUT_FIFO`. -/
def Env.inputFifo (env : Env) (name : String) : String := env.path name "input.fifo"

/-! ## Records and locks -/

/-- `load_metadata`. -/
def loadMetadata (name : String) : Result SessionMetadata := do
  sessionDir name
  try_ (← disk (.loadMetadata name))

/-- `save_metadata`. -/
def saveMetadata (site : Site) (metadata : SessionMetadata) : Result Unit := do
  sessionDir metadata.name
  try_ (← disk (.saveMetadata site metadata))

/-- `acquire_start_lock`, held while `body` runs. -/
def withStartLock {α : Type} (name : String) (body : Result α) : Result α := do
  match ← disk (.acquireStartLock name) with
  | .openFailed => throw "failed to open session start lock"
  | .wouldBlock => throw s!"session '{name}' is already starting"
  | .flockFailed => throw "failed to lock session start"
  | .held =>
    let outcome ← caught body
    disk (.dropStartLock name)
    try_ outcome

/-- `acquire_status_lock`, held while `body` runs. -/
def withStatusLock {α : Type} (name : String) (body : Result α) : Result α := do
  match ← disk (.acquireStatusLock name) with
  | .openFailed => throw "failed to open session status lock"
  | .wouldBlock | .flockFailed => throw "failed to lock session status"
  | .held =>
    let outcome ← caught body
    disk (.dropStatusLock name)
    try_ outcome

/-- `mark_stopped`. -/
def markStopped (name : String) (exitStatus : Option String) (exitCode : Option ℕ)
    (generation : Option ℕ) (by_ : Stopper) : Result Unit := do
  sessionDir name
  withStatusLock name do
    let metadata ← loadMetadata name
    if generation.any (metadata.generation ≠ ·) then pure ()
    else if metadata.status = .stopped then pure ()
    else saveMetadata (.stopped by_) (metadata.markedStopped exitStatus exitCode)

/-- `session_is_active`. -/
def sessionIsActive (metadata : SessionMetadata) : Result Bool := do
  if metadata.status = .running then
    if ← proc (.pidIsOurs metadata.supervisorPid metadata.supervisorStartTime) then pure true
    else proc (.pidIsOurs metadata.childPid metadata.childStartTime)
  else pure false

/-! ## Starting -/

/-- `RAW_LOG` and `CLEAN_LOG`. -/
def Log.fileName : Log → String
  | .raw => "raw.log"
  | .clean => "clean.log"

/-- `rotate_previous_log`. -/
def rotatePreviousLog (env : Env) (log : Log) (name : String) : Result Unit := do
  match ← file (.logLength log name) with
  | some (_ + 1) =>
    ensure s!"failed to rotate {env.path name log.fileName}" (← file (.renameLog log name))
  | _ => pure ()

/-- The part of `initialize_session_files` that replaces the FIFO, rotates the
logs and creates the files of a new run. -/
def createFiles (env : Env) (name : String) : Result Unit := do
  if ← file (.fifoExists name) then
    ensure s!"failed to remove {env.inputFifo name}" (← file (.removeFifo name))
  ensure s!"failed to create {env.inputFifo name}" (← file (.mkfifo name))
  rotatePreviousLog env .raw name
  rotatePreviousLog env .clean name
  ensure "failed to create raw log" (← file (.createPrivateLog .raw name)).isSome
  ensure "failed to create clean log" (← file (.createPrivateLog .clean name)).isSome
  ensure "failed to create screen snapshot" (← file (.createScreen name))

/-- `initialize_session_files`. -/
def initializeSessionFiles (env : Env) (name cwd cmd : String) (rows cols : Option ℕ) :
    Result ℕ := do
  sessionDir name
  let command ← try_ (parseCommand env.split cmd)
  let previous ← caught (loadMetadata name)
  let generation := nextGeneration previous.toOption
  createFiles env name
  saveMetadata .initial (initialMetadata name cwd command generation rows cols)
  pure generation

/-- The error for a run that stopped before it was reported as running. -/
def stoppedWhileStarting (name : String) (metadata : SessionMetadata) : String :=
  let cause := metadata.exitStatus.getD "unknown failure"
  s!"session '{name}' stopped while starting: {cause}"

/-- The polling loop of `wait_for_running_metadata`. -/
def pollRunning (name : String) : ℕ → Result (Option SessionMetadata)
  | 0 => pure none
  | n + 1 => do
    let metadata ← loadMetadata name
    match metadata.status with
    | .running => pure (some metadata)
    | .stopped =>
      if metadata.exitCode = some 0 then pure (some metadata)
      else throw (stoppedWhileStarting name metadata)
    | .starting => pollRunning name n

/-- Signal a recorded process that is still ours, ignoring errors, and report
whether it is gone. -/
def terminateRecorded (pid startTime : Option ℕ) : Result Bool := do
  if ← proc (.pidIsOurs pid startTime) then
    match pid with
    | none => pure true
    | some pid => return (← proc (.terminatePid pid)).isOk
  else pure true

/-- `wait_for_running_metadata`. -/
def waitForRunningMetadata (name : String) : Result SessionMetadata := do
  match ← pollRunning name 50 with
  | some metadata => pure metadata
  | none =>
    match ← caught (loadMetadata name) with
    | .error _ => throw s!"session '{name}' did not report running within 5 seconds"
    | .ok metadata =>
      match metadata.status with
      | .running => pure metadata
      | .stopped =>
        if metadata.exitCode = some 0 then pure metadata
        else throw (stoppedWhileStarting name metadata)
      | .starting =>
        let _ ← terminateRecorded metadata.supervisorPid metadata.supervisorStartTime
        let terminated ← terminateRecorded metadata.childPid metadata.childStartTime
        let _ ← caught (markStopped name (some "start timed out") none
          (some metadata.generation) (.timeout metadata terminated))
        throw s!"session '{name}' did not report running within 5 seconds"

/-- The check of both start paths that the name is not in use. -/
def bailIfRunning (name : String) : Result Unit := do
  match ← caught (loadMetadata name) with
  | .ok metadata =>
    if ← sessionIsActive metadata then throw s!"session '{name}' is already running"
    else pure ()
  | .error _ => pure ()

/-- What both start paths do first under `start.lock`. -/
def beginRun (env : Env) (name cwd cmd : String) (rows cols : Option ℕ) : Result ℕ := do
  bailIfRunning name
  initializeSessionFiles env name cwd cmd rows cols

/-- `start_session_detached`. -/
def startSessionDetached (env : Env) (name : String) (cwd : Option String) (cmd : String)
    (rows cols : Option ℕ) : Result SessionMetadata := do
  sessionDir name
  let cwd ← try_ (← proc (.resolveCwd cwd))
  try_ (← disk (.ensureBridgeDir name))
  withStartLock name do
    let _ ← beginRun env name cwd cmd rows cols
    ensure "failed to locate current executable" (← proc (.attempt .locateExecutable))
    let _ ← orThrow "failed to spawn session supervisor" (← proc (.spawnSupervisor name cwd cmd))
    waitForRunningMetadata name

/-- `start_session_in_daemon`. -/
def startSessionInDaemon (env : Env) (name : String) (cwd : Option String) (cmd : String)
    (clientPath : Option String) (rows cols : Option ℕ) : Result SessionMetadata := do
  sessionDir name
  let cwd ← try_ (← proc (.resolveCwd cwd))
  try_ (← disk (.ensureBridgeDir name))
  withStartLock name do
    let generation ← beginRun env name cwd cmd rows cols
    let _ ← proc (.spawnOwner name cwd cmd clientPath generation)
    waitForRunningMetadata name

/-! ## Owning a run -/

/-- The command with its program resolved on the child's PATH. -/
def resolveCommand (env : Env) (clientPath : Option String) (command : List String) :
    List String :=
  match env.childPath clientPath, command with
  | some path, program :: arguments =>
    (env.resolveProgramPath program path).getD program :: arguments
  | _, _ => command

/-- Record the child, while still Starting. -/
def recordChild (name : String) (generation child : ℕ) (command : List String) : Result Unit :=
  withStatusLock name do
    let metadata ← loadMetadata name
    try_ (checkRunLive metadata generation name)
    let startTime ← proc (.processStartTime child)
    saveMetadata .child (metadata.withChild child startTime command)

/-- Promote the run to Running, unless a stop or a restart intervened. -/
def promote (name : String) (generation : ℕ) : Result Unit :=
  withStatusLock name do
    let metadata ← loadMetadata name
    try_ (checkRunLive metadata generation name)
    saveMetadata .promote metadata.promoted

/-- The worker threads of a PTY, from their start to their end. -/
def serveChild (name : String) (pty child fifo rows cols : ℕ) : Result (String × Option ℕ) := do
  let output ← proc (.spawnCapture name pty rows cols)
  let input ← proc (.spawnForward fifo pty)
  let (exitStatus, exitCode) ←
    orThrow "failed while waiting for child" (← proc (.childWait child))
  file (.storeStop .input pty)
  proc (.join input)
  proc (.drain output)
  file (.storeStop .output pty)
  proc (.join output)
  pure (exitStatus, some exitCode)

/-- What `supervise_pty` does while it holds its FIFO open itself. -/
def publish (name : String) (generation : ℕ) : Result Unit := do
  promote name generation
  ensure "failed to dup PTY master" (← proc (.attempt .dupMaster))
  ensure "failed to take PTY writer" (← proc (.attempt .takeWriter))

/-- What `supervise_pty` does once its child runs. A FIFO handle that was not
passed on is closed by an error. -/
def superviseChild (env : Env) (name : String) (generation pty child rows cols : ℕ)
    (command : List String) : Result (String × Option ℕ) := do
  recordChild name generation child command
  let fifo ← orThrow s!"failed to open {env.inputFifo name}" (← file (.openFifo name))
  match ← caught (publish name generation) with
  | .error e =>
    file (.closeFifo fifo)
    throw e
  | .ok _ => serveChild name pty child fifo rows cols

/-- `supervise_pty`. -/
def supervisePty (env : Env) (name cwd cmd : String) (clientPath : Option String)
    (generation : ℕ) : Result (String × Option ℕ) := do
  let command ← try_ (parseCommand env.split cmd)
  let command := resolveCommand env clientPath command
  sessionDir name
  let geometry := (← caught (loadMetadata name)).toOption.map fun m => (m.rows, m.cols)
  let (rows, cols) := geometry.getD (screenRows, screenCols)
  let pty ← orThrow "failed to open PTY" (← proc (.openPty rows cols))
  let child ← orThrow "failed to spawn command in PTY"
    (← proc (.spawnCommand command cwd (env.childPath clientPath)))
  match ← caught (superviseChild env name generation pty child rows cols command) with
  | .ok outcome => pure outcome
  | .error e =>
    let _ ← proc (.childKill child)
    let _ ← proc (.childWait child)
    throw e

/-- The end of an owner: its run is marked Stopped with what became of it. -/
def superviseAndMark (env : Env) (name cwd cmd : String) (clientPath : Option String)
    (generation : ℕ) : Result Unit := do
  match ← caught (supervisePty env name cwd cmd clientPath generation) with
  | .ok (exitStatus, exitCode) =>
    markStopped name (some exitStatus) exitCode (some generation) .owner
  | .error e => markStopped name (some e) none (some generation) .owner

/-- The supervisor's first section: it records its PID and adopts a generation. -/
def adoptRun (name : String) : Result ℕ :=
  withStatusLock name do
    let metadata ← loadMetadata name
    let pid ← proc .processId
    let startTime ← proc (.processStartTime pid)
    saveMetadata .supervisor (metadata.withSupervisor pid startTime)
    pure metadata.generation

/-- `run_supervisor`. -/
def runSupervisor (env : Env) (name cwd cmd : String) : Result Unit := do
  sessionDir name
  let generation ← adoptRun name
  superviseAndMark env name cwd cmd none generation

/-! ## Stopping -/

/-- `errors.join("; ")`. -/
def joined (errors : List String) : String := "; ".intercalate errors

/-- The error that a failed signal adds. -/
def signalErrors (kind : String) (pid : ℕ) : Except String Unit → List String
  | .ok _ => []
  | .error e => [s!"{kind} pid {pid}: {e}"]

/-- Signal a recorded process that is still ours, collecting an error. -/
def signalRecorded (kind : String) (pid startTime : Option ℕ) : Result (List String) := do
  if ← proc (.pidIsOurs pid startTime) then
    match pid with
    | none => pure []
    | some pid => return signalErrors kind pid (← proc (.terminatePid pid))
  else pure []

/-- `stop_session_silent`. -/
def stopSessionSilent (name : String) : Result Unit := do
  sessionDir name
  let metadata ← loadMetadata name
  if metadata.status = .stopped then pure ()
  else
    let childErrors ← signalRecorded "child" metadata.childPid metadata.childStartTime
    let supervisorErrors ←
      signalRecorded "supervisor" metadata.supervisorPid metadata.supervisorStartTime
    match childErrors ++ supervisorErrors with
    | [] =>
      markStopped name (some "stopped by user") none (some metadata.generation) (.stop metadata)
    | errors => throw s!"failed to stop session '{name}': {joined errors}"

/-- The sessions among the directory entries that are Running or Starting. -/
def activeSessions : List String → Result (List String)
  | [] => pure []
  | name :: entries => do
    let metadata ← caught (loadMetadata name)
    let sessions ← activeSessions entries
    match metadata with
    | .ok metadata =>
      if metadata.status = .stopped then pure sessions else pure (metadata.name :: sessions)
    | .error _ => pure sessions

/-- Stop sessions one after the other, collecting errors. -/
def stopAll : List String → Result (List String)
  | [] => pure []
  | name :: sessions => do
    let outcome ← caught (stopSessionSilent name)
    let errors ← stopAll sessions
    match outcome with
    | .ok _ => pure errors
    | .error e => pure (s!"{name}: {e}" :: errors)

/-- `shutdown_sessions_for_daemon`. A missing sessions directory has no entries. -/
def shutdownSessionsForDaemon (env : Env) : Result Unit := do
  match ← disk .readSessions with
  | .error _ => throw s!"failed to read {env.root}/sessions"
  | .ok entries =>
    let sessions ← activeSessions entries
    match ← stopAll (sessions.insertionSort (· ≤ ·)) with
    | [] => pure ()
    | errors => throw s!"failed to stop running sessions: {joined errors}"

/-! ## Input -/

/-- `write_all` on a FIFO. A write moves at least one byte, so there are at most
as many writes as bytes. -/
def writeAll (fifo : ℕ) : ℕ → List UInt8 → Result Unit
  | _, [] => pure ()
  | 0, _ :: _ => throw "failed to write input"
  | n + 1, byte :: bytes => do
    match ← file (.writeFifo fifo (byte :: bytes)) with
    | none | some 0 => throw "failed to write input"
    | some (count + 1) => writeAll fifo n (bytes.drop count)

/-- `write_session_bytes`. -/
def writeSessionBytes (name : String) (bytes : List UInt8) : Result Unit := do
  sessionDir name
  let metadata ← loadMetadata name
  if metadata.status ≠ .running then throw s!"session '{name}' is not running"
  match ← file (.openFifoWriter name) with
  | .noReader =>
    throw s!"session '{name}' has no input reader; it may still be starting or its owner exited"
  | .failed => throw s!"failed to open input FIFO for '{name}'"
  | .opened fifo =>
    ensure "failed to set FIFO blocking" (← proc (.attempt .clearNonblocking))
    writeAll fifo bytes.length bytes

/-- `send_input_silent`. -/
def sendInputSilent (name : String) (text : List UInt8) (noEnter : Bool) : Result Unit := do
  writeSessionBytes name text
  if noEnter then pure () else writeSessionBytes name [0x0d]

/-- `send_keys_silent`. -/
def sendKeysSilent (name : String) (keys : List String) : Result Unit := do
  if keys = [] then throw "at least one key is required"
  let bytes ← try_ (encodeKeys keys)
  writeSessionBytes name bytes

/-! ## Worker threads -/

/-- The end of a thread. -/
def leave (result : ThreadResult) : Prog ThreadResult := do
  Prog.proc .leave
  pure result

/-- `capture_output` up to its loop. -/
def captureOutput (name : String) (pty rows cols : ℕ) : Prog ThreadResult := do
  match ← Prog.file (.openAppend .raw name) with
  | none => leave .finished
  | some rawLog =>
    match ← Prog.file (.openAppend .clean name) with
    | none => leave .finished
    | some cleanLog => pure (.capturing ⟨name, pty, rows, cols, rawLog, cleanLog, {}, []⟩)

/-- A chunk goes to the three sinks, whose failures are ignored. -/
def captureChunk (env : Env) (state : CaptureState) (chunk : List UInt8) : Prog CaptureState := do
  let cleaned := state.cleaner.clean chunk
  let processed := state.processed ++ chunk
  let _ ← Prog.file (.append state.rawLog chunk)
  let _ ← Prog.file (.append state.cleanLog cleaned.2)
  let _ ← Prog.file (.writeScreen state.name (env.render state.rows state.cols processed))
  return { state with cleaner := cleaned.1, processed := processed }

/-- The body of the loop of `capture_output`. -/
def captureStep (env : Env) (state : CaptureState) : Prog ThreadResult := do
  if ← Prog.file (.loadStop .output state.pty) then leave .finished
  else
    match ← Prog.file (.pollPty state.pty) with
    | .failed => leave .finished
    | .idle => pure (.capturing state)
    | .ready =>
      match ← Prog.file (.readPty state.pty) with
      | none | some [] => leave .finished
      | some chunk => return .capturing (← captureChunk env state chunk)

/-- The end of `forward_input`, which drops its FIFO handle, and of its thread,
which drops the PTY writer. -/
def leaveForward (env : Env) (fifo pty : ℕ) : Prog ThreadResult := do
  Prog.file (.closeFifo fifo)
  Prog.file (.dropWriter pty env.farewell)
  leave .finished

/-- The body of the loop of `forward_input`. -/
def forwardStep (env : Env) (fifo pty : ℕ) : Prog ThreadResult := do
  if ← Prog.file (.loadStop .input pty) then leaveForward env fifo pty
  else
    match ← Prog.file (.readFifo fifo) with
    | none => leaveForward env fifo pty
    | some [] => pure (.forwarding fifo pty)
    | some bytes =>
      if ← Prog.file (.writePty pty bytes) then pure (.forwarding fifo pty)
      else leaveForward env fifo pty

/-! ## Threads -/

/-- The thread that owns a daemon's session. -/
def ownerThread (env : Env) (name cwd cmd : String) (clientPath : Option String)
    (generation : ℕ) : Prog ThreadResult := do
  let _ ← (superviseAndMark env name cwd cmd clientPath generation).run
  leave .finished

/-- The process that owns a direct session. -/
def supervisorMain (env : Env) (name cwd cmd : String) : Prog ThreadResult := do
  let _ ← (runSupervisor env name cwd cmd).run
  Prog.proc .processExit
  pure .finished

/-- The daemon's handling of Shutdown: it acknowledges, stops the sessions and exits. -/
def handleShutdown (env : Env) : Prog ThreadResult := do
  if ← Prog.proc (.attempt .respond) then
    let _ ← (shutdownSessionsForDaemon env).run
    Prog.proc .processExit
    pure .finished
  else leave .finished

/-- A request of a client. -/
inductive Command where
  | start (name : String) (cwd : Option String) (cmd : String) (path : Option String)
      (rows cols : Option ℕ)
  | send (name : String) (text : List UInt8) (noEnter : Bool)
  | keys (name : String) (keys : List String)
  | stop (name : String)
  | shutdown

/-- A request, and whether the daemon serves it. -/
structure Request where
  viaDaemon : Bool
  command : Command

/-- The reply to a request, and the end of the thread that serves it. -/
def reply {α : Type} (p : Result α) : Prog ThreadResult := do
  let outcome ← (p.run : Prog (Except String α))
  leave (.replied (outcome.map fun _ => ()))

/-- The thread that serves a request. -/
def Request.program (env : Env) (request : Request) : Prog ThreadResult :=
  match request.command with
  | .start name cwd cmd path rows cols =>
    if request.viaDaemon then reply (startSessionInDaemon env name cwd cmd path rows cols)
    else reply (startSessionDetached env name cwd cmd rows cols)
  | .send name text noEnter => reply (sendInputSilent name text noEnter)
  | .keys name keys => reply (sendKeysSilent name keys)
  | .stop name => reply (stopSessionSilent name)
  | .shutdown => if request.viaDaemon then handleShutdown env else leave .finished

/-- The thread that an action starts. -/
def launched (env : Env) : (a : Act) → a.Response → Option (ℕ × Prog ThreadResult)
  | .process (.spawnSupervisor name cwd cmd), some j => some (j, supervisorMain env name cwd cmd)
  | .process (.spawnOwner name cwd cmd clientPath generation), j =>
    some (j, ownerThread env name cwd cmd clientPath generation)
  | .process (.spawnCapture name pty rows cols), j => some (j, captureOutput name pty rows cols)
  | .process (.spawnForward fifo pty), j => some (j, pure (.forwarding fifo pty))
  | _, _ => none

/-- The next iteration of a worker's loop. -/
def again (env : Env) : ThreadResult → Option (Prog ThreadResult)
  | .capturing state => some (captureStep env state)
  | .forwarding fifo pty => some (forwardStep env fifo pty)
  | _ => none

/-- Clients, the daemon, supervisors and their threads, interleaved. -/
def bridge (env : Env) :
    System Act Act.Response ThreadResult World Choice World.Disturbance where
  alive := World.alive
  perform := World.perform
  launched := launched env
  again := again env
  disturb e w := w.disturb e

/-- No session was ever started, and every request is about to be served. -/
def World.fresh (requests : ℕ → Option Request) : World where
  directories := []
  metadata _ := none
  startLock _ := none
  statusLock _ := none
  process _ := .unborn
  daemonUp := true
  life i := match requests i with
    | some request => .live (if request.viaDaemon then .daemon else .client)
    | none => .unborn
  files :=
    { nextInode := 0
      fifo := fun _ => none
      readers := fun _ => []
      pipe := fun _ => []
      pieces := []
      inHand := fun _ => []
      ptyInput := fun _ => []
      ptyOutput := fun _ => []
      log := fun _ _ => none
      previousLog := fun _ _ => none
      contents := fun _ => []
      screen := fun _ => none
      stop := fun _ _ => false
      capture := fun _ => none
      holding := []
      forward := fun _ => none }
  inits _ := []
  loadedAt _ := none
  owner _ := none
  accounted := []
  scans := []
  unseen _ := []

/-- Every request waits in a thread of its own; nothing has been started yet. -/
def boot (env : Env) (requests : ℕ → Option Request) :
    Config Act Act.Response ThreadResult World where
  world := World.fresh requests
  thread i := match requests i with
    | some request => request.program env
    | none => pure .finished

/-- An environment where every command is one word. -/
def plainEnv : Env where
  root := "/bridge"
  split cmd := some [cmd]
  childPath _ := none
  resolveProgramPath _ _ := none
  render _ _ _ := []
  farewell eof := if eof = 0 then [] else [0x0a, eof]

/-- The requests of a list, one for each thread. -/
def served (requests : List Request) : ℕ → Option Request := fun i => requests[i]?

/-- A start of the session "demo". -/
def startDemo (viaDaemon : Bool) : Request :=
  ⟨viaDaemon, .start "demo" none "cat" none none none⟩

/-- A stop of the session "demo". -/
def stopDemo : Request := ⟨false, .stop "demo"⟩

/-- Actions of a thread that all succeed. -/
def steps (i n : ℕ) : List (Move Choice World.Disturbance) := List.replicate n (.run i {})

end IgnibyteBridge
