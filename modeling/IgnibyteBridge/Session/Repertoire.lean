import IgnibyteBridge.Session.Rules

/-!
# What each program does

The actions that the functions of the program perform, by kind. A discipline that
asks nothing of a kind needs no proof about the functions that keep to it.
-/

namespace IgnibyteBridge

open Concurrency Program Fallible

/-- Actions of starts and stops on one session: its records, its files, and
signals to the processes that the records name. -/
def Act.manages : Act → Bool
  | .disk (.acquireStatusLock _) | .disk (.dropStatusLock _) => true
  | .disk (.loadMetadata _) | .disk (.saveMetadata ..) => true
  | .process (.pidIsOurs ..) | .process (.terminatePid _) => true
  | .file (.fifoExists _) | .file (.removeFifo _) | .file (.mkfifo _) => true
  | .file (.logLength ..) | .file (.renameLog ..) => true
  | .file (.createPrivateLog ..) | .file (.createScreen _) => true
  | _ => false

/-- Actions of starts and stops outside their critical sections, but for the saves. -/
def Act.outside : Act → Bool
  | .disk (.acquireStatusLock _) | .disk (.dropStatusLock _) | .disk (.saveMetadata ..) => false
  | a => a.manages

/-- Actions of a start or a shutdown, which reach beyond one run. -/
def Act.directs : Act → Bool
  | .disk _ | .process (.resolveCwd _) | .process (.attempt _) => true
  | .process (.spawnSupervisor ..) | .process (.spawnOwner ..) => true
  | a => a.manages

/-- Actions of an owner on its record. -/
def Act.records : Act → Bool
  | .process .processId | .process (.processStartTime _) | .process (.attempt _) => true
  | a => a.manages

/-- Actions of an owner. -/
def Act.owns : Act → Bool
  | .process (.openPty ..) | .process (.spawnCommand ..) => true
  | .process (.childWait _) | .process (.childKill _) => true
  | .process (.spawnCapture ..) | .process (.spawnForward ..) => true
  | .process (.join _) | .process (.drain _) => true
  | .file (.openFifo _) | .file (.closeFifo _) | .file (.storeStop ..) => true
  | a => a.records

/-- Actions that send input. -/
def Act.sends : Act → Bool
  | .disk (.loadMetadata _) | .process (.attempt _) => true
  | .file (.openFifoWriter _) | .file (.writeFifo ..) => true
  | _ => false

/-- Actions of a capture thread, but for its end. -/
def Act.captures : Act → Bool
  | .file (.openAppend ..) | .file (.append ..) | .file (.writeScreen ..) => true
  | .file (.loadStop ..) | .file (.pollPty _) | .file (.readPty _) => true
  | _ => false

/-- Actions of an input forwarder, but for its end. -/
def Act.forwards : Act → Bool
  | .file (.loadStop ..) | .file (.readFifo _) | .file (.writePty ..) => true
  | .file (.closeFifo _) | .file (.dropWriter ..) => true
  | _ => false

/-- The end of a thread. -/
def Act.leaves : Act → Bool
  | .process .leave => true
  | _ => false

section Combinators

variable {P : Act → Prop} {α : Type}

/-- An action on directories, locks and records, as a whole program. -/
theorem performs_disk {a : DiskAct} (h : P (.disk a)) : Performs P (disk a) :=
  performs_lift ⟨h, fun _ _ => trivial⟩

/-- An action on processes and threads, as a whole program. -/
theorem performs_proc {a : ProcessAct} (h : P (.process a)) : Performs P (proc a) :=
  performs_lift ⟨h, fun _ _ => trivial⟩

/-- An action on FIFOs, logs, screens and PTYs, as a whole program. -/
theorem performs_file {a : FileAct} (h : P (.file a)) : Performs P (file a) :=
  performs_lift ⟨h, fun _ _ => trivial⟩

/-- Handling an error performs nothing more. -/
theorem performs_caught {p : Result α} (h : Performs P p) : Performs P (caught p) :=
  performs_lift h.run

/-- `?` performs nothing. -/
theorem performs_try (x : Except String α) : Performs P (try_ x) := by
  cases x with
  | ok a => trivial
  | error e => trivial

/-- `?` after a context performs nothing. -/
theorem performs_orThrow (context : String) (x : Option α) : Performs P (orThrow context x) := by
  cases x with
  | some a => trivial
  | none => trivial

/-- Checking that a call succeeded performs nothing. -/
theorem performs_ensure (context : String) (ok : Bool) : Performs P (ensure context ok) := by
  cases ok with
  | true => trivial
  | false => trivial

/-- A branch performs what the branch taken does. -/
theorem performs_ite {c : Prop} [Decidable c] {p q : Result α} (hp : Performs P p)
    (hq : Performs P q) : Performs P (if c then p else q) := by
  split
  · exact hp
  · exact hq

/-- Checking a name performs nothing. -/
theorem performs_sessionDir (name : String) : Performs P (sessionDir name) := performs_try _

end Combinators

/-! ## Starts and stops -/

section Outside

variable {P : Act → Prop} (h : ∀ a : Act, a.outside = true → P a)

include h

/-- A load is no part of a critical section. -/
theorem outside_loadMetadata (name : String) : Performs P (loadMetadata name) := by
  refine (performs_sessionDir name).bind fun _ => ?_
  exact (performs_disk (h _ rfl)).bind fun loaded => performs_try loaded

/-- The check for an active session looks at processes only. -/
theorem outside_sessionIsActive (m : SessionMetadata) : Performs P (sessionIsActive m) := by
  refine performs_ite ?_ trivial
  refine (performs_proc (h _ rfl)).bind fun supervised => ?_
  exact performs_ite trivial (performs_proc (h _ rfl))

/-- The check that a name is free loads the record and looks at processes. -/
theorem outside_bailIfRunning (name : String) : Performs P (bailIfRunning name) := by
  refine (performs_caught (outside_loadMetadata h name)).bind fun r => ?_
  cases r with
  | ok m => exact (outside_sessionIsActive h m).bind fun active => performs_ite trivial trivial
  | error e => trivial

/-- A rotation works on one log of the session. -/
theorem outside_rotatePreviousLog (env : Env) (log : Log) (name : String) :
    Performs P (rotatePreviousLog env log name) := by
  refine (performs_file (h _ rfl)).bind fun length => ?_
  split
  · exact (performs_file (h _ rfl)).bind fun renamed => performs_ensure _ renamed
  · trivial

/-- The files of a new run are made without a lock of their own. -/
theorem outside_createFiles (env : Env) (name : String) : Performs P (createFiles env name) := by
  have hmake : Performs P (do
      ensure s!"failed to create {env.inputFifo name}" (← file (.mkfifo name))
      rotatePreviousLog env .raw name
      rotatePreviousLog env .clean name
      ensure "failed to create raw log" (← file (.createPrivateLog .raw name)).isSome
      ensure "failed to create clean log" (← file (.createPrivateLog .clean name)).isSome
      ensure "failed to create screen snapshot" (← file (.createScreen name))) := by
    refine (performs_file (h _ rfl)).bind fun made => ?_
    refine (performs_ensure _ made).bind fun _ => ?_
    refine (outside_rotatePreviousLog h env .raw name).bind fun _ => ?_
    refine (outside_rotatePreviousLog h env .clean name).bind fun _ => ?_
    refine (performs_file (h _ rfl)).bind fun rawLog => ?_
    refine (performs_ensure _ rawLog.isSome).bind fun _ => ?_
    refine (performs_file (h _ rfl)).bind fun cleanLog => ?_
    refine (performs_ensure _ cleanLog.isSome).bind fun _ => ?_
    exact (performs_file (h _ rfl)).bind fun screen => performs_ensure _ screen
  refine (performs_file (h _ rfl)).bind fun present => ?_
  split
  · refine (performs_file (h _ rfl)).bind fun removed => ?_
    exact (performs_ensure _ removed).bind fun _ => hmake
  · exact hmake

/-- Each poll of a start is a load. -/
theorem outside_pollRunning (name : String) (n : ℕ) : Performs P (pollRunning name n) := by
  induction n with
  | zero => trivial
  | succ n ih =>
    refine (outside_loadMetadata h name).bind fun m => ?_
    cases m.status with
    | running => trivial
    | stopped => exact performs_ite trivial trivial
    | starting => exact ih

/-- A process of a start that timed out is looked at before it is signalled. -/
theorem outside_terminateRecorded (pid startTime : Option ℕ) :
    Performs P (terminateRecorded pid startTime) := by
  refine (performs_proc (h _ rfl)).bind fun ours => ?_
  refine performs_ite ?_ trivial
  cases pid with
  | none => trivial
  | some p => exact (performs_proc (h _ rfl)).bind fun terminated => trivial

/-- A process that a stop signals is looked at before it is signalled. -/
theorem outside_signalRecorded (kind : String) (pid startTime : Option ℕ) :
    Performs P (signalRecorded kind pid startTime) := by
  refine (performs_proc (h _ rfl)).bind fun ours => ?_
  refine performs_ite ?_ trivial
  cases pid with
  | none => trivial
  | some p => exact (performs_proc (h _ rfl)).bind fun terminated => trivial

end Outside

section Managing

variable {P : Act → Prop} (h : ∀ a : Act, a.manages = true → P a) {α : Type}

include h

/-- What is done outside critical sections manages a session. -/
theorem outside_of_manages (a : Act) (ha : a.outside = true) : P a := by
  refine h a ?_
  unfold Act.outside at ha
  split at ha
  · cases ha
  · cases ha
  · cases ha
  · exact ha

/-- A load manages a session. -/
theorem performs_loadMetadata (name : String) : Performs P (loadMetadata name) :=
  outside_loadMetadata (outside_of_manages h) name

/-- A save manages a session. -/
theorem performs_saveMetadata (site : Site) (m : SessionMetadata) :
    Performs P (saveMetadata site m) := by
  refine (performs_sessionDir m.name).bind fun _ => ?_
  exact (performs_disk (h _ rfl)).bind fun saved => performs_try saved

/-- A critical section takes `status.lock`, does its work and drops the lock. -/
theorem performs_withStatusLock (name : String) {body : Result α} (hbody : Performs P body) :
    Performs P (withStatusLock name body) := by
  refine (performs_disk (h _ rfl)).bind fun r => ?_
  cases r with
  | held =>
    refine (performs_caught hbody).bind fun outcome => ?_
    exact (performs_disk (h _ rfl)).bind fun _ => performs_try outcome
  | _ => trivial

/-- Marking a run Stopped loads and saves its record under the lock. -/
theorem performs_markStopped (name : String) (exitStatus : Option String)
    (exitCode generation : Option ℕ) (by_ : Stopper) :
    Performs P (markStopped name exitStatus exitCode generation by_) := by
  refine (performs_sessionDir name).bind fun _ => performs_withStatusLock h name ?_
  refine (performs_loadMetadata h name).bind fun metadata => ?_
  exact performs_ite trivial (performs_ite trivial (performs_saveMetadata h _ _))

/-- The beginning of a start: the check of the name, the files and the initial record. -/
theorem performs_beginRun (env : Env) (name cwd cmd : String) (rows cols : Option ℕ) :
    Performs P (beginRun env name cwd cmd rows cols) := by
  refine (outside_bailIfRunning (outside_of_manages h) name).bind fun _ => ?_
  refine (performs_sessionDir name).bind fun _ => ?_
  refine (performs_try _).bind fun command => ?_
  refine (performs_caught (performs_loadMetadata h name)).bind fun previous => ?_
  refine (outside_createFiles (outside_of_manages h) env name).bind fun _ => ?_
  exact (performs_saveMetadata h _ _).bind fun _ => trivial

/-- The end of a start: it polls the record, and cleans up when that took too long. -/
theorem performs_waitForRunningMetadata (name : String) :
    Performs P (waitForRunningMetadata name) := by
  have hterminate := fun pid startTime =>
    outside_terminateRecorded (outside_of_manages h) pid startTime
  refine (outside_pollRunning (outside_of_manages h) name 50).bind fun r => ?_
  cases r with
  | some m => trivial
  | none =>
    refine (performs_caught (performs_loadMetadata h name)).bind fun r => ?_
    cases r with
    | error e => trivial
    | ok m =>
      dsimp only
      cases m.status with
      | running => trivial
      | stopped => exact performs_ite trivial trivial
      | starting =>
        refine (hterminate _ _).bind fun _ => ?_
        refine (hterminate _ _).bind fun terminated => ?_
        exact (performs_caught (performs_markStopped h ..)).bind fun _ => trivial

/-- A stop signals the recorded processes and marks the run it decided on. -/
theorem performs_stopSessionSilent (name : String) : Performs P (stopSessionSilent name) := by
  have hsignal := fun kind pid startTime =>
    outside_signalRecorded (outside_of_manages h) kind pid startTime
  refine (performs_sessionDir name).bind fun _ => ?_
  refine (performs_loadMetadata h name).bind fun m => performs_ite trivial ?_
  refine (hsignal _ _ _).bind fun childErrors => ?_
  refine (hsignal _ _ _).bind fun supervisorErrors => ?_
  split
  · exact performs_markStopped h ..
  · trivial

end Managing

/-! ## Owners -/

section Recording

variable {P : Act → Prop} (h : ∀ a : Act, a.records = true → P a)

include h

/-- An owner does to its record what starts and stops do. -/
theorem manages_of_records (a : Act) (ha : a.manages = true) : P a := by
  refine h a ?_
  unfold Act.records
  split <;> first | rfl | exact ha

/-- The child is recorded under the lock. -/
theorem performs_recordChild (name : String) (generation child : ℕ) (command : List String) :
    Performs P (recordChild name generation child command) := by
  refine performs_withStatusLock (manages_of_records h) name ?_
  refine (performs_loadMetadata (manages_of_records h) name).bind fun metadata => ?_
  refine (performs_try _).bind fun _ => ?_
  refine (performs_proc (h _ rfl)).bind fun startTime => ?_
  exact performs_saveMetadata (manages_of_records h) _ _

/-- The run is promoted under the lock. -/
theorem performs_promote (name : String) (generation : ℕ) :
    Performs P (promote name generation) := by
  refine performs_withStatusLock (manages_of_records h) name ?_
  refine (performs_loadMetadata (manages_of_records h) name).bind fun metadata => ?_
  exact (performs_try _).bind fun _ => performs_saveMetadata (manages_of_records h) _ _

/-- After its promotion an owner makes two calls on the PTY. -/
theorem performs_publish (name : String) (generation : ℕ) :
    Performs P (publish name generation) := by
  refine (performs_promote h name generation).bind fun _ => ?_
  refine (performs_proc (h _ rfl)).bind fun dupped => ?_
  refine (performs_ensure _ dupped).bind fun _ => ?_
  exact (performs_proc (h _ rfl)).bind fun taken => performs_ensure _ taken

/-- A supervisor records itself under the lock. -/
theorem performs_adoptRun (name : String) : Performs P (adoptRun name) := by
  refine performs_withStatusLock (manages_of_records h) name ?_
  refine (performs_loadMetadata (manages_of_records h) name).bind fun metadata => ?_
  refine (performs_proc (h _ rfl)).bind fun pid => ?_
  refine (performs_proc (h _ rfl)).bind fun startTime => ?_
  exact (performs_saveMetadata (manages_of_records h) _ _).bind fun _ => trivial

end Recording

section Owning

variable {P : Act → Prop} (h : ∀ a : Act, a.owns = true → P a)

include h

/-- An owner works on its record. -/
theorem records_of_owns (a : Act) (ha : a.records = true) : P a := by
  refine h a ?_
  unfold Act.owns
  split <;> first | rfl | exact ha

/-- An owner does to its session what starts and stops do. -/
theorem manages_of_owns (a : Act) (ha : a.manages = true) : P a :=
  manages_of_records (records_of_owns h) a ha

/-- Serving a child: two worker threads, the wait, and the end of both threads. -/
theorem performs_serveChild (name : String) (pty child fifo rows cols : ℕ) :
    Performs P (serveChild name pty child fifo rows cols) := by
  refine (performs_proc (h _ rfl)).bind fun output => ?_
  refine (performs_proc (h _ rfl)).bind fun input => ?_
  refine (performs_proc (h _ rfl)).bind fun waited => ?_
  refine (performs_orThrow _ waited).bind fun ended => ?_
  refine (performs_file (h _ rfl)).bind fun _ => ?_
  refine (performs_proc (h _ rfl)).bind fun _ => ?_
  refine (performs_proc (h _ rfl)).bind fun _ => ?_
  refine (performs_file (h _ rfl)).bind fun _ => ?_
  exact (performs_proc (h _ rfl)).bind fun _ => trivial

/-- A FIFO that was opened is passed on, or closed. -/
theorem performs_superviseChild (env : Env) (name : String) (generation pty child rows cols : ℕ)
    (command : List String) :
    Performs P (superviseChild env name generation pty child rows cols command) := by
  refine (performs_recordChild (records_of_owns h) ..).bind fun _ => ?_
  refine (performs_file (h _ rfl)).bind fun opened => ?_
  refine (performs_orThrow _ opened).bind fun fifo => ?_
  refine (performs_caught (performs_publish (records_of_owns h) ..)).bind fun r => ?_
  cases r with
  | error e => exact (performs_file (h _ rfl)).bind fun _ => trivial
  | ok u => exact performs_serveChild h ..

/-- A child that was spawned is served, or killed and waited for. -/
theorem performs_supervisePty (env : Env) (name cwd cmd : String) (clientPath : Option String)
    (generation : ℕ) : Performs P (supervisePty env name cwd cmd clientPath generation) := by
  refine (performs_try _).bind fun command => ?_
  refine (performs_sessionDir name).bind fun _ => ?_
  refine (performs_caught (performs_loadMetadata (manages_of_owns h) name)).bind fun geometry => ?_
  refine (performs_proc (h _ rfl)).bind fun opened => ?_
  refine (performs_orThrow _ opened).bind fun pty => ?_
  refine (performs_proc (h _ rfl)).bind fun spawned => ?_
  refine (performs_orThrow _ spawned).bind fun child => ?_
  refine (performs_caught (performs_superviseChild h ..)).bind fun r => ?_
  cases r with
  | ok outcome => trivial
  | error e =>
    refine (performs_proc (h _ rfl)).bind fun _ => ?_
    exact (performs_proc (h _ rfl)).bind fun _ => trivial

/-- An owner that is done marks its run, whatever became of it. -/
theorem performs_superviseAndMark (env : Env) (name cwd cmd : String) (clientPath : Option String)
    (generation : ℕ) : Performs P (superviseAndMark env name cwd cmd clientPath generation) := by
  refine (performs_caught (performs_supervisePty h ..)).bind fun r => ?_
  cases r with
  | ok outcome => exact performs_markStopped (manages_of_owns h) ..
  | error e => exact performs_markStopped (manages_of_owns h) ..

/-- A supervisor adopts a run and owns it. -/
theorem performs_runSupervisor (env : Env) (name cwd cmd : String) :
    Performs P (runSupervisor env name cwd cmd) := by
  refine (performs_sessionDir name).bind fun _ => ?_
  refine (performs_adoptRun (records_of_owns h) name).bind fun generation => ?_
  exact performs_superviseAndMark h ..

end Owning

/-! ## Requests -/

section Directing

variable {P : Act → Prop} (h : ∀ a : Act, a.directs = true → P a) {α : Type}

include h

/-- A start or a shutdown does to a session what stops do. -/
theorem manages_of_directs (a : Act) (ha : a.manages = true) : P a := by
  refine h a ?_
  unfold Act.directs
  split <;> first | rfl | exact ha

/-- A start holds `start.lock` while it works. -/
theorem performs_withStartLock (name : String) {body : Result α} (hbody : Performs P body) :
    Performs P (withStartLock name body) := by
  refine (performs_disk (h _ rfl)).bind fun r => ?_
  cases r with
  | held =>
    refine (performs_caught hbody).bind fun outcome => ?_
    exact (performs_disk (h _ rfl)).bind fun _ => performs_try outcome
  | _ => trivial

/-- A direct start spawns a supervisor. -/
theorem performs_startSessionDetached (env : Env) (name : String) (cwd : Option String)
    (cmd : String) (rows cols : Option ℕ) :
    Performs P (startSessionDetached env name cwd cmd rows cols) := by
  refine (performs_sessionDir name).bind fun _ => ?_
  refine (performs_proc (h _ rfl)).bind fun resolved => ?_
  refine (performs_try resolved).bind fun cwd => ?_
  refine (performs_disk (h _ rfl)).bind fun ensured => ?_
  refine (performs_try ensured).bind fun _ => performs_withStartLock h name ?_
  refine (performs_beginRun (manages_of_directs h) ..).bind fun _ => ?_
  refine (performs_proc (h _ rfl)).bind fun located => ?_
  refine (performs_ensure _ located).bind fun _ => ?_
  refine (performs_proc (h _ rfl)).bind fun spawned => ?_
  refine (performs_orThrow _ spawned).bind fun _ => ?_
  exact performs_waitForRunningMetadata (manages_of_directs h) name

/-- A start in the daemon spawns an owner thread. -/
theorem performs_startSessionInDaemon (env : Env) (name : String) (cwd : Option String)
    (cmd : String) (clientPath : Option String) (rows cols : Option ℕ) :
    Performs P (startSessionInDaemon env name cwd cmd clientPath rows cols) := by
  refine (performs_sessionDir name).bind fun _ => ?_
  refine (performs_proc (h _ rfl)).bind fun resolved => ?_
  refine (performs_try resolved).bind fun cwd => ?_
  refine (performs_disk (h _ rfl)).bind fun ensured => ?_
  refine (performs_try ensured).bind fun _ => performs_withStartLock h name ?_
  refine (performs_beginRun (manages_of_directs h) ..).bind fun generation => ?_
  refine (performs_proc (h _ rfl)).bind fun _ => ?_
  exact performs_waitForRunningMetadata (manages_of_directs h) name

/-- A shutdown loads the record of each session that it listed. -/
theorem performs_activeSessions (names : List String) : Performs P (activeSessions names) := by
  induction names with
  | nil => trivial
  | cons name names ih =>
    refine (performs_caught (performs_loadMetadata (manages_of_directs h) name)).bind fun r => ?_
    refine ih.bind fun sessions => ?_
    cases r with
    | ok m => exact performs_ite trivial trivial
    | error e => trivial

/-- A shutdown stops the active sessions one after the other. -/
theorem performs_stopAll (names : List String) : Performs P (stopAll names) := by
  induction names with
  | nil => trivial
  | cons name names ih =>
    have hstop := performs_stopSessionSilent (manages_of_directs h) name
    refine (performs_caught hstop).bind fun r => ih.bind fun errors => ?_
    cases r with
    | ok u => trivial
    | error e => trivial

/-- A shutdown lists the sessions, looks for the active ones and stops them. -/
theorem performs_shutdownSessionsForDaemon (env : Env) :
    Performs P (shutdownSessionsForDaemon env) := by
  refine (performs_disk (h _ rfl)).bind fun r => ?_
  cases r with
  | error e => trivial
  | ok entries =>
    refine (performs_activeSessions h entries).bind fun sessions => ?_
    refine (performs_stopAll h _).bind fun errors => ?_
    split
    · trivial
    · trivial

end Directing

section Sending

variable {P : Act → Prop} (h : ∀ a : Act, a.sends = true → P a)

include h

/-- `write_all` only writes. -/
theorem performs_writeAll (fifo n : ℕ) (bytes : List UInt8) :
    Performs P (writeAll fifo n bytes) := by
  induction n generalizing bytes with
  | zero =>
    cases bytes with
    | nil => trivial
    | cons byte bytes => trivial
  | succ n ih =>
    cases bytes with
    | nil => trivial
    | cons byte bytes =>
      refine (performs_file (h _ rfl)).bind fun r => ?_
      split
      · trivial
      · trivial
      · exact ih _

/-- One delivery loads the record, opens the FIFO and writes. -/
theorem performs_writeSessionBytes (name : String) (bytes : List UInt8) :
    Performs P (writeSessionBytes name bytes) := by
  have hload : Performs P (loadMetadata name) := by
    refine (performs_sessionDir name).bind fun _ => ?_
    exact (performs_disk (h _ rfl)).bind fun loaded => performs_try loaded
  refine (performs_sessionDir name).bind fun _ => hload.bind fun m => ?_
  split
  · trivial
  · refine (performs_file (h _ rfl)).bind fun r => ?_
    cases r with
    | opened fifo =>
      refine (performs_proc (h _ rfl)).bind fun cleared => ?_
      exact (performs_ensure _ cleared).bind fun _ => performs_writeAll h fifo _ bytes
    | _ => trivial

/-- A send delivers its text and then its carriage return. -/
theorem performs_sendInputSilent (name : String) (text : List UInt8) (noEnter : Bool) :
    Performs P (sendInputSilent name text noEnter) := by
  refine (performs_writeSessionBytes h name text).bind fun _ => ?_
  exact performs_ite trivial (performs_writeSessionBytes h name _)

/-- Keys are encoded and delivered at once. -/
theorem performs_sendKeysSilent (name : String) (keys : List String) :
    Performs P (sendKeysSilent name keys) := by
  unfold sendKeysSilent
  split
  · trivial
  · exact (performs_try _).bind fun bytes => performs_writeSessionBytes h name bytes

end Sending

/-! ## Worker threads -/

section Working

variable {P : Act → Prop} (hleave : ∀ a : Act, a.leaves = true → P a)

include hleave

/-- A thread that leaves does nothing else. -/
theorem only_leave {S : ThreadResult → Prop} {result : ThreadResult} (h : S result) :
    Program.Only P S (leave result) :=
  ⟨hleave _ rfl, fun _ _ => h⟩

/-- A capture thread ends, or goes on. -/
theorem only_captureOutput (h : ∀ a : Act, a.captures = true → P a) (name : String)
    (pty rows cols : ℕ) :
    Program.Only P (fun result => result = .finished ∨ ∃ state, result = .capturing state)
      (captureOutput name pty rows cols) := by
  refine ⟨h _ rfl, fun r _ => ?_⟩
  cases r with
  | none => exact only_leave hleave (.inl rfl)
  | some rawLog =>
    refine ⟨h _ rfl, fun r _ => ?_⟩
    cases r with
    | none => exact only_leave hleave (.inl rfl)
    | some cleanLog => exact .inr ⟨_, rfl⟩

/-- Each iteration of a capture thread ends it, or goes on. -/
theorem only_captureStep (h : ∀ a : Act, a.captures = true → P a) (env : Env)
    (state : CaptureState) :
    Program.Only P (fun result => result = .finished ∨ ∃ state, result = .capturing state)
      (captureStep env state) := by
  refine ⟨h _ rfl, fun stop _ => ?_⟩
  cases stop with
  | true => exact only_leave hleave (.inl rfl)
  | false =>
    refine ⟨h _ rfl, fun r _ => ?_⟩
    cases r with
    | failed => exact only_leave hleave (.inl rfl)
    | idle => exact .inr ⟨state, rfl⟩
    | ready =>
      refine ⟨h _ rfl, fun r _ => ?_⟩
      match r with
      | none => exact only_leave hleave (.inl rfl)
      | some [] => exact only_leave hleave (.inl rfl)
      | some (byte :: bytes) =>
        -- The chunk goes to the raw log, the clean log and the screen.
        refine ⟨h _ rfl, fun raw _ => ?_⟩
        refine ⟨h _ rfl, fun clean _ => ?_⟩
        exact ⟨h _ rfl, fun screen _ => .inr ⟨_, rfl⟩⟩

/-- A forwarder ends, or goes on as it was. -/
theorem only_forwardStep (h : ∀ a : Act, a.forwards = true → P a) (env : Env) (fifo pty : ℕ) :
    Program.Only P (fun result => result = .finished ∨ result = .forwarding fifo pty)
      (forwardStep env fifo pty) := by
  have hend : Program.Only P (fun result => result = .finished ∨ result = .forwarding fifo pty)
      (leaveForward env fifo pty) := by
    refine ⟨h _ rfl, fun closed _ => ?_⟩
    exact ⟨h _ rfl, fun dropped _ => only_leave hleave (.inl rfl)⟩
  refine ⟨h _ rfl, fun stop _ => ?_⟩
  cases stop with
  | true => exact hend
  | false =>
    refine ⟨h _ rfl, fun r _ => ?_⟩
    match r with
    | none => exact hend
    | some [] => exact .inr rfl
    | some (byte :: bytes) =>
      refine ⟨h _ rfl, fun ok _ => ?_⟩
      cases ok with
      | true => exact .inr rfl
      | false => exact hend

end Working

end IgnibyteBridge
