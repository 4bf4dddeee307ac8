import IgnibyteBridge.Concurrency.Keeping
import IgnibyteBridge.Session.Repertoire
import IgnibyteBridge.Session.Steps

/-!
# Invariants of all threads

A thread holds `status.lock` in four functions, and a start saves its initial record
without it. An invariant of a thread's ghost state that these keep, and that every other
action keeps, holds of every thread that the system runs.
-/

namespace IgnibyteBridge

open Concurrency Program Fallible

/-- Actions outside the critical sections, but for the saves. -/
def Act.unguarded : Act → Bool
  | .disk (.acquireStatusLock _) | .disk (.dropStatusLock _) | .disk (.saveMetadata ..) => false
  | .process .processId => false
  | _ => true

/-- What starts and stops do outside their critical sections is unguarded. -/
theorem unguarded_of_outside (a : Act) (h : a.outside = true) : a.unguarded = true := by
  unfold Act.outside at h
  unfold Act.unguarded
  split <;> first | rfl | cases h

/-- Sending input is unguarded. -/
theorem unguarded_of_sends (a : Act) (h : a.sends = true) : a.unguarded = true := by
  unfold Act.unguarded
  split <;> first | rfl | cases h

/-- Capturing output is unguarded. -/
theorem unguarded_of_captures (a : Act) (h : a.captures = true) : a.unguarded = true := by
  unfold Act.unguarded
  split <;> first | rfl | cases h

/-- Forwarding input is unguarded. -/
theorem unguarded_of_forwards (a : Act) (h : a.forwards = true) : a.unguarded = true := by
  unfold Act.unguarded
  split <;> first | rfl | cases h

/-- The end of a thread is unguarded. -/
theorem unguarded_of_leaves (a : Act) (h : a.leaves = true) : a.unguarded = true := by
  unfold Act.unguarded
  split <;> first | rfl | cases h

/-- A parsed command is not empty. -/
theorem ne_nil_of_parseCommand {split : String → Option (List String)} {cmd : String}
    {command : List String} (h : parseCommand split cmd = .ok command) : command ≠ [] := by
  unfold parseCommand at h
  split at h
  · cases h
  · cases h
  · next hne _ =>
    cases h
    rintro rfl
    exact absurd rfl hne

/-- Resolving the program of a command leaves a command. -/
theorem resolveCommand_ne_nil (env : Env) (clientPath : Option String) {command : List String}
    (h : command ≠ []) : resolveCommand env clientPath command ≠ [] := by
  unfold resolveCommand
  split
  · simp
  · exact h

variable {G : Type}

/-- What the invariant `I` of a thread's ghost state has to survive if no owner runs. -/
structure Conduct (env : Env) (D : Discipline Act Act.Response G) (I : G → Prop) : Prop where
  allowed : ∀ {a g}, a.unguarded = true → I g → D.pre a g
  unguarded : ∀ {a g r}, a.unguarded = true → I g → D.fact a g r → I (D.post a g r)
  initial : ∀ (name cwd : String) {cmd : String} {command : List String}
    (previous : Option SessionMetadata) (rows cols : Option ℕ),
    parseCommand env.split cmd = .ok command →
    Keeps D I (saveMetadata .initial
      (initialMetadata name cwd command (nextGeneration previous) rows cols))
  markUnfinished : ∀ (name exitStatus : String) (generation : Option ℕ) (by_ : Stopper),
    Keeps D I (markStopped name (some exitStatus) none generation by_)

/-- What the invariant `I` of a thread's ghost state has to survive. -/
structure Upkeep (env : Env) (D : Discipline Act Act.Response G) (I : G → Prop) : Prop
    extends Conduct env D I where
  recordChild : ∀ (name : String) (generation child : ℕ) {command : List String}, command ≠ [] →
    Keeps D I (recordChild name generation child command)
  promote : ∀ (name : String) (generation : ℕ), Keeps D I (promote name generation)
  markFinished : ∀ (name exitStatus : String) (exitCode : ℕ) (generation : Option ℕ),
    Keeps D I (markStopped name (some exitStatus) (some exitCode) generation .owner)

section Combinators

variable {D : Discipline Act Act.Response G} {I : G → Prop} {α β : Type}

/-- Handling an error changes nothing. -/
theorem keeps_caught {p : Result α} (h : Keeps D I p) : Keeps D I (caught p) := by
  constructor
  intro g hg
  rw [meets_caught]
  exact h.meets g hg

/-- What follows a value that was not an error. -/
theorem keeps_try_bind {x : Except String α} {f : α → Result β}
    (h : ∀ a, x = .ok a → Keeps D I (f a)) : Keeps D I (try_ x >>= f) := by
  cases x with
  | ok a => exact h a rfl
  | error e => exact keeps_throw e

/-- `?` changes nothing. -/
theorem keeps_try (x : Except String α) : Keeps D I (try_ x) := by
  cases x with
  | ok a => exact keeps_pure a
  | error e => exact keeps_throw e

/-- `?` after a context changes nothing. -/
theorem keeps_orThrow (context : String) (x : Option α) : Keeps D I (orThrow context x) := by
  cases x with
  | some a => exact keeps_pure a
  | none => exact keeps_throw context

/-- Checking that a call succeeded changes nothing. -/
theorem keeps_ensure (context : String) (ok : Bool) : Keeps D I (ensure context ok) := by
  cases ok with
  | true => exact keeps_pure ()
  | false => exact keeps_throw context

/-- Checking a name changes nothing. -/
theorem keeps_sessionDir (name : String) : Keeps D I (sessionDir name) := keeps_try _

end Combinators

namespace Conduct

variable {env : Env} {D : Discipline Act Act.Response G} {I : G → Prop} (h : Conduct env D I)
  {α : Type}

include h

/-- A program without critical sections. -/
theorem performs {p : Result α} (hp : Performs (fun a => a.unguarded = true) p) : Keeps D I p :=
  hp.keeps (fun _ _ => h.allowed) fun _ _ _ => h.unguarded

/-- A thread's program without critical sections. -/
theorem only {p : Prog α} {S : α → Prop} (hp : p.Only (fun a => a.unguarded = true) S) :
    p.Maintains D I :=
  hp.maintains (fun _ _ => h.allowed) fun _ _ _ => h.unguarded

/-- An unguarded action on directories, locks and records. -/
theorem disk {a : DiskAct} (ha : Act.unguarded (.disk a) = true) :
    Keeps D I (IgnibyteBridge.disk a) :=
  h.performs (performs_disk ha)

/-- An unguarded action on processes and threads. -/
theorem proc {a : ProcessAct} (ha : Act.unguarded (.process a) = true) :
    Keeps D I (IgnibyteBridge.proc a) :=
  h.performs (performs_proc ha)

/-- Any action on FIFOs, logs, screens and PTYs. -/
theorem file {a : FileAct} : Keeps D I (IgnibyteBridge.file a) := h.performs (performs_file rfl)

/-- Loading a record. -/
theorem loadMetadata (name : String) : Keeps D I (IgnibyteBridge.loadMetadata name) :=
  h.performs (outside_loadMetadata unguarded_of_outside name)

/-! ### Starts and stops -/

/-- A start makes the files of its run and saves the initial record. -/
theorem initializeSessionFiles (name cwd cmd : String) (rows cols : Option ℕ) :
    Keeps D I (initializeSessionFiles env name cwd cmd rows cols) := by
  refine (keeps_sessionDir name).bind fun _ => ?_
  refine keeps_try_bind fun command hcommand => ?_
  refine (keeps_caught (h.loadMetadata name)).bind fun previous => ?_
  refine (h.performs (outside_createFiles unguarded_of_outside env name)).bind fun _ => ?_
  exact (h.initial name cwd _ rows cols hcommand).bind fun _ => keeps_pure _

/-- A start looks for an active session first. -/
theorem beginRun (name cwd cmd : String) (rows cols : Option ℕ) :
    Keeps D I (beginRun env name cwd cmd rows cols) := by
  refine (h.performs (outside_bailIfRunning unguarded_of_outside name)).bind fun _ => ?_
  exact h.initializeSessionFiles name cwd cmd rows cols

/-- Signalling a process of a start that timed out. -/
theorem terminateRecorded (pid startTime : Option ℕ) :
    Keeps D I (terminateRecorded pid startTime) :=
  h.performs (outside_terminateRecorded unguarded_of_outside pid startTime)

/-- The wait of a start, with its clean-up after a timeout. -/
theorem waitForRunningMetadata (name : String) :
    Keeps D I (waitForRunningMetadata name) := by
  refine (h.performs (outside_pollRunning unguarded_of_outside name 50)).bind fun r => ?_
  cases r with
  | some m => exact keeps_pure m
  | none =>
    refine (keeps_caught (h.loadMetadata name)).bind fun r => ?_
    cases r with
    | error e => exact keeps_throw _
    | ok m =>
      dsimp only
      cases m.status with
      | running => exact keeps_pure m
      | stopped => exact (keeps_pure m).ite (keeps_throw _)
      | starting =>
        refine (h.terminateRecorded ..).bind fun _ => ?_
        refine (h.terminateRecorded ..).bind fun terminated => ?_
        exact (keeps_caught (h.markUnfinished ..)).bind fun _ => keeps_throw _

/-- What is done under `start.lock`. -/
theorem withStartLock (name : String) {body : Result α} (hbody : Keeps D I body) :
    Keeps D I (withStartLock name body) := by
  refine (h.disk rfl).bind fun r => ?_
  cases r with
  | held =>
    refine (keeps_caught hbody).bind fun outcome => ?_
    exact (h.disk rfl).bind fun _ => keeps_try outcome
  | _ => exact keeps_throw _

/-- A direct start, up to its reply. -/
theorem startSessionDetached (name : String) (cwd : Option String) (cmd : String)
    (rows cols : Option ℕ) : Keeps D I (startSessionDetached env name cwd cmd rows cols) := by
  refine (keeps_sessionDir name).bind fun _ => ?_
  refine (h.proc rfl).bind fun resolved => ?_
  refine (keeps_try resolved).bind fun cwd => ?_
  refine (h.disk rfl).bind fun ensured => ?_
  refine (keeps_try ensured).bind fun _ => h.withStartLock name ?_
  refine (h.beginRun ..).bind fun _ => ?_
  refine (h.proc rfl).bind fun located => ?_
  refine (keeps_ensure _ located).bind fun _ => ?_
  refine (h.proc rfl).bind fun spawned => ?_
  exact (keeps_orThrow _ spawned).bind fun _ => h.waitForRunningMetadata name

/-- A start in the daemon, up to its reply. -/
theorem startSessionInDaemon (name : String) (cwd : Option String) (cmd : String)
    (clientPath : Option String) (rows cols : Option ℕ) :
    Keeps D I (startSessionInDaemon env name cwd cmd clientPath rows cols) := by
  refine (keeps_sessionDir name).bind fun _ => ?_
  refine (h.proc rfl).bind fun resolved => ?_
  refine (keeps_try resolved).bind fun cwd => ?_
  refine (h.disk rfl).bind fun ensured => ?_
  refine (keeps_try ensured).bind fun _ => h.withStartLock name ?_
  refine (h.beginRun ..).bind fun generation => ?_
  exact (h.proc rfl).bind fun _ => h.waitForRunningMetadata name

/-- Signalling a process of a session that is stopped. -/
theorem signalRecorded (kind : String) (pid startTime : Option ℕ) :
    Keeps D I (signalRecorded kind pid startTime) :=
  h.performs (outside_signalRecorded unguarded_of_outside kind pid startTime)

/-- A stop, which marks its run unless it could not signal a process. -/
theorem stopSessionSilent (name : String) : Keeps D I (stopSessionSilent name) := by
  refine (keeps_sessionDir name).bind fun _ => ?_
  refine (h.loadMetadata name).bind fun m => (keeps_pure ()).ite ?_
  refine (h.signalRecorded ..).bind fun childErrors => ?_
  refine (h.signalRecorded ..).bind fun supervisorErrors => ?_
  split
  · exact h.markUnfinished ..
  · exact keeps_throw _

/-- A shutdown's look at the sessions it listed. -/
theorem activeSessions (names : List String) : Keeps D I (activeSessions names) := by
  induction names with
  | nil => exact keeps_pure []
  | cons name names ih =>
    refine (keeps_caught (h.loadMetadata name)).bind fun r => ?_
    refine ih.bind fun sessions => ?_
    cases r with
    | ok m => exact (keeps_pure _).ite (keeps_pure _)
    | error e => exact keeps_pure sessions

/-- Its stops, one after the other. -/
theorem stopAll (names : List String) : Keeps D I (stopAll names) := by
  induction names with
  | nil => exact keeps_pure []
  | cons name names ih =>
    refine (keeps_caught (h.stopSessionSilent name)).bind fun r => ?_
    refine ih.bind fun errors => ?_
    cases r with
    | ok u => exact keeps_pure errors
    | error e => exact keeps_pure _

/-- A shutdown, from its listing to the last stop. -/
theorem shutdownSessionsForDaemon : Keeps D I (shutdownSessionsForDaemon env) := by
  refine (h.disk rfl).bind fun r => ?_
  cases r with
  | error e => exact keeps_throw _
  | ok entries =>
    refine (h.activeSessions entries).bind fun sessions => ?_
    refine (h.stopAll _).bind fun errors => ?_
    cases errors with
    | nil => exact keeps_pure ()
    | cons e errors => exact keeps_throw _

/-! ### Threads -/

/-- The end of a thread. -/
theorem leave (result : ThreadResult) : (leave result).Maintains D I := by
  have honly : (IgnibyteBridge.leave result).Only (fun a => a.unguarded = true) fun _ => True :=
    only_leave unguarded_of_leaves trivial
  exact h.only honly

/-- A program whose outcome is the reply to a client. -/
theorem reply {p : Result α} (hp : Keeps D I p) : (reply p).Maintains D I :=
  hp.run.bind fun _ => h.leave _

/-- A single action of a thread. -/
theorem act {a : ProcessAct} (ha : Act.unguarded (.process a) = true) :
    (Prog.proc a).Maintains D I := by
  constructor
  intro g hg
  exact ⟨h.allowed ha hg, fun _ => h.unguarded ha hg⟩

/-- The handler of a shutdown, which exits the daemon if its client heard of it. -/
theorem handleShutdown : (handleShutdown env).Maintains D I := by
  refine (h.act rfl).bind fun acknowledged => ?_
  cases acknowledged with
  | false => exact h.leave _
  | true =>
    refine h.shutdownSessionsForDaemon.run.bind fun outcome => ?_
    exact (h.act rfl).bind fun _ => maintains_done _

/-- The thread that serves a request. -/
theorem program (request : Request) : (request.program env).Maintains D I := by
  unfold Request.program
  split
  · split
    · exact h.reply (h.startSessionInDaemon ..)
    · exact h.reply (h.startSessionDetached ..)
  · exact h.reply (h.performs (performs_sendInputSilent unguarded_of_sends ..))
  · exact h.reply (h.performs (performs_sendKeysSilent unguarded_of_sends ..))
  · exact h.reply (h.stopSessionSilent _)
  · split
    · exact h.handleShutdown
    · exact h.leave _

/-- The next iteration of a worker's loop. -/
theorem again {x : ThreadResult} {p : Prog ThreadResult} (hagain : again env x = some p) :
    p.Maintains D I := by
  cases x with
  | finished => cases hagain
  | replied r => cases hagain
  | capturing state =>
    cases hagain
    exact h.only (only_captureStep unguarded_of_leaves unguarded_of_captures env state)
  | forwarding fifo pty =>
    cases hagain
    exact h.only (only_forwardStep unguarded_of_leaves unguarded_of_forwards env fifo pty)

/-- The threads that serve the requests keep the invariant. -/
theorem boot (requests : ℕ → Option Request) (i : ℕ) {g : G} (hg : I g) :
    ((boot env requests).thread i).Follows D (fun _ => I) g := by
  simp only [IgnibyteBridge.boot]
  split
  · exact (h.program _).follows g hg
  · exact hg

end Conduct

namespace Upkeep

variable {env : Env} {D : Discipline Act Act.Response G} {I : G → Prop} (h : Upkeep env D I)

include h

/-! ### Owners -/

/-- An owner promotes its run and prepares the PTY for its worker threads. -/
theorem publish (name : String) (generation : ℕ) : Keeps D I (publish name generation) := by
  refine (h.promote name generation).bind fun _ => ?_
  refine (h.proc rfl).bind fun dupped => ?_
  refine (keeps_ensure _ dupped).bind fun _ => ?_
  exact (h.proc rfl).bind fun taken => keeps_ensure _ taken

/-- An owner starts the worker threads, waits for the child and then for the threads. -/
theorem serveChild (name : String) (pty child fifo rows cols : ℕ) :
    Keeps D I (serveChild name pty child fifo rows cols) := by
  refine (h.proc rfl).bind fun output => ?_
  refine (h.proc rfl).bind fun input => ?_
  refine (h.proc rfl).bind fun waited => ?_
  refine (keeps_orThrow _ waited).bind fun ended => ?_
  refine h.file.bind fun _ => ?_
  refine (h.proc rfl).bind fun _ => ?_
  refine (h.proc rfl).bind fun _ => ?_
  refine h.file.bind fun _ => ?_
  exact (h.proc rfl).bind fun _ => keeps_pure _

/-- An owner records its child, opens the FIFO, publishes the run and serves it. -/
theorem superviseChild (name : String) (generation pty child rows cols : ℕ)
    {command : List String} (hcommand : command ≠ []) :
    Keeps D I (superviseChild env name generation pty child rows cols command) := by
  refine (h.recordChild name generation child hcommand).bind fun _ => ?_
  refine h.file.bind fun opened => ?_
  refine (keeps_orThrow _ opened).bind fun fifo => ?_
  refine (keeps_caught (h.publish name generation)).bind fun r => ?_
  cases r with
  | error e => exact h.file.bind fun _ => keeps_throw e
  | ok u => exact h.serveChild ..

/-- An owner spawns a child in a PTY, and kills it if it cannot serve it. -/
theorem supervisePty (name cwd cmd : String) (clientPath : Option String) (generation : ℕ) :
    Keeps D I (supervisePty env name cwd cmd clientPath generation) := by
  refine keeps_try_bind fun command hcommand => ?_
  have hne := resolveCommand_ne_nil env clientPath (ne_nil_of_parseCommand hcommand)
  refine (keeps_sessionDir name).bind fun _ => ?_
  refine (keeps_caught (h.loadMetadata name)).bind fun geometry => ?_
  refine (h.proc rfl).bind fun opened => ?_
  refine (keeps_orThrow _ opened).bind fun pty => ?_
  refine (h.proc rfl).bind fun spawned => ?_
  refine (keeps_orThrow _ spawned).bind fun child => ?_
  refine (keeps_caught (h.superviseChild _ _ _ _ _ _ hne)).bind fun r => ?_
  cases r with
  | ok outcome => exact keeps_pure outcome
  | error e =>
    refine (h.proc rfl).bind fun _ => ?_
    exact (h.proc rfl).bind fun _ => keeps_throw e

/-- An owner marks its run Stopped, with an exit code only if it waited for the child. -/
theorem superviseAndMark (name cwd cmd : String) (clientPath : Option String)
    (generation : ℕ) : Keeps D I (superviseAndMark env name cwd cmd clientPath generation) := by
  refine (keeps_caught (h.supervisePty name cwd cmd clientPath generation)).bind fun r => ?_
  cases r with
  | error e => exact h.markUnfinished ..
  | ok outcome =>
    obtain ⟨exitStatus, exitCode⟩ := outcome
    cases exitCode with
    | none => exact h.markUnfinished ..
    | some exitCode => exact h.markFinished ..

/-- A supervisor adopts a run before it owns it. -/
theorem runSupervisor (hadopt : ∀ name, Keeps D I (adoptRun name)) (name cwd cmd : String) :
    Keeps D I (runSupervisor env name cwd cmd) := by
  refine (keeps_sessionDir name).bind fun _ => ?_
  refine (hadopt name).bind fun generation => ?_
  exact h.superviseAndMark ..

/-- The thread of a daemon's owner. -/
theorem ownerThread (name cwd cmd : String) (clientPath : Option String) (generation : ℕ) :
    (ownerThread env name cwd cmd clientPath generation).Maintains D I :=
  (h.superviseAndMark ..).run.bind fun _ => h.leave _

/-- The process of a supervisor. -/
theorem supervisorMain (hadopt : ∀ name, Keeps D I (adoptRun name)) (name cwd cmd : String) :
    (supervisorMain env name cwd cmd).Maintains D I := by
  refine (h.runSupervisor hadopt ..).run.bind fun outcome => ?_
  exact (h.act rfl).bind fun _ => maintains_done _

/-- The programs of the system keep the invariant, if the threads that are started begin
with it and supervisors may adopt their runs. -/
theorem covers {fresh : (a : Act) → G → a.Response → G} {S : G → Prop} (hS : Upkeep env D S)
    (hadopt : ∀ name, Keeps D S (adoptRun name)) (hSI : ∀ g, S g → I g)
    (hfresh : ∀ {a g r j p}, launched env a r = some (j, p) → I (fresh a g r))
    (hsupervisor : ∀ name cwd cmd g j,
      S (fresh (.process (.spawnSupervisor name cwd cmd)) g (some j))) :
    Covers (bridge env) D (fun _ => I) fresh where
  launched {a g r j p} hlaunched _ _ := by
    have hg := hfresh (g := g) hlaunched
    simp only [bridge] at hlaunched
    unfold launched at hlaunched
    split at hlaunched <;> cases hlaunched
    · exact ((hS.supervisorMain hadopt ..).follows _ (hsupervisor ..)).mono fun _ => hSI
    · exact (h.ownerThread ..).follows _ hg
    · exact (h.only (only_captureOutput unguarded_of_leaves unguarded_of_captures ..)).follows _ hg
    · exact hg
  again {x g p} hx hagain := (h.again hagain).follows g hx

end Upkeep

end IgnibyteBridge
