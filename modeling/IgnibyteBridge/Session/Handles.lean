import IgnibyteBridge.Session.Repertoire

/-!
# What a thread knows about the input FIFO

The discipline of FIFO handles: an owner opens the FIFO of its session before it
promotes its run, passes the handle on to one forwarder, and stops the forwarder
only when its child has died.
-/

namespace IgnibyteBridge

open Concurrency Program Fallible

/-- What an owner knows about its child and its handles. -/
structure OwnerGrip where
  name : String
  pty : Option ℕ := none
  child : Option ℕ := none
  /-- The FIFO that it holds open for reading. -/
  fifo : Option ℕ := none
  promoted : Bool := false
  /-- The thread that it passed the FIFO to. -/
  forwarder : Option ℕ := none
  /-- Its child has died. -/
  waited : Bool := false

/-- What a thread knows about FIFO handles. -/
inductive Grip where
  | other (daemon : Bool)
  | owner (x : OwnerGrip)
  /-- A forwarder, and whether it has been told to stop. -/
  | forwarder (fifo pty : ℕ) (stopped : Bool)

namespace Grip

/-- The obligation before an action. -/
def pre : Act → Grip → Prop
  | .process (.spawnOwner ..), g => g = .other true
  | .process (.spawnCommand ..), g => ∃ name pty, g = .owner { name := name, pty := pty }
  | .process (.spawnForward fifo pty), g =>
    ∃ x, g = .owner x ∧ x.fifo = some fifo ∧ x.pty = some pty
  | .process (.childWait child), g => ∃ x, g = .owner x ∧ x.child = some child
  | .file (.openFifo name), g =>
    ∃ pty child, g = .owner { name := name, pty := pty, child := child }
  | .file (.storeStop .input pty), g => ∃ x, g = .owner x ∧ x.pty = some pty ∧ x.waited = true
  | .disk (.saveMetadata .promote _), .owner x => x.fifo ≠ none
  | .file (.closeFifo _), .owner x => x.promoted = false
  | .file (.closeFifo _), .forwarder _ _ stopped => stopped = true
  | .file (.loadStop worker pty), .forwarder _ p _ => worker = .input ∧ pty = p
  | .process .leave, .forwarder _ _ stopped => stopped = true
  | .process .processExit, .forwarder .. => False
  | _, _ => True

/-- What may be relied on about a response. -/
def fact : (a : Act) → Grip → a.Response → Prop
  | .process (.attempt .dupMaster), _, ok => ok = true
  | .process (.attempt .takeWriter), _, ok => ok = true
  | .file (.readFifo _), _, bytes => bytes ≠ none
  | .file (.writePty ..), _, ok => ok = true
  | _, _, _ => True

/-- What a thread knows after an action. -/
def post : (a : Act) → Grip → a.Response → Grip
  | .process (.openPty ..), .owner x, pty => .owner { x with pty := pty }
  | .process (.spawnCommand ..), .owner x, child => .owner { x with child := child }
  | .process (.spawnForward ..), .owner x, j => .owner { x with fifo := none, forwarder := some j }
  | .process (.childWait _), .owner x, _ => .owner { x with waited := true }
  | .file (.openFifo _), .owner x, fifo => .owner { x with fifo := fifo }
  | .file (.closeFifo _), .owner x, _ => .owner { x with fifo := none }
  | .disk (.saveMetadata .promote _), .owner x, .ok _ => .owner { x with promoted := true }
  | .file (.loadStop ..), .forwarder fifo pty _, stop => .forwarder fifo pty stop
  | _, g, _ => g

/-- What a thread knows when another thread starts it. -/
def fresh : (a : Act) → Grip → a.Response → Grip
  | .process (.spawnSupervisor name _ _), _, _ => .owner { name := name }
  | .process (.spawnOwner name _ _ _ _), _, _ => .owner { name := name }
  | .process (.spawnForward fifo pty), _, _ => .forwarder fifo pty false
  | _, _, _ => .other false

/-- The discipline of FIFO handles. -/
def discipline : Discipline Act Act.Response Grip where
  pre := pre
  fact := fact
  post := post

/-- Actions that have nothing to do with handles. -/
def aside : Act → Bool
  | .disk (.saveMetadata .promote _) => false
  | .process (.spawnOwner ..) | .process (.openPty ..) | .process (.spawnCommand ..) => false
  | .process (.spawnForward ..) | .process (.childWait _) => false
  | .process .leave | .process .processExit => false
  | .file (.openFifo _) | .file (.closeFifo _) => false
  | .file (.loadStop ..) | .file (.storeStop .input _) => false
  | _ => true

/-- Actions of owners on what they hold. -/
def holds : Act → Bool
  | .process (.spawnCommand ..) | .process (.spawnForward ..) | .process (.childWait _) => true
  | .file (.openFifo _) | .file (.storeStop ..) => true
  | _ => false

variable {g : Grip}

/-- An action that has nothing to do with handles needs nothing. -/
theorem pre_of_aside {a : Act} (ha : aside a = true) : pre a g := by
  unfold pre
  split <;> trivial

/-- An action that has nothing to do with handles changes nothing either. -/
theorem post_of_aside {a : Act} (ha : aside a = true) (r : a.Response) : post a g r = g := by
  unfold post
  split <;> first | rfl | cases ha

/-- A thread that is no owner and no forwarder is never asked for a handle. -/
theorem pre_other {a : Act} {daemon : Bool} (ha : holds a = false)
    (howner : daemon = true ∨ ∀ name cwd cmd path generation,
      a ≠ .process (.spawnOwner name cwd cmd path generation)) : pre a (.other daemon) := by
  unfold pre
  split
  case h_1 =>
    rcases howner with rfl | hne
    · rfl
    · exact absurd rfl (hne _ _ _ _ _)
  all_goals trivial

/-- A thread without handles gets none by other actions. -/
theorem post_other (a : Act) (daemon : Bool) (r : a.Response) :
    post a (.other daemon) r = .other daemon := by
  unfold post
  split <;> first | rfl | simp_all

/-- An action on processes that has nothing to do with handles. -/
theorem aside_proc {a : ProcessAct} (h : aside (.process a) = true) :
    Performs (fun a => aside a = true) (proc a) :=
  performs_proc h

/-- An action on records and locks that has nothing to do with handles. -/
theorem aside_disk {a : DiskAct} (h : aside (.disk a) = true) :
    Performs (fun a => aside a = true) (disk a) :=
  performs_disk h

/-- A program that has nothing to do with handles. -/
theorem meets_aside {α : Type} {p : Result α} {Q : α → Grip → Prop} {E : String → Grip → Prop}
    (h : Performs (fun a => aside a = true) p) (hok : ∀ x, Q x g) (herror : ∀ e, E e g) :
    Meets discipline Q E p g := by
  refine (h.meets (I := fun g' => g' = g) (fun _ _ ha _ => pre_of_aside ha) ?_ rfl).mono ?_ ?_
  · rintro a g' r ha rfl -
    exact post_of_aside ha r
  · rintro x g' rfl
    exact hok x
  · rintro e g' rfl
    exact herror e

/-! ## Owners -/

/-- Loading a record has nothing to do with handles. -/
theorem aside_loadMetadata (name : String) :
    Performs (fun a => aside a = true) (loadMetadata name) := by
  refine (performs_sessionDir name).bind fun _ => ?_
  exact (aside_disk rfl).bind fun loaded => performs_try loaded

/-- Saving a record has nothing to do with handles, but for the promotion. -/
theorem aside_saveMetadata {site : Site} (hsite : site ≠ .promote) (m : SessionMetadata) :
    Performs (fun a => aside a = true) (saveMetadata site m) := by
  have haside : aside (.disk (.saveMetadata site m)) = true := by
    cases site
    case promote => exact absurd rfl hsite
    all_goals rfl
  refine (performs_sessionDir m.name).bind fun _ => ?_
  exact (aside_disk haside).bind fun saved => performs_try saved

/-- Taking and dropping `status.lock` has nothing to do with handles. -/
theorem aside_withStatusLock {α : Type} (name : String) {body : Result α}
    (hbody : Performs (fun a => aside a = true) body) :
    Performs (fun a => aside a = true) (withStatusLock name body) := by
  refine (aside_disk rfl).bind fun r => ?_
  cases r with
  | held =>
    refine (performs_caught hbody).bind fun outcome => ?_
    exact (aside_disk rfl).bind fun _ => performs_try outcome
  | _ => trivial

/-- Marking a run Stopped has nothing to do with handles. -/
theorem aside_markStopped (name : String) (exitStatus : Option String)
    (exitCode generation : Option ℕ) (by_ : Stopper) :
    Performs (fun a => aside a = true) (markStopped name exitStatus exitCode generation by_) := by
  refine (performs_sessionDir name).bind fun _ => aside_withStatusLock name ?_
  refine (aside_loadMetadata name).bind fun metadata => ?_
  exact performs_ite trivial (performs_ite trivial (aside_saveMetadata (by simp) _))

/-- Recording a child has nothing to do with handles. -/
theorem aside_recordChild (name : String) (generation child : ℕ) (command : List String) :
    Performs (fun a => aside a = true) (recordChild name generation child command) := by
  refine aside_withStatusLock name ((aside_loadMetadata name).bind fun metadata => ?_)
  refine (performs_try _).bind fun _ => ?_
  exact (aside_proc rfl).bind fun startTime => aside_saveMetadata (by simp) _

/-- Adopting a run has nothing to do with handles. -/
theorem aside_adoptRun (name : String) : Performs (fun a => aside a = true) (adoptRun name) := by
  refine aside_withStatusLock name ((aside_loadMetadata name).bind fun metadata => ?_)
  refine (aside_proc rfl).bind fun pid => ?_
  refine (aside_proc rfl).bind fun startTime => ?_
  exact (aside_saveMetadata (by simp) _).bind fun _ => trivial

variable {x : OwnerGrip}

/-- A promotion is made with the FIFO open, and one that fails leaves the run unpromoted. -/
theorem meets_promote {name : String} {generation : ℕ} (hfifo : x.fifo ≠ none) :
    Meets discipline (fun _ g => g = .owner { x with promoted := true }) (fun _ g => g = .owner x)
      (promote name generation) (.owner x) := by
  unfold promote withStatusLock
  rw [meets_bind]
  refine (meets_disk _ _).mpr ⟨trivial, fun r _ => ?_⟩
  cases r with
  | held =>
    dsimp only
    rw [meets_bind, meets_caught]
    have hbody : Meets discipline (fun _ g => g = .owner { x with promoted := true })
        (fun _ g => g = .owner x) (do
          let metadata ← loadMetadata name
          try_ (checkRunLive metadata generation name)
          saveMetadata .promote metadata.promoted) (.owner x) := by
      rw [meets_bind]
      refine meets_aside (aside_loadMetadata name) (fun m => ?_) fun _ => rfl
      rw [meets_bind]
      refine meets_try (fun _ _ => ?_) fun _ _ => rfl
      unfold saveMetadata
      rw [meets_bind]
      refine meets_sessionDir (fun _ => ?_) fun _ _ => rfl
      rw [meets_bind]
      refine (meets_disk _ _).mpr ⟨hfifo, fun r _ => ?_⟩
      cases r with
      | ok u => rfl
      | error e => rfl
    refine Meets.mono hbody ?_ ?_
    all_goals
      rintro _ g rfl
      rw [meets_bind]
      exact (meets_disk _ _).mpr ⟨trivial, fun _ _ => rfl⟩
  | _ => rfl

/-- What an owner does while it holds its FIFO open fails only before the promotion. -/
theorem meets_publish {name : String} {generation : ℕ} (hfifo : x.fifo ≠ none) :
    Meets discipline (fun _ g => g = .owner { x with promoted := true }) (fun _ g => g = .owner x)
      (publish name generation) (.owner x) := by
  unfold publish
  rw [meets_bind]
  refine (meets_promote hfifo).mono ?_ fun _ _ => id
  rintro _ g rfl
  rw [meets_bind]
  refine (meets_proc _ _).mpr ⟨trivial, fun ok hok => ?_⟩
  rw [meets_bind]
  refine meets_ensure (fun _ => ?_) fun hfailed => ?_
  · rw [meets_bind]
    refine (meets_proc _ _).mpr ⟨trivial, fun ok hok => ?_⟩
    refine meets_ensure (fun _ => rfl) fun hfailed => ?_
    exact Bool.noConfusion (hfailed.symm.trans hok)
  · exact Bool.noConfusion (hfailed.symm.trans hok)

/-- A thread that owns a run. -/
def Owning (g : Grip) : Prop := ∃ x, g = .owner x

/-- An owner stops its forwarder when its child has died. -/
theorem meets_serveChild {name : String} {pty child fifo rows cols : ℕ}
    (hfifo : x.fifo = some fifo) (hpty : x.pty = some pty) (hchild : x.child = some child) :
    Meets discipline (fun _ => Owning) (fun _ g => ∃ x, g = .owner x ∧ x.child = some child)
      (serveChild name pty child fifo rows cols) (.owner x) := by
  unfold serveChild
  rw [meets_bind]
  refine (meets_proc _ _).mpr ⟨trivial, fun output _ => ?_⟩
  rw [meets_bind]
  refine (meets_proc _ _).mpr ⟨⟨x, rfl, hfifo, hpty⟩, fun input _ => ?_⟩
  rw [meets_bind]
  refine (meets_proc _ _).mpr ⟨⟨_, rfl, hchild⟩, fun status _ => ?_⟩
  rw [meets_bind]
  refine meets_orThrow (fun status _ => ?_) fun _ => ⟨_, rfl, hchild⟩
  rw [meets_bind]
  refine (meets_file _ _).mpr ⟨⟨_, rfl, hpty, rfl⟩, fun _ _ => ?_⟩
  rw [meets_bind]
  refine (meets_proc _ _).mpr ⟨trivial, fun _ _ => ?_⟩
  rw [meets_bind]
  refine (meets_proc _ _).mpr ⟨trivial, fun _ _ => ?_⟩
  rw [meets_bind]
  refine (meets_file _ _).mpr ⟨trivial, fun _ _ => ?_⟩
  rw [meets_bind]
  exact (meets_proc _ _).mpr ⟨trivial, fun _ _ => ⟨_, rfl⟩⟩

/-- An owner that fails has its child still to kill. -/
theorem meets_superviseChild (env : Env) (name : String) (generation pty child rows cols : ℕ)
    (command : List String) :
    Meets discipline (fun _ => Owning) (fun _ g => ∃ x, g = .owner x ∧ x.child = some child)
      (superviseChild env name generation pty child rows cols command)
      (.owner { name := name, pty := some pty, child := some child }) := by
  unfold superviseChild
  rw [meets_bind]
  refine meets_aside (aside_recordChild ..) (fun _ => ?_) fun _ => ⟨_, rfl, rfl⟩
  rw [meets_bind]
  refine (meets_file _ _).mpr ⟨⟨_, _, rfl⟩, fun r _ => ?_⟩
  rw [meets_bind]
  refine meets_orThrow (fun fifo hfifo => ?_) fun _ => ⟨_, rfl, rfl⟩
  subst hfifo
  rw [meets_bind, meets_caught]
  refine (meets_publish (x := ⟨name, some pty, some child, some fifo, false, none, false⟩)
    (by simp)).mono ?_ ?_
  · rintro _ g rfl
    exact meets_serveChild rfl rfl rfl
  · rintro e g rfl
    dsimp only
    rw [meets_bind]
    exact (meets_file _ _).mpr ⟨rfl, fun _ _ => ⟨_, rfl, rfl⟩⟩

/-- An owner kills and waits for the child it has. -/
theorem meets_supervisePty (env : Env) (name cwd cmd : String) (clientPath : Option String)
    (generation : ℕ) :
    Meets discipline (fun _ => Owning) (fun _ => Owning)
      (supervisePty env name cwd cmd clientPath generation) (.owner { name := name }) := by
  unfold supervisePty
  rw [meets_bind]
  refine meets_try (fun command _ => ?_) fun _ _ => ⟨_, rfl⟩
  rw [meets_bind]
  refine meets_sessionDir (fun _ => ?_) fun _ _ => ⟨_, rfl⟩
  rw [meets_bind]
  refine meets_aside (performs_caught (aside_loadMetadata name)) (fun loaded => ?_) fun _ => ⟨_, rfl⟩
  dsimp only
  rw [meets_bind]
  refine (meets_proc _ _).mpr ⟨trivial, fun r _ => ?_⟩
  rw [meets_bind]
  refine meets_orThrow (fun pty hpty => ?_) fun _ => ⟨_, rfl⟩
  subst hpty
  rw [meets_bind]
  refine (meets_proc _ _).mpr ⟨⟨_, _, rfl⟩, fun r _ => ?_⟩
  rw [meets_bind]
  refine meets_orThrow (fun child hchild => ?_) fun _ => ⟨_, rfl⟩
  subst hchild
  rw [meets_bind, meets_caught]
  refine (meets_superviseChild env name generation pty child _ _ _).mono (fun _ _ h => h) ?_
  rintro e g ⟨x, rfl, hx⟩
  rw [meets_bind]
  refine (meets_proc _ _).mpr ⟨trivial, fun _ _ => ?_⟩
  rw [meets_bind]
  exact (meets_proc _ _).mpr ⟨⟨x, rfl, hx⟩, fun _ _ => ⟨_, rfl⟩⟩

/-- Marking the run needs no handle. -/
theorem meets_superviseAndMark (env : Env) (name cwd cmd : String) (clientPath : Option String)
    (generation : ℕ) :
    Meets discipline (fun _ => Owning) (fun _ => Owning)
      (superviseAndMark env name cwd cmd clientPath generation) (.owner { name := name }) := by
  unfold superviseAndMark
  rw [meets_bind, meets_caught]
  refine (meets_supervisePty env name cwd cmd clientPath generation).mono ?_ ?_
  all_goals
    intro r g hg
    exact meets_aside (aside_markStopped ..) (fun _ => hg) fun _ => hg

/-- What a supervisor does first needs no handle. -/
theorem meets_runSupervisor (env : Env) (name cwd cmd : String) :
    Meets discipline (fun _ => Owning) (fun _ => Owning) (runSupervisor env name cwd cmd)
      (.owner { name := name }) := by
  unfold runSupervisor
  rw [meets_bind]
  refine meets_sessionDir (fun _ => ?_) fun _ _ => ⟨_, rfl⟩
  rw [meets_bind]
  refine meets_aside (aside_adoptRun name) (fun generation => ?_) fun _ => ⟨_, rfl⟩
  exact meets_superviseAndMark env name cwd cmd none generation

/-! ## Requests -/

section Requests

variable {daemon : Bool}

/-- Actions of a thread that holds no handle and spawns no owner. -/
theorem meets_other {α : Type} {p : Result α} {P : Act → Prop} (h : Performs P p)
    (hP : ∀ a, P a → pre a (.other daemon)) :
    Meets discipline (fun _ g => g = .other daemon) (fun _ g => g = .other daemon) p
      (.other daemon) := by
  refine h.meets ?_ ?_ rfl
  · rintro a g ha rfl
    exact hP a ha
  · rintro a g r - rfl -
    exact post_other a daemon r

/-- A thread whose actions neither use handles nor spawn owners. -/
theorem pre_of {P : Act → Bool} (hholds : ∀ a, P a = true → holds a = false)
    (howner : ∀ name cwd cmd path generation,
      P (.process (.spawnOwner name cwd cmd path generation)) = false) (a : Act) (ha : P a = true) :
    pre a (.other daemon) := by
  refine pre_other (hholds a ha) (.inr ?_)
  rintro name cwd cmd path generation rfl
  cases (howner name cwd cmd path generation).symm.trans ha

/-- Starts and stops use no handles. -/
theorem pre_of_manages (a : Act) (ha : a.manages = true) : pre a (.other daemon) := by
  refine pre_of (fun a ha => ?_) (fun _ _ _ _ _ => rfl) a ha
  unfold holds
  split <;> first | rfl | cases ha

/-- Sending input uses no handles. -/
theorem pre_of_sends (a : Act) (ha : a.sends = true) : pre a (.other daemon) := by
  refine pre_of (fun a ha => ?_) (fun _ _ _ _ _ => rfl) a ha
  unfold holds
  split <;> first | rfl | cases ha

/-- A daemon's start may spawn an owner. -/
theorem pre_of_directs (a : Act) (ha : a.directs = true) : pre a (.other true) := by
  refine pre_other ?_ (.inl rfl)
  unfold holds
  split <;> first | rfl | cases ha

/-- A loop of a forwarder goes on until it is told to stop. -/
def Finished : ThreadResult → Grip → Prop
  | .capturing _, g => ∃ daemon, g = .other daemon
  | .forwarding fifo pty, g => g = .forwarder fifo pty false
  | _, _ => True

/-- A thread without handles may leave with any result that it may end with. -/
theorem follows_leave (result : ThreadResult) (h : Finished result (.other daemon)) :
    (leave result).Follows discipline Finished (.other daemon) :=
  ⟨trivial, fun _ _ => h⟩

/-- A function that uses no handles is replied to. -/
theorem follows_reply {α : Type} {p : Result α}
    (h : Meets discipline (fun _ g => g = .other daemon) (fun _ g => g = .other daemon) p
      (.other daemon)) : (reply p).Follows discipline Finished (.other daemon) := by
  rw [reply, follows_bind, follows_run]
  refine h.mono ?_ ?_
  all_goals
    rintro _ g rfl
    exact follows_leave _ trivial

/-- A start that spawns a supervisor spawns no thread of its own process. -/
theorem meets_startSessionDetached (env : Env) (name : String) (cwd : Option String)
    (cmd : String) (rows cols : Option ℕ) :
    Meets discipline (fun _ g => g = .other daemon) (fun _ g => g = .other daemon)
      (startSessionDetached env name cwd cmd rows cols) (.other daemon) := by
  refine meets_other (P := fun a => pre a (.other daemon)) ?_ fun _ => id
  refine (performs_sessionDir name).bind fun _ => ?_
  refine (performs_proc trivial).bind fun resolved => ?_
  refine (performs_try resolved).bind fun cwd => ?_
  refine (performs_disk trivial).bind fun ensured => ?_
  refine (performs_try ensured).bind fun _ => ?_
  refine (performs_disk trivial).bind fun r => ?_
  cases r with
  | held =>
    refine (performs_caught ?_).bind fun outcome => ?_
    · refine (performs_beginRun pre_of_manages ..).bind fun _ => ?_
      refine (performs_proc trivial).bind fun located => ?_
      refine (performs_ensure _ located).bind fun _ => ?_
      refine (performs_proc trivial).bind fun spawned => ?_
      refine (performs_orThrow _ spawned).bind fun _ => ?_
      exact performs_waitForRunningMetadata pre_of_manages name
    · exact (performs_disk trivial).bind fun _ => performs_try outcome
  | _ => trivial

/-- The handler of a shutdown uses no handles. -/
theorem follows_handleShutdown (env : Env) :
    (handleShutdown env).Follows discipline Finished (.other true) := by
  rw [handleShutdown, follows_bind]
  refine ⟨trivial, fun acknowledged _ => ?_⟩
  cases acknowledged with
  | false => exact follows_leave _ trivial
  | true =>
    refine (follows_bind _ _ _ _).mpr ((follows_run _ _ _).mpr ?_)
    refine (meets_other (performs_shutdownSessionsForDaemon (P := fun a => a.directs = true)
      (fun _ => id) env) pre_of_directs).mono ?_ ?_
    all_goals
      rintro _ g rfl
      exact ⟨trivial, fun _ _ => trivial⟩

/-- What a thread that serves a request knows. -/
def asked (request : Option Request) : Grip := .other (request.any (·.viaDaemon))

/-- Every request is served without handles. -/
theorem follows_program (env : Env) (request : Request) :
    (request.program env).Follows discipline Finished (asked (some request)) := by
  obtain ⟨viaDaemon, command⟩ := request
  cases command with
  | start name cwd cmd path rows cols =>
    cases viaDaemon with
    | true =>
      exact follows_reply (meets_other (performs_startSessionInDaemon
        (P := fun a => a.directs = true) (fun _ => id) ..) pre_of_directs)
    | false => exact follows_reply (meets_startSessionDetached ..)
  | send name text noEnter =>
    exact follows_reply (meets_other (performs_sendInputSilent (fun _ => id) ..) pre_of_sends)
  | keys name names =>
    exact follows_reply (meets_other (performs_sendKeysSilent (fun _ => id) ..) pre_of_sends)
  | stop name =>
    exact follows_reply (meets_other (performs_stopSessionSilent (fun _ => id) _) pre_of_manages)
  | shutdown =>
    cases viaDaemon with
    | true => exact follows_handleShutdown env
    | false => exact follows_leave _ trivial

end Requests

/-! ## Threads -/

/-- A capture thread holds no handle of a FIFO. -/
theorem follows_capture {p : Prog ThreadResult} {P : Act → Prop}
    (h : p.Only P fun result => result = .finished ∨ ∃ state, result = .capturing state)
    {daemon : Bool} (hP : ∀ a, P a → pre a (.other daemon)) :
    p.Follows discipline Finished (.other daemon) := by
  refine (h.follows (I := fun g => g = .other daemon) ?_ ?_ rfl).mono ?_
  · rintro a g ha rfl
    exact hP a ha
  · rintro a g r - rfl -
    exact post_other a daemon r
  · rintro result g ⟨rfl | ⟨state, rfl⟩, rfl⟩
    · trivial
    · exact ⟨daemon, rfl⟩

/-- The end of a thread needs no handle. -/
theorem pre_of_leaves {daemon : Bool} (a : Act) (ha : a.leaves = true) : pre a (.other daemon) := by
  unfold Act.leaves at ha
  split at ha <;> trivial

/-- Capturing output uses no handles. -/
theorem pre_of_captures {daemon : Bool} (a : Act) (ha : a.captures = true) :
    pre a (.other daemon) := by
  refine pre_of (fun a ha => ?_) (fun _ _ _ _ _ => rfl) a ha
  unfold holds
  split <;> first | rfl | cases ha

/-- A forwarder keeps its FIFO open until it has seen its stop flag. -/
theorem follows_forwardStep (env : Env) (fifo pty : ℕ) :
    (forwardStep env fifo pty).Follows discipline Finished (.forwarder fifo pty false) := by
  refine ⟨⟨rfl, rfl⟩, fun stop _ => ?_⟩
  cases stop with
  | true =>
    refine ⟨rfl, fun closed _ => ?_⟩
    refine ⟨trivial, fun dropped _ => ?_⟩
    exact ⟨rfl, fun _ _ => trivial⟩
  | false =>
    refine ⟨trivial, fun r hr => ?_⟩
    match r with
    | none => exact absurd rfl hr
    | some [] => exact rfl
    | some (byte :: bytes) =>
      refine ⟨trivial, fun ok hok => ?_⟩
      cases ok with
      | true => exact rfl
      | false => exact Bool.noConfusion (hok : false = true)

/-- Every thread that another one starts follows the discipline. -/
theorem follows_launched {env : Env} {a : Act} {r : a.Response} {j : ℕ} {p : Prog ThreadResult}
    (h : launched env a r = some (j, p)) : p.Follows discipline Finished (fresh a g r) := by
  unfold launched at h
  split at h <;> cases h
  · unfold supervisorMain
    rw [follows_bind, follows_run]
    refine (meets_runSupervisor env _ _ _).mono ?_ ?_
    all_goals
      rintro _ g ⟨x, rfl⟩
      exact ⟨trivial, fun _ _ => trivial⟩
  · unfold ownerThread
    rw [follows_bind, follows_run]
    refine (meets_superviseAndMark env _ _ _ _ _).mono ?_ ?_
    all_goals
      rintro _ g ⟨x, rfl⟩
      exact ⟨trivial, fun _ _ => trivial⟩
  · exact follows_capture (only_captureOutput pre_of_leaves pre_of_captures ..) fun _ => id
  · exact rfl

/-- The iterations of worker threads follow the discipline. -/
theorem covers (env : Env) : Covers (bridge env) discipline Finished fresh where
  launched h _ _ := follows_launched h
  again {x g p} hx h := by
    cases x with
    | finished => cases h
    | replied r => cases h
    | capturing state =>
      cases h
      obtain ⟨daemon, rfl⟩ := hx
      exact follows_capture (only_captureStep pre_of_leaves pre_of_captures env state) fun _ => id
    | forwarding fifo pty =>
      cases h
      subst hx
      exact follows_forwardStep env fifo pty

/-- The threads at the beginning follow the discipline. -/
theorem follows_boot (env : Env) (requests : ℕ → Option Request) (i : ℕ) :
    ((boot env requests).thread i).Follows discipline Finished (asked (requests i)) := by
  unfold boot
  dsimp only
  cases hrequest : requests i with
  | some request => exact follows_program env request
  | none => exact trivial

end Grip

end IgnibyteBridge
