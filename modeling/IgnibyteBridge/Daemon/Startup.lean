import IgnibyteBridge.Concurrency.System

/-!
# Daemons on one bridge root

`run_daemon` and the handling of Shutdown, system call by system call, in any
number of daemon processes that share one bridge root. A process is killed at any
point, and its lock and its sockets go with it; the file of a socket stays.
-/

namespace IgnibyteBridge.Daemon

open Concurrency

/-- The outcome of `flock` with `LOCK_NB`. -/
inductive LockResult where
  | held
  | wouldBlock
  | failed
  deriving DecidableEq

/-- What arrives on a connection. -/
inductive Arrival where
  /-- A timeout, an error, or a connection that is closed at once. -/
  | nothing
  | invalid
  | request
  | shutdown
  deriving DecidableEq

/-- The calls of a daemon that matter for its socket. -/
inductive Call where
  /-- `ensure_private_dir` of the bridge root. -/
  | ensurePrivateDir
  /-- `create_private_file` of `daemon.lock`, which no one removes. -/
  | openLock
  | flock
  /-- The lock file is closed when `run_daemon` returns. -/
  | closeLock
  | socketExists
  | connect
  | removeSocket
  | bind
  | listen (socket : ℕ)
  | closeSocket (socket : ℕ)
  | chmod
  /-- The next connection, and the thread that serves it. -/
  | accept
  | readRequest
  /-- `handle_daemon_request`. -/
  | handleRequest
  | respond
  /-- `shutdown_sessions_for_daemon`. -/
  | stopSessions
  | exit

/-- What a call returns. -/
abbrev Call.Response : Call → Type
  | .ensurePrivateDir => Except String Unit
  | .openLock => Bool
  | .flock => LockResult
  | .closeLock => Unit
  | .socketExists => Bool
  | .connect => Bool
  | .removeSocket => Bool
  | .bind => Option ℕ
  | .listen _ => Bool
  | .closeSocket _ => Unit
  | .chmod => Bool
  | .accept => Option ℕ
  | .readRequest => Arrival
  | .handleRequest => Unit
  | .respond => Bool
  | .stopSessions => Unit
  | .exit => Unit

/-- What the environment decides about one call. -/
structure Choice where
  ok : Bool := true
  error : String := ""
  thread : ℕ := 0
  arrival : Arrival := .nothing

/-- What the daemons share. -/
structure World where
  /-- The process of a thread that was started. -/
  process : ℕ → Option ℕ
  running : ℕ → Bool
  /-- The process that locked `daemon.lock`. -/
  lock : Option ℕ
  /-- The socket whose file is at the socket path. -/
  socket : Option ℕ
  nextSocket : ℕ
  /-- The process that bound a socket and still has it open. -/
  boundBy : ℕ → Option ℕ
  listening : ℕ → Bool

namespace World

/-- Whether a thread can still take a step. -/
def alive (w : World) (i : ℕ) : Bool := (w.process i).any w.running

/-- The lock of a dead process is free. -/
def lockFree (w : World) : Bool := !w.lock.any w.running

/-- Someone accepts connections at the socket path. -/
def accepts (w : World) : Bool :=
  w.socket.any fun s => w.listening s && (w.boundBy s).any w.running

/-- One call of a thread. -/
def perform (i : ℕ) : (a : Call) → Choice → World → Option (a.Response × World)
  | .ensurePrivateDir, c, w => some (if c.ok then .ok () else .error c.error, w)
  | .openLock, c, w => some (c.ok, w)
  | .flock, c, w =>
    match c.ok, w.lockFree with
    | false, _ => some (.failed, w)
    | true, false => some (.wouldBlock, w)
    | true, true => some (.held, { w with lock := w.process i })
  | .closeLock, _, w =>
    some ((), { w with lock := if w.lock = w.process i then none else w.lock })
  | .socketExists, c, w => some (c.ok && w.socket.isSome, w)
  | .connect, c, w => some (c.ok && w.accepts, w)
  | .removeSocket, c, w =>
    if c.ok && w.socket.isSome then some (true, { w with socket := none }) else some (false, w)
  | .bind, c, w =>
    if c.ok && w.socket.isNone then
      some (some w.nextSocket, { w with
        socket := some w.nextSocket
        nextSocket := w.nextSocket + 1
        boundBy := Function.update w.boundBy w.nextSocket (w.process i)
        listening := Function.update w.listening w.nextSocket false })
    else some (none, w)
  | .listen socket, c, w =>
    if c.ok then some (true, { w with listening := Function.update w.listening socket true })
    else some (false, w)
  | .closeSocket socket, _, w =>
    some ((), { w with boundBy := Function.update w.boundBy socket none })
  | .chmod, c, w => some (c.ok, w)
  | .accept, c, w =>
    if c.ok then
      if w.process c.thread = none then
        some (some c.thread, { w with
          process := Function.update w.process c.thread (w.process i) })
      else none
    else some (none, w)
  | .readRequest, c, w => some (c.arrival, w)
  | .handleRequest, _, w => some ((), w)
  | .respond, c, w => some (c.ok, w)
  | .stopSessions, _, w => some ((), w)
  | .exit, _, w =>
    match w.process i with
    | some p => some ((), { w with running := Function.update w.running p false })
    | none => none

end World

/-- A program that returns a `Result`. -/
abbrev Result (α : Type) := Fallible Call Call.Response String α

/-- A call of a program that returns a `Result`. -/
def call (a : Call) : Result a.Response := Fallible.perform a

/-- A call of a program without an error of its own. -/
def plain (a : Call) : Program Call Call.Response a.Response := Program.perform a

/-- How a thread ends, or that the main thread waits for a connection. -/
inductive ThreadEnd where
  | finished
  | serving
  deriving DecidableEq

/-- A thread. -/
abbrev Thread := Program Call Call.Response ThreadEnd

/-! ## Starting -/

/-- `acquire_daemon_lock`. -/
def acquireDaemonLock : Result Unit := do
  Fallible.ensure "failed to open daemon lock" (← call .openLock)
  match ← call .flock with
  | .held => pure ()
  | .wouldBlock => throw "another ignibyte-bridge daemon is already running or starting"
  | .failed => throw "failed to lock daemon"

/-- `UnixListener::bind` and the mode of the socket. A listener that is given up is
closed, but its file stays. -/
def bindListener (path : String) : Result ℕ := do
  let socket ← Fallible.orThrow s!"failed to bind {path}" (← call .bind)
  if ← call (.listen socket) then
    if ← call .chmod then pure socket
    else
      call (.closeSocket socket)
      throw s!"failed to chmod {path}"
  else
    call (.closeSocket socket)
    throw s!"failed to bind {path}"

/-- What `run_daemon` does under the lock before it serves. -/
def claimSocket (path : String) : Result ℕ := do
  if ← call .socketExists then
    if ← call .connect then throw s!"daemon already appears to be running at {path}"
    Fallible.ensure s!"failed to remove stale socket {path}" (← call .removeSocket)
  bindListener path

/-- `run_daemon` up to its loop. The lock is kept unless an error ends it. -/
def runDaemon (path : String) : Result ℕ := do
  match ← call .ensurePrivateDir with
  | .error e => throw e
  | .ok _ =>
    acquireDaemonLock
    match ← Fallible.outcome (claimSocket path) with
    | .ok listener => pure listener
    | .error e =>
      call .closeLock
      throw e

/-- The main thread of a daemon process. -/
def daemonMain (path : String) : Thread := do
  let outcome ← ((runDaemon path).run : Program Call Call.Response (Except String ℕ))
  match outcome with
  | .ok _ => pure .serving
  | .error _ =>
    plain .exit
    pure .finished

/-! ## Serving -/

/-- The body of the loop over `incoming`. -/
def acceptConnection : Thread := do
  let _ ← plain .accept
  pure .serving

/-- `handle_daemon_stream`, in a thread of its own. -/
def handleDaemonStream : Result Unit := do
  match ← call .readRequest with
  | .nothing => pure ()
  | .invalid => Fallible.ensure "failed to write daemon response" (← call .respond)
  | .request =>
    call .handleRequest
    Fallible.ensure "failed to write daemon response" (← call .respond)
  | .shutdown =>
    Fallible.ensure "failed to write daemon response" (← call .respond)
    call .stopSessions
    let _ ← call .removeSocket
    call .exit

/-- The thread of a connection. -/
def connectionThread : Thread := do
  let _ ← (handleDaemonStream.run : Program Call Call.Response (Except String Unit))
  pure .finished

/-- The thread that a call starts. -/
def launched : (a : Call) → a.Response → Option (ℕ × Thread)
  | .accept, some j => some (j, connectionThread)
  | _, _ => none

/-- Any number of daemons, interleaved; a process is killed by a disturbance. -/
def daemons : System Call Call.Response ThreadEnd World Choice ℕ where
  alive := World.alive
  perform := World.perform
  launched := launched
  again x := match x with
    | .serving => some acceptConnection
    | .finished => none
  disturb p w := some { w with running := Function.update w.running p false }

/-- No daemon was ever started: the start-ups wait, each in a process of its own. -/
def boot (path : String) (starts : ℕ → Bool) : Config Call Call.Response ThreadEnd World where
  world :=
    { process := fun i => if starts i then some i else none
      running := fun _ => true
      lock := none
      socket := none
      nextSocket := 0
      boundBy := fun _ => none
      listening := fun _ => false }
  thread i := if starts i then daemonMain path else pure .finished

end IgnibyteBridge.Daemon
