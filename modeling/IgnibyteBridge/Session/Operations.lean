import IgnibyteBridge.Concurrency.Descent
import IgnibyteBridge.Logs.Tail
import IgnibyteBridge.Session.Programs

/-!
# The operations of the program

Every request to the daemon and every command that works on sessions. Starts,
stops and input are programs over the shared world; reports are, too, but they
also read logs and screens, which no other operation does.
-/

namespace IgnibyteBridge

open Concurrency

/-- An action of an operation. -/
inductive Access where
  | act (a : Act)
  /-- Opening a log and reading it. -/
  | readLog (log : Log) (name : String)
  | readScreen (name : String)
  /-- The time, idleness and length that the raw log's attributes tell. -/
  | statLog (name : String)
  /-- `ensure_bridge_dir` of the sessions root. -/
  | ensureSessionsRoot

/-- What an action of an operation returns. -/
abbrev Access.Response : Access → Type
  | .act a => a.Response
  | .readLog .. => Option (List UInt8)
  | .readScreen _ => Option (List Char)
  | .statLog _ => Option (ℕ × ℕ × ℕ)
  | .ensureSessionsRoot => Except String Unit

/-- One atomic action of an operation. -/
def World.access (i : ℕ) : (a : Access) → Choice → World → Option (a.Response × World)
  | .act a, c, w => World.perform i a c w
  | .readLog log name, c, w =>
    some (if c.ok then (w.files.log log name).map w.files.contents else none, w)
  | .readScreen name, c, w => some (if c.ok then w.files.screen name else none, w)
  | .statLog name, c, w =>
    some (if c.ok then
      (w.files.log .raw name).map fun file =>
        (c.startTime, c.count, (w.files.contents file).length)
      else none, w)
  | .ensureSessionsRoot, c, w => some (if c.ok then .ok () else .error c.error, w)

/-- A program over the shared world, as part of an operation. -/
def ofActs {α : Type} : Prog α → Program Access Access.Response α
  | .done x => .done x
  | .act a next => .act (.act a) fun r => ofActs (next r)

/-- A report, which may fail. -/
abbrev Query (α : Type) := Fallible Access Access.Response String α

/-- A function that the reports share with the other operations. -/
def Query.of {α : Type} (p : Result α) : Query α := ExceptT.mk (ofActs p.run)

/-- An action of a report. -/
def Query.access (a : Access) : Query a.Response := Fallible.perform a

/-! ## Reports -/

/-- `read_output_text`. -/
def readOutputText (env : Env) (name : String) (tail : ℕ) (raw : Bool) : Query (List Char) := do
  Query.of (sessionDir name)
  Query.of (sessionDir name)
  let log := if raw then Log.raw else Log.clean
  let contents ← Query.access (.readLog log name)
  Query.of (try_ (tailFile (env.path name log.fileName) contents tail))

/-- The path of a session's `SCREEN_SNAPSHOT`. -/
def Env.screenSnapshot (env : Env) (name : String) : String := env.path name "screen.txt"

/-- `read_screen_text`. -/
def readScreenText (env : Env) (name : String) (tail : ℕ) : Query (List Char) := do
  Query.of (sessionDir name)
  Query.of (sessionDir name)
  let contents ← Query.access (.readScreen name)
  let contents ← Query.of (orThrow s!"failed to read {env.screenSnapshot name}" contents)
  pure (tailLines contents tail)

/-- `session_activity`. -/
def sessionActivity (name : String) : Query (Option (ℕ × ℕ × ℕ)) := do
  match ← Query.of (caught (sessionDir name)) with
  | .error _ => pure none
  | .ok _ => Query.access (.statLog name)

/-- What `status_text` reports: the record, whether the recorded supervisor and child
are alive, and the activity. -/
def statusReport (name : String) :
    Query (SessionMetadata × Bool × Bool × Option (ℕ × ℕ × ℕ)) := do
  Query.of (sessionDir name)
  let metadata ← Query.of (loadMetadata name)
  let supervisorAlive ←
    Query.of (proc (.pidIsOurs metadata.supervisorPid metadata.supervisorStartTime))
  let childAlive ← Query.of (proc (.pidIsOurs metadata.childPid metadata.childStartTime))
  let activity ← sessionActivity name
  pure (metadata, supervisorAlive, childAlive, activity)

/-- The records of the directory entries that have one. -/
def loadEntries : List String → Result (List SessionMetadata)
  | [] => pure []
  | name :: entries => do
    let metadata ← caught (loadMetadata name)
    let sessions ← loadEntries entries
    pure (metadata.toOption.toList ++ sessions)

/-- The lines of a listing: the record, whether its child is alive, and the activity. -/
def listLines : List SessionMetadata → Query (List (SessionMetadata × Bool × Option (ℕ × ℕ × ℕ)))
  | [] => pure []
  | metadata :: sessions => do
    let childAlive ← Query.of (proc (.pidIsOurs metadata.childPid metadata.childStartTime))
    let activity ← sessionActivity metadata.name
    let lines ← listLines sessions
    pure ((metadata, childAlive, activity) :: lines)

/-- What `list_sessions_text` reports. -/
def listReport (env : Env) : Query (List (SessionMetadata × Bool × Option (ℕ × ℕ × ℕ))) := do
  let ensured ← Query.access .ensureSessionsRoot
  Query.of (try_ ensured)
  match ← Query.of (disk .readSessions) with
  | .error _ => throw s!"failed to read {env.root}/sessions"
  | .ok entries =>
    let sessions ← Query.of (loadEntries entries)
    listLines (sessions.mergeSort fun left right => decide (left.name ≤ right.name))

/-! ## Operations -/

/-- The session that a request names. -/
def Command.session : Command → Option String
  | .start name .. | .send name .. | .keys name _ | .stop name => some name
  | .shutdown => none

/-- A request or a command that works on sessions. -/
inductive Operation where
  | request (request : Request)
  | read (name : String) (tail : ℕ) (raw : Bool)
  | screen (name : String) (tail : ℕ)
  | status (name : String)
  | list
  /-- The hidden command that owns one session. -/
  | supervisor (name cwd cmd : String)

namespace Operation

/-- The string that is given as a session's name. -/
def session : Operation → Option String
  | .request r => r.command.session
  | .read name .. | .screen name _ | .status name | .supervisor name .. => some name
  | .list => none

/-- The thread that makes a report. -/
def answer {α : Type} (q : Query α) : Program Access Access.Response ThreadResult := do
  let outcome ← (q.run : Program Access Access.Response (Except String α))
  ofActs (leave (.replied (outcome.map fun _ => ())))

/-- The thread of an operation. -/
def program (env : Env) : Operation → Program Access Access.Response ThreadResult
  | .request r => ofActs (r.program env)
  | .read name tail raw => answer (readOutputText env name tail raw)
  | .screen name tail => answer (readScreenText env name tail)
  | .status name => answer (statusReport name)
  | .list => answer (listReport env)
  | .supervisor name cwd cmd => ofActs (reply (runSupervisor env name cwd cmd))

end Operation

/-- The thread that an action of an operation starts. -/
def Access.launched (env : Env) :
    (a : Access) → a.Response → Option (ℕ × Program Access Access.Response ThreadResult)
  | .act a, r => (IgnibyteBridge.launched env a r).map fun (j, p) => (j, ofActs p)
  | _, _ => none

/-- All operations, interleaved. -/
def console (env : Env) :
    System Access Access.Response ThreadResult World Choice World.Disturbance where
  alive := World.alive
  perform := World.access
  launched := Access.launched env
  again x := (again env x).map ofActs
  disturb e w := w.disturb e

/-- The machine when the operations are about to begin. -/
def Operation.boot (env : Env) (w : World) (ops : ℕ → Option Operation) :
    Config Access Access.Response ThreadResult World where
  world := w
  thread i := match ops i with
    | some op => op.program env
    | none => pure .finished

/-- A record that is loaded from a session's directory carries one of the names that
records there may carry: neither loading nor saving compares it with the directory. -/
def Access.Answers (carries : String → String → Prop) : (a : Access) → a.Response → Prop
  | .act (.disk (.loadMetadata name)), r => ∀ m, r = .ok m → carries name m.name
  | _, _ => True

namespace Operation

/-- A thread of an operation: its own one, or one that it starts, after any answers of a
disk whose records carry such names. -/
def Thread (env : Env) (carries : String → String → Prop) (op : Operation)
    (p : Program Access Access.Response ThreadResult) : Prop :=
  Descends (console env) (Access.Answers carries) (op.program env) p

/-- What a thread of the operation replies. -/
def Replies (env : Env) (carries : String → String → Prop) (op : Operation)
    (result : Except String Unit) : Prop :=
  op.Thread env carries (.done (.replied result))

end Operation

end IgnibyteBridge
