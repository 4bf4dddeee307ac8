import Mathlib.Algebra.Group.Nat.Defs

/-!
# Session records

The record that `metadata.json` holds, and the pure checks of `session.rs` on it.
-/

namespace IgnibyteBridge

/-- `SessionStatus`. -/
inductive SessionStatus where
  | starting
  | running
  | stopped
  deriving DecidableEq, Repr

/-- `SessionMetadata`, without its two time stamps. -/
structure SessionMetadata where
  name : String
  cwd : String
  command : List String
  status : SessionStatus
  supervisorPid : Option ℕ
  childPid : Option ℕ
  supervisorStartTime : Option ℕ
  childStartTime : Option ℕ
  generation : ℕ
  rows : ℕ
  cols : ℕ
  exitStatus : Option String
  exitCode : Option ℕ
  /-- The start whose run the record describes. The program does not store this;
  statements about runs refer to it. -/
  origin : ℕ
  deriving DecidableEq, Repr

/-- `SCREEN_ROWS`. -/
def screenRows : ℕ := 40

/-- `SCREEN_COLS`. -/
def screenCols : ℕ := 140

/-- `prev.generation.wrapping_add(1)`, or `1` without a previous record. -/
def nextGeneration (previous : Option SessionMetadata) : ℕ :=
  match previous with
  | none => 1
  | some previous => (previous.generation + 1) % 2 ^ 64

/-- The record that `initialize_session_files` saves. -/
def initialMetadata (name cwd : String) (command : List String) (generation : ℕ)
    (rows cols : Option ℕ) : SessionMetadata where
  name := name
  cwd := cwd
  command := command
  status := .starting
  supervisorPid := none
  childPid := none
  supervisorStartTime := none
  childStartTime := none
  generation := generation
  rows := (rows.filter (0 < ·)).getD screenRows
  cols := (cols.filter (0 < ·)).getD screenCols
  exitStatus := none
  exitCode := none
  origin := 0

/-- The record with the pair that identifies its supervisor. -/
def SessionMetadata.withSupervisor (metadata : SessionMetadata) (pid : ℕ)
    (startTime : Option ℕ) : SessionMetadata :=
  { metadata with supervisorPid := some pid, supervisorStartTime := startTime }

/-- The record with its child's PID, which is dropped when the token that pairs
with it could not be read, and the command that was run. -/
def SessionMetadata.withChild (metadata : SessionMetadata) (pid : ℕ) (startTime : Option ℕ)
    (command : List String) : SessionMetadata :=
  { metadata with
    childPid := startTime.map fun _ => pid
    childStartTime := startTime
    command := command }

/-- The record promoted to Running. -/
def SessionMetadata.promoted (metadata : SessionMetadata) : SessionMetadata :=
  { metadata with status := .running }

/-- The record marked Stopped, with its exit information. -/
def SessionMetadata.markedStopped (metadata : SessionMetadata) (exitStatus : Option String)
    (exitCode : Option ℕ) : SessionMetadata :=
  { metadata with status := .stopped, exitStatus := exitStatus, exitCode := exitCode }

/-- `check_run_live`. -/
def checkRunLive (metadata : SessionMetadata) (generation : ℕ) (name : String) :
    Except String Unit :=
  if metadata.generation ≠ generation then
    .error s!"session '{name}' was superseded by a newer start"
  else if metadata.status = .stopped then
    .error s!"session '{name}' was stopped during startup"
  else .ok ()

/-- What a record that passes the check satisfies. -/
theorem checkRunLive_eq_ok {metadata : SessionMetadata} {generation : ℕ} {name : String} {u : Unit}
    (h : checkRunLive metadata generation name = .ok u) :
    metadata.generation = generation ∧ metadata.status ≠ .stopped := by
  unfold checkRunLive at h
  split at h
  · cases h
  · next hgeneration =>
    split at h
    · cases h
    · next hstatus => exact ⟨Decidable.not_not.mp hgeneration, hstatus⟩

end IgnibyteBridge
