import IgnibyteBridge.Session.Programs

/-!
# Terminating recorded processes

`terminate_pid` and its callers, system call by system call. In the programs of
the other modules it is one action; here other processes may exit and start
between any two of its calls.
-/

namespace IgnibyteBridge

open Concurrency

/-- The signals that are sent. -/
inductive Signal where
  | term
  | kill
  deriving DecidableEq

/-- The outcome of `kill`. -/
inductive Sent where
  | ok
  /-- `ESRCH`. -/
  | noProcess
  | failed (error : String)
  deriving DecidableEq

/-- The system calls of a stop, and its access to the session's record. -/
inductive StopAct where
  | loadMetadata (name : String)
  | markStopped (name exitStatus : String) (generation : ℕ)
  /-- `kill`; a negative target is a process group. -/
  | kill (target : ℤ) (signal : Signal)
  /-- `kill` without a signal, which succeeds or is refused if the target exists. -/
  | processAlive (pid : ℤ)
  | processStartTime (pid : ℕ)
  /-- `thread::sleep` for 100 ms. -/
  | sleep

/-- What a call returns. -/
abbrev StopAct.Response : StopAct → Type
  | .loadMetadata _ => Except String SessionMetadata
  | .markStopped .. => Except String Unit
  | .kill .. => Sent
  | .processAlive _ => Bool
  | .processStartTime _ => Option ℕ
  | .sleep => Unit

namespace Termination

/-- A program that returns a `Result`. -/
abbrev Result (α : Type) := Fallible StopAct StopAct.Response String α

/-- A call. -/
abbrev call (a : StopAct) : Result a.Response := Fallible.perform a

/-- `pid as i32`, of a `u32`. -/
@[irreducible]
def asI32 (pid : ℕ) : ℤ := Int.bmod pid (2 ^ 32)

/-- The loop of `signal_pid_and_group`: whether a signal was sent, and the errors. -/
def signalTargets (signal : Signal) : List ℤ → Bool → List String → Result (Bool × List String)
  | [], sent, errors => pure (sent, errors)
  | target :: targets, sent, errors => do
    match ← call (.kill target signal) with
    | .ok => signalTargets signal targets true errors
    | .noProcess => signalTargets signal targets sent errors
    | .failed error => signalTargets signal targets sent (errors ++ [s!"{target}: {error}"])

/-- `signal_pid_and_group`. -/
def signalPidAndGroup (pid : ℤ) (signal : Signal) : Result Bool := do
  let (sent, errors) ← signalTargets signal [-pid, pid] false []
  if !sent && !errors.isEmpty then throw (joined errors) else pure sent

/-- The polling loop of `terminate_pid`: whether the process was found gone. -/
def foundGone (pid : ℤ) : ℕ → Result Bool
  | 0 => pure false
  | polls + 1 => do
    if ← call (.processAlive pid) then
      call .sleep
      foundGone pid polls
    else pure true

/-- `terminate_pid`. -/
def terminatePid (pid : ℤ) : Result Unit := do
  if pid ≤ 0 then pure ()
  else
    let termSent ← signalPidAndGroup pid .term
    if ← foundGone pid 20 then pure ()
    else
      let killSent ← signalPidAndGroup pid .kill
      if !termSent && !killSent then pure ()
      else
        if ← foundGone pid 20 then pure ()
        else throw "process did not exit after SIGTERM and SIGKILL"

/-- `pid_is_ours`. -/
def pidIsOurs (pid recordedStartTime : Option ℕ) : Result Bool :=
  match pid with
  | none => pure false
  | some pid => do
    if ← call (.processAlive (asI32 pid)) then
      match recordedStartTime with
      | some token => do
        let startTime ← call (.processStartTime pid)
        pure (startTime == some token)
      | none => pure true
    else pure false

/-- Signal a recorded process that is still ours, and return what came of it. -/
def terminateRecorded (pid startTime : Option ℕ) : Result (Except String Unit) := do
  if ← pidIsOurs pid startTime then
    match pid with
    | none => pure (.ok ())
    | some pid => Fallible.outcome (terminatePid (asI32 pid))
  else pure (.ok ())

/-- The error that a failed signal adds. -/
def errorsOf (kind : String) (pid : Option ℕ) (outcome : Except String Unit) : List String :=
  signalErrors kind (pid.getD 0) outcome

/-- An error becomes the program's own. -/
def orFail {α : Type} : Except String α → Result α
  | .ok x => pure x
  | .error e => throw e

/-- `stop_session_silent`. -/
def stopSessionSilent (name : String) : Result Unit := do
  orFail (validateSessionName name)
  let metadata ← orFail (← call (.loadMetadata name))
  if metadata.status = .stopped then pure ()
  else
    let child ← terminateRecorded metadata.childPid metadata.childStartTime
    let supervisor ← terminateRecorded metadata.supervisorPid metadata.supervisorStartTime
    match errorsOf "child" metadata.childPid child ++
        errorsOf "supervisor" metadata.supervisorPid supervisor with
    | [] => orFail (← call (.markStopped name "stopped by user" metadata.generation))
    | errors => throw s!"failed to stop session '{name}': {joined errors}"

/-- The polling loop of `wait_for_running_metadata`. -/
def pollRunning (name : String) : ℕ → Result (Option SessionMetadata)
  | 0 => pure none
  | polls + 1 => do
    call .sleep
    let metadata ← orFail (← call (.loadMetadata name))
    match metadata.status with
    | .running => pure (some metadata)
    | .stopped =>
      if metadata.exitCode = some 0 then pure (some metadata)
      else throw (stoppedWhileStarting name metadata)
    | .starting => pollRunning name polls

/-- `wait_for_running_metadata`, whose last part cleans up after a start that timed out. -/
def waitForRunningMetadata (name : String) : Result SessionMetadata := do
  match ← pollRunning name 50 with
  | some metadata => pure metadata
  | none =>
    match ← call (.loadMetadata name) with
    | .error _ => throw s!"session '{name}' did not report running within 5 seconds"
    | .ok metadata =>
      match metadata.status with
      | .running => pure metadata
      | .stopped =>
        if metadata.exitCode = some 0 then pure metadata
        else throw (stoppedWhileStarting name metadata)
      | .starting =>
        let _ ← terminateRecorded metadata.supervisorPid metadata.supervisorStartTime
        let _ ← terminateRecorded metadata.childPid metadata.childStartTime
        let _ ← call (.markStopped name "start timed out" metadata.generation)
        throw s!"session '{name}' did not report running within 5 seconds"

end Termination

end IgnibyteBridge
