import IgnibyteBridge.Concurrency.Bounded
import IgnibyteBridge.Session.Locking

/-!
# Every start and stop ends

A start or a stop performs a bounded number of actions, and none of them waits but for
`status.lock`. Whoever holds that lock is never stuck.
-/

namespace IgnibyteBridge

open Concurrency Program Fallible World

/-! ## Counting actions -/

section Combinators

variable {α : Type} {n : ℕ}

/-- An action on directories, locks and records is one action. -/
theorem atMost_disk (a : DiskAct) : Fallible.AtMost 1 (disk a) := atMost_lift (atMost_perform _)

/-- An action on processes and threads is one action. -/
theorem atMost_proc (a : ProcessAct) : Fallible.AtMost 1 (proc a) := atMost_lift (atMost_perform _)

/-- An action on FIFOs, logs, screens and PTYs is one action. -/
theorem atMost_file (a : FileAct) : Fallible.AtMost 1 (file a) := atMost_lift (atMost_perform _)

/-- Handling an error performs nothing more. -/
theorem atMost_caught {p : Result α} (h : Fallible.AtMost n p) : Fallible.AtMost n (caught p) :=
  atMost_lift h.run

/-- `?` performs nothing. -/
theorem atMost_try (n : ℕ) (x : Except String α) : Fallible.AtMost n (try_ x) := by
  cases x with
  | ok a => exact atMost_pure n a
  | error e => exact atMost_throw n e

/-- `?` after a context performs nothing. -/
theorem atMost_orThrow (n : ℕ) (context : String) (x : Option α) :
    Fallible.AtMost n (orThrow context x) := by
  cases x with
  | some a => exact atMost_pure n a
  | none => exact atMost_throw n context

/-- The check that a call succeeded performs nothing. -/
theorem atMost_ensure (n : ℕ) (context : String) (ok : Bool) :
    Fallible.AtMost n (ensure context ok) := by
  cases ok with
  | true => exact atMost_pure n ()
  | false => exact atMost_throw n context

/-- A check that performs nothing, before `n` actions. -/
theorem AtMost.after_sessionDir {name : String} {f : Unit → Result α}
    (h : Fallible.AtMost n (f ())) : Fallible.AtMost n (sessionDir name >>= f) := by
  have hbind := (atMost_try 0 (validateSessionName name)).bind fun _ => h
  exact hbind.mono (by omega)

end Combinators

/-- A load is one action. -/
theorem atMost_loadMetadata (name : String) : Fallible.AtMost 1 (loadMetadata name) :=
  AtMost.after_sessionDir ((atMost_disk _).bind fun _ => atMost_try 0 _)

/-- A save is one action. -/
theorem atMost_saveMetadata (site : Site) (m : SessionMetadata) :
    Fallible.AtMost 1 (saveMetadata site m) :=
  AtMost.after_sessionDir ((atMost_disk _).bind fun _ => atMost_try 0 _)

/-- A lock takes two actions more than what is done under it. -/
theorem atMost_withStatusLock {α : Type} {n : ℕ} (name : String) {body : Result α}
    (h : Fallible.AtMost n body) : Fallible.AtMost (n + 2) (withStatusLock name body) := by
  refine ((atMost_disk _).bind (n := n + 1) fun r => ?_).mono (by omega)
  cases r with
  | held =>
    refine (atMost_caught h).bind (n := 1) fun outcome => ?_
    exact (atMost_disk _).bind fun _ => atMost_try 0 outcome
  | _ => exact atMost_throw _ _

/-- `start.lock` takes two actions more than what is done under it. -/
theorem atMost_withStartLock {α : Type} {n : ℕ} (name : String) {body : Result α}
    (h : Fallible.AtMost n body) : Fallible.AtMost (n + 2) (withStartLock name body) := by
  refine ((atMost_disk _).bind (n := n + 1) fun r => ?_).mono (by omega)
  cases r with
  | held =>
    refine (atMost_caught h).bind (n := 1) fun outcome => ?_
    exact (atMost_disk _).bind fun _ => atMost_try 0 outcome
  | _ => exact atMost_throw _ _

/-- A run is marked Stopped in four actions: the lock, a load, a save and the lock again. -/
theorem atMost_markStopped (name : String) (exitStatus : Option String)
    (exitCode generation : Option ℕ) (by_ : Stopper) :
    Fallible.AtMost 4 (markStopped name exitStatus exitCode generation by_) := by
  refine AtMost.after_sessionDir (atMost_withStatusLock name ?_)
  refine (atMost_loadMetadata name).bind fun m => (atMost_pure 1 ()).ite ((atMost_pure 1 ()).ite ?_)
  exact atMost_saveMetadata _ _

/-- Two processes may be looked at. -/
theorem atMost_sessionIsActive (m : SessionMetadata) : Fallible.AtMost 2 (sessionIsActive m) := by
  refine AtMost.ite ?_ (atMost_pure 2 false)
  exact (atMost_proc _).bind fun _ => (atMost_pure 1 true).ite (atMost_proc _)

/-- The check of a name loads the record first. -/
theorem atMost_bailIfRunning (name : String) : Fallible.AtMost 3 (bailIfRunning name) := by
  refine (atMost_caught (atMost_loadMetadata name)).bind (n := 2) fun r => ?_
  cases r with
  | ok m =>
    exact (atMost_sessionIsActive m).bind fun _ => (atMost_throw 0 _).ite (atMost_pure 0 ())
  | error e => exact atMost_pure 2 ()

/-- A rotation looks at a log and may rename it. -/
theorem atMost_rotatePreviousLog (env : Env) (log : Log) (name : String) :
    Fallible.AtMost 2 (rotatePreviousLog env log name) := by
  refine (atMost_file _).bind (n := 1) fun r => ?_
  split
  · exact (atMost_file _).bind fun _ => atMost_ensure 0 _ _
  · exact atMost_pure 1 ()

/-- The FIFO is looked for, removed and made, two logs are rotated and three files made. -/
theorem atMost_createFiles (env : Env) (name : String) :
    Fallible.AtMost 10 (createFiles env name) := by
  have hmake : Fallible.AtMost 8 (do
      ensure s!"failed to create {env.inputFifo name}" (← file (.mkfifo name))
      rotatePreviousLog env .raw name
      rotatePreviousLog env .clean name
      ensure "failed to create raw log" (← file (.createPrivateLog .raw name)).isSome
      ensure "failed to create clean log" (← file (.createPrivateLog .clean name)).isSome
      ensure "failed to create screen snapshot" (← file (.createScreen name))) := by
    refine (atMost_file _).after (n := 7) (fun _ => atMost_ensure 0 _ _) fun _ => ?_
    refine (atMost_rotatePreviousLog env .raw name).bind (n := 5) fun _ => ?_
    refine (atMost_rotatePreviousLog env .clean name).bind (n := 3) fun _ => ?_
    refine (atMost_file _).after (n := 2) (fun _ => atMost_ensure 0 _ _) fun _ => ?_
    refine (atMost_file _).after (n := 1) (fun _ => atMost_ensure 0 _ _) fun _ => ?_
    exact (atMost_file _).bind fun _ => atMost_ensure 0 _ _
  refine (atMost_file _).bind (n := 9) fun b => ?_
  split
  · exact (atMost_file _).after (n := 8) (fun _ => atMost_ensure 0 _ _) fun _ => hmake
  · exact hmake.mono (by omega)

/-- The beginning of a start: the check, a load, the files and a save. -/
theorem atMost_beginRun (env : Env) (name cwd cmd : String) (rows cols : Option ℕ) :
    Fallible.AtMost 15 (beginRun env name cwd cmd rows cols) := by
  refine (atMost_bailIfRunning name).bind (n := 12) fun _ => AtMost.after_sessionDir ?_
  refine (atMost_try 0 _).bind (n := 12) fun command => ?_
  refine (atMost_caught (atMost_loadMetadata name)).bind (n := 11) fun previous => ?_
  refine (atMost_createFiles env name).bind (n := 1) fun _ => ?_
  exact (atMost_saveMetadata _ _).bind fun _ => atMost_pure 0 _

/-- Each poll is one action. -/
theorem atMost_pollRunning (name : String) (n : ℕ) :
    Fallible.AtMost n (pollRunning name n) := by
  induction n with
  | zero => exact atMost_pure 0 none
  | succ n ih =>
    refine ((atMost_loadMetadata name).bind (n := n) fun m => ?_).mono (by omega)
    cases m.status with
    | running => exact atMost_pure n _
    | stopped => exact (atMost_pure n _).ite (atMost_throw n _)
    | starting => exact ih

/-- A process is looked at and may be signalled. -/
theorem atMost_terminateRecorded (pid startTime : Option ℕ) :
    Fallible.AtMost 2 (terminateRecorded pid startTime) := by
  refine (atMost_proc _).bind fun _ => AtMost.ite ?_ (atMost_pure 1 true)
  cases pid with
  | none => exact atMost_pure 1 true
  | some p => exact (atMost_proc _).bind fun _ => atMost_pure 0 _

/-- A wait polls fifty times, loads once more, and may signal two processes and mark the run. -/
theorem atMost_waitForRunningMetadata (name : String) :
    Fallible.AtMost 59 (waitForRunningMetadata name) := by
  refine (atMost_pollRunning name 50).bind (n := 9) fun r => ?_
  cases r with
  | some m => exact atMost_pure 9 m
  | none =>
    refine (atMost_caught (atMost_loadMetadata name)).bind (n := 8) fun r => ?_
    cases r with
    | error e => exact atMost_throw 8 _
    | ok m =>
      dsimp only
      cases m.status with
      | running => exact atMost_pure 8 m
      | stopped => exact (atMost_pure 8 m).ite (atMost_throw 8 _)
      | starting =>
        refine (atMost_terminateRecorded ..).bind (n := 6) fun _ => ?_
        refine (atMost_terminateRecorded ..).bind (n := 4) fun _ => ?_
        exact (atMost_caught (atMost_markStopped ..)).bind fun _ => atMost_throw 0 _

/-- A direct start performs at most eighty actions. -/
theorem atMost_startSessionDetached (env : Env) (name : String) (cwd : Option String)
    (cmd : String) (rows cols : Option ℕ) :
    Fallible.AtMost 80 (startSessionDetached env name cwd cmd rows cols) := by
  refine AtMost.after_sessionDir ?_
  refine (atMost_proc _).after (n := 79) (fun _ => atMost_try 0 _) fun _ => ?_
  refine (atMost_disk _).after (n := 78) (fun _ => atMost_try 0 _) fun _ => ?_
  refine atMost_withStartLock name ?_
  refine (atMost_beginRun ..).bind (n := 61) fun _ => ?_
  refine (atMost_proc _).after (n := 60) (fun _ => atMost_ensure 0 _ _) fun _ => ?_
  refine (atMost_proc _).after (n := 59) (fun _ => atMost_orThrow 0 _ _) fun _ => ?_
  exact atMost_waitForRunningMetadata name

/-- A start in the daemon performs at most eighty actions. -/
theorem atMost_startSessionInDaemon (env : Env) (name : String) (cwd : Option String)
    (cmd : String) (clientPath : Option String) (rows cols : Option ℕ) :
    Fallible.AtMost 80 (startSessionInDaemon env name cwd cmd clientPath rows cols) := by
  refine AtMost.after_sessionDir ?_
  refine (atMost_proc _).after (n := 79) (fun _ => atMost_try 0 _) fun _ => ?_
  refine (atMost_disk _).after (n := 78) (fun _ => atMost_try 0 _) fun _ => ?_
  refine atMost_withStartLock name ?_
  refine ((atMost_beginRun ..).bind (n := 60) fun _ => ?_).mono (by omega)
  exact (atMost_proc _).bind fun _ => atMost_waitForRunningMetadata name

/-- A process is looked at and may be signalled. -/
theorem atMost_signalRecorded (kind : String) (pid startTime : Option ℕ) :
    Fallible.AtMost 2 (signalRecorded kind pid startTime) := by
  refine (atMost_proc _).bind (n := 1) fun _ => AtMost.ite ?_ (atMost_pure 1 [])
  cases pid with
  | none => exact atMost_pure 1 []
  | some p => exact (atMost_proc _).bind fun _ => atMost_pure 0 _

/-- A stop performs at most nine actions. -/
theorem atMost_stopSessionSilent (name : String) :
    Fallible.AtMost 9 (stopSessionSilent name) := by
  refine AtMost.after_sessionDir ?_
  refine (atMost_loadMetadata name).bind (n := 8) fun m => (atMost_pure 8 ()).ite ?_
  refine (atMost_signalRecorded ..).bind (n := 6) fun childErrors => ?_
  refine (atMost_signalRecorded ..).bind (n := 4) fun supervisorErrors => ?_
  split
  · exact atMost_markStopped ..
  · exact atMost_throw 4 _

/-! ## Threads that manage sessions -/

/-- A request to start or stop a session. -/
def Request.manages (request : Request) : Bool :=
  match request.command with
  | .start .. => true
  | .stop _ => true
  | _ => false

/-- The end of the thread is one more action. -/
theorem atMost_reply {α : Type} {n : ℕ} {p : Result α} (h : Fallible.AtMost n p) :
    (reply p).AtMost (n + 1) :=
  h.run.bind fun _ => .act fun _ => .done 0 _

/-- The actions of a thread that serves a start or a stop. -/
def Act.replies (a : Act) : Bool := a.directs || a.leaves

/-- A thread that has ended has replied. -/
def ThreadResult.Replied (result : ThreadResult) : Prop := ∃ r, result = .replied r

/-- A thread that replies does what its function does, and ends. -/
theorem only_reply {α : Type} {p : Result α} (h : Performs (fun a => a.directs = true) p) :
    (reply p).Only (fun a => a.replies = true) ThreadResult.Replied := by
  have hrun : p.run.Only (fun a => a.replies = true) fun _ => True :=
    h.run.mono fun a ha => by simp [Act.replies, ha]
  refine (follows_bind ..).mpr (Follows.mono hrun fun x g _ => ?_)
  exact ⟨rfl, fun _ _ => ⟨_, rfl⟩⟩

/-- A start or a stop performs at most eighty-one actions, the end of its thread included. -/
theorem program_bounded (env : Env) {request : Request} (h : request.manages = true) :
    (request.program env).AtMost 81 ∧
      (request.program env).Only (fun a => a.replies = true) ThreadResult.Replied := by
  obtain ⟨viaDaemon, command⟩ := request
  cases command with
  | start name cwd cmd path rows cols =>
    cases viaDaemon with
    | true =>
      exact ⟨atMost_reply (atMost_startSessionInDaemon ..),
        only_reply (performs_startSessionInDaemon (fun _ => id) ..)⟩
    | false =>
      exact ⟨atMost_reply (atMost_startSessionDetached ..),
        only_reply (performs_startSessionDetached (fun _ => id) ..)⟩
  | stop name =>
    refine ⟨(atMost_reply (atMost_stopSessionSilent name)).mono (by omega), only_reply ?_⟩
    exact performs_stopSessionSilent (manages_of_directs fun _ => id) name
  | send name text noEnter => cases h
  | keys name keys => cases h
  | shutdown => cases h

/-! ## Going on -/

/-- The environment lets an action succeed; only `start.lock` may be taken already. -/
structure Choice.Succeeds (c : Choice) : Prop where
  ok : c.ok = true
  flock : c.flock = .held ∨ c.flock = .wouldBlock

namespace World

/-- A thread and a process can still be started. -/
def Room (w : World) : Prop := ∃ j p, w.life j = .unborn ∧ w.process p = .unborn

variable {w : World} {k : ℕ} {a : Act}

/-- Only for `status.lock` does a start or a stop wait. -/
theorem proceeds_of_replies (ha : a.replies = true) (hroom : w.Room)
    (hwaits : ∀ name, a = .disk (.acquireStatusLock name) →
      w.lockFree (w.statusLock name) = true) :
    ∃ c : Choice, c.Succeeds ∧ (perform k a c w).isSome = true := by
  have hfine : Choice.Succeeds {} := ⟨rfl, .inl rfl⟩
  obtain ⟨j, p, hj, hp⟩ := hroom
  cases a with
  | disk a =>
    cases a
    case acquireStartLock name =>
      cases hfree : w.lockFree (w.startLock name) with
      | true => exact ⟨{}, hfine, by simp [perform, performDisk, hfree]⟩
      | false =>
        refine ⟨{ flock := .wouldBlock }, ⟨rfl, .inr rfl⟩, ?_⟩
        simp [perform, performDisk, hfree]
    case acquireStatusLock name =>
      exact ⟨{}, hfine, by simp [perform, performDisk, hwaits name rfl]⟩
    case loadMetadata name =>
      refine ⟨{}, hfine, ?_⟩
      simp only [perform, performDisk]
      split <;> rfl
    all_goals exact ⟨{}, hfine, rfl⟩
  | process a =>
    cases a
    case spawnSupervisor name cwd cmd =>
      refine ⟨{ thread := j, pid := p }, ⟨rfl, .inl rfl⟩, ?_⟩
      simp [perform, performProcess, hj, hp]
    case spawnOwner name cwd cmd clientPath generation =>
      refine ⟨{ thread := j }, ⟨rfl, .inl rfl⟩, ?_⟩
      simp [perform, performProcess, hj]
    case resolveCwd => exact ⟨{}, hfine, rfl⟩
    case attempt => exact ⟨{}, hfine, rfl⟩
    case pidIsOurs => exact ⟨{}, hfine, rfl⟩
    case terminatePid => exact ⟨{}, hfine, rfl⟩
    case leave => exact ⟨{}, hfine, rfl⟩
    all_goals cases ha
  | file a =>
    refine ⟨{}, hfine, ?_⟩
    cases a
    case logLength log name =>
      simp only [perform, performFile]
      split <;> rfl
    case mkfifo name =>
      simp only [perform, performFile]
      split <;> rfl
    case renameLog log name =>
      simp only [perform, performFile]
      split <;> rfl
    case fifoExists => rfl
    case removeFifo => rfl
    case createPrivateLog => rfl
    case createScreen => rfl
    all_goals cases ha

end World

/-- **Starts and stops end.** In every run, whatever the other threads do: a thread that serves
a start or a stop performs at most eighty-one actions until it has replied. Unless something
kills it, it can perform the next one at once, if there is room for a thread and a process that
the action may start, or it waits for a `status.lock` whose holder is another thread that can
take its next step, whatever the environment answers. -/
theorem start_stop_ends (env : Env) (requests : ℕ → Option Request) {k : ℕ} {request : Request}
    {t : Config Act Act.Response ThreadResult World} {log : List Did}
    (hrequest : requests k = some request) (hmanages : request.manages = true)
    (hrun : (bridge env).Traced (fun _ _ _ _ => True) k (boot env requests) log t) :
    log.length ≤ 81 ∧ (t.world.alive k = true →
    ((∃ r, t.thread k = .done (.replied r)) ∨ ∃ a, (t.thread k).head = some a ∧
      ((t.world.Room →
          ∃ c : Choice, c.Succeeds ∧ ((bridge env).perform k a c t.world).isSome = true) ∨
        ∃ name j b, a = .disk (.acquireStatusLock name) ∧ t.world.statusLock name = some j ∧
          t.world.alive j = true ∧ j ≠ k ∧ (t.thread j).head = some b ∧
          ∀ c, ((bridge env).perform j b c t.world).isSome = true))) := by
  have hleads := hrun.leads fun halive h => launched_ne_self halive h
  have hprogram : (boot env requests).thread k = request.program env := by
    simp only [boot, hrequest]
  rw [hprogram] at hleads
  obtain ⟨hbounded, honly⟩ := program_bounded env hmanages
  have hrest := honly.of_leads hleads
  refine ⟨hbounded.length_le hleads, fun halive => ?_⟩
  cases hthread : t.thread k with
  | done x =>
    rw [hthread] at hrest
    obtain ⟨r, rfl⟩ : x.Replied := hrest
    exact .inl ⟨r, rfl⟩
  | act a next =>
    rw [hthread] at hrest
    refine .inr ⟨a, rfl, ?_⟩
    by_cases hwaits : ∀ name, a = .disk (.acquireStatusLock name) →
        t.world.lockFree (t.world.statusLock name) = true
    · exact .inl fun hroom => proceeds_of_replies hrest.1 hroom hwaits
    · obtain ⟨name, hname⟩ := not_forall.mp hwaits
      obtain ⟨rfl, hheld⟩ := Classical.not_imp.mp hname
      cases hlock : t.world.statusLock name with
      | none => simp [lockFree, hlock] at hheld
      | some j =>
        have hj : t.world.alive j = true := by simpa [lockFree, hlock] using hheld
        obtain ⟨hne, b, hb, hproceeds⟩ :=
          waits_for_other hrun.reaches halive (by rw [hthread]; rfl) hj hlock
        exact .inr ⟨name, j, b, rfl, hlock, hj, hne, hb, hproceeds⟩

/-- A stop waits for the owner of a run, which is recording its child. -/
theorem start_stop_ends_waiting :
    ∃ (t : Config Act Act.Response ThreadResult World) (log : List Did),
      (bridge plainEnv).Traced (fun _ _ _ _ => True) 1
        (boot plainEnv (served [startDemo true, stopDemo])) log t ∧
      log.length = 3 ∧ t.world.statusLock "demo" = some 2 ∧ t.world.Room ∧
      ((∃ r, t.thread 1 = .done (.replied r)) ∨ ∃ a, (t.thread 1).head = some a ∧
        ((t.world.Room →
            ∃ c : Choice, c.Succeeds ∧ ((bridge plainEnv).perform 1 a c t.world).isSome = true) ∨
          ∃ name j b, a = .disk (.acquireStatusLock name) ∧ t.world.statusLock name = some j ∧
            t.world.alive j = true ∧ j ≠ 1 ∧ (t.thread j).head = some b ∧
            ∀ c, ((bridge plainEnv).perform j b c t.world).isSome = true)) := by
  have hrun : ((bridge plainEnv).trace System.unrestricted 1
      (steps 0 13 ++ [.run 0 { thread := 2 }] ++ steps 2 2 ++
        [.run 2 { pid := 7, startTime := 100 }] ++ steps 2 1 ++ steps 1 3)
      (boot plainEnv (served [startDemo true, stopDemo]))).any (fun e =>
        decide (e.1.length = 3) && decide (e.2.world.statusLock "demo" = some 2) &&
        e.2.world.alive 1 && decide (e.2.world.life 3 = .unborn) &&
        decide (e.2.world.process 8 = .unborn)) = true := by
    decide +kernel
  obtain ⟨⟨log, t⟩, htrace, ht⟩ := (Option.any_eq_true _ _).mp hrun
  simp only [Bool.and_eq_true, decide_eq_true_eq] at ht
  obtain ⟨⟨⟨⟨hlength, hlock⟩, halive⟩, hlife⟩, hprocess⟩ := ht
  have htraced := (System.traced_of_trace htrace).mono fun _ _ _ _ _ => trivial
  exact ⟨t, log, htraced, hlength, hlock, ⟨3, 8, hlife, hprocess⟩,
    (start_stop_ends plainEnv _ rfl rfl htraced).2 halive⟩

end IgnibyteBridge
