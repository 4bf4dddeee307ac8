import IgnibyteBridge.Session.Paths
import IgnibyteBridge.Session.Sections

/-!
# Name confinement

Every function that takes a session's name checks it before it builds a path. So an
operation works on the session that it was given, if the name is accepted, and on
none otherwise. Only a save of a record that was loaded goes where the record says:
to the directory of the name in it, which is checked like any other.
-/

namespace IgnibyteBridge

open Concurrency Program Fallible Text

namespace Confinement

/-- The sessions that an operation may work on: those with an accepted name, and only
the one that it was given. -/
structure Granted (own : Option String) (name : String) : Prop where
  valid : validateSessionName name = .ok ()
  given : ∀ s, own = some s → name = s

/-- The names under which an operation may save a record: that of a session which it may
work on, and those that records in its directory carry. -/
structure Savable (carries : String → String → Prop) (own : Option String) (name : String) :
    Prop where
  valid : validateSessionName name = .ok ()
  origin : ∃ given, Granted own given ∧ (name = given ∨ carries given name)

/-- An operation works on granted sessions, and saves records under names they carry. -/
def Permitted (carries : String → String → Prop) (own : Option String) (a : Access) : Prop :=
  ∀ name, a.session = some name → Granted own name ∨ (a.isSave = true ∧ Savable carries own name)

/-- The name that an operation was given, if any, is accepted. -/
def Accepted (own : Option String) : Prop := ∀ s, own = some s → validateSessionName s = .ok ()

/-- The discipline of an operation that was given a name. -/
def discipline (carries : String → String → Prop) (own : Option String) :
    Discipline Access Access.Response Unit :=
  abiding (Permitted carries own) (Access.Answers carries)

/-- The part of the discipline that is about the shared world. -/
def sharing (carries : String → String → Prop) (own : Option String) :
    Discipline Act Act.Response Unit :=
  abiding (fun a => Permitted carries own (.act a)) fun a r => Access.Answers carries (.act a) r

/-- A function that does what is permitted only. -/
abbrev Confined (carries : String → String → Prop) (own : Option String) {α : Type}
    (p : Result α) : Prop :=
  Meets (sharing carries own) (fun _ _ => True) (fun _ _ => True) p ()

/-- A function that succeeds only if the name it was given is accepted. -/
abbrev Checks (carries : String → String → Prop) (own : Option String) {α : Type}
    (p : Result α) : Prop :=
  Meets (sharing carries own) (fun _ _ => Accepted own) (fun _ _ => True) p ()

variable {carries : String → String → Prop} {own : Option String} {α β : Type}

/-- A granted name is the accepted one that was given. -/
theorem Granted.accepted {name : String} (h : Granted own name) : Accepted own := by
  intro s hs
  rw [← h.given s hs]
  exact h.valid

/-- An action on a granted session is permitted. -/
theorem permitted_of_some {a : Access} {name : String} (hsession : a.session = some name)
    (hname : Granted own name) : Permitted carries own a := by
  intro other hother
  rw [hsession, Option.some.injEq] at hother
  exact .inl (hother ▸ hname)

/-- An action that is about no session is permitted. -/
theorem permitted_of_none {a : Access} (hsession : a.session = none) :
    Permitted carries own a := by
  intro other hother
  rw [hsession] at hother
  cases hother

/-! ## Rules -/

section Rules

variable {p : Result α} {f : α → Result β} {name : String}

/-- One function after another. -/
theorem confined_bind (hp : Confined carries own p) (hf : ∀ x, Confined carries own (f x)) :
    Confined carries own (p >>= f) := by
  refine (meets_bind p f _ ()).mpr (Meets.mono hp (fun x _ _ => ?_) fun _ _ => id)
  exact hf x

/-- `?` works on no session. -/
theorem confined_try (x : Except String α) : Confined carries own (try_ x) := by
  cases x <;> trivial

/-- `?` after a context works on no session. -/
theorem confined_orThrow (context : String) (x : Option α) :
    Confined carries own (orThrow context x) := by
  cases x <;> trivial

/-- The check that a call succeeded works on no session. -/
theorem confined_ensure (context : String) (ok : Bool) :
    Confined carries own (ensure context ok) := by
  cases ok <;> trivial

/-- An error that is handled. -/
theorem confined_caught (hp : Confined carries own p) : Confined carries own (caught p) :=
  (meets_caught p _).mpr hp

/-- A branch keeps to the name when both of its sides do. -/
theorem confined_ite {c : Prop} [Decidable c] {q : Result α} (hp : Confined carries own p)
    (hq : Confined carries own q) : Confined carries own (if c then p else q) := by
  split
  · exact hp
  · exact hq

/-- An action on a granted session. -/
theorem confined_on {a : Act} (ha : a.session = some name) (hname : Granted own name) :
    Confined carries own (IgnibyteBridge.lift (Program.perform a)) :=
  (meets_lift_prog _).mpr ⟨permitted_of_some ha hname, fun _ _ => trivial⟩

/-- An action that is about no session. -/
theorem confined_aside {a : Act} (ha : a.session = none) :
    Confined carries own (IgnibyteBridge.lift (Program.perform a)) :=
  (meets_lift_prog _).mpr ⟨permitted_of_none ha, fun _ _ => trivial⟩

/-- A check of a name. -/
theorem confined_sessionDir (name : String) : Confined carries own (sessionDir name) :=
  confined_try _

/-- What follows a check of the name that was given may rely on it. -/
theorem checks_checked {f : Unit → Result β} (hgiven : ∀ s, own = some s → name = s)
    (hf : Granted own name → Confined carries own (f ())) :
    Checks carries own (sessionDir name >>= f) := by
  refine (meets_bind _ f _ ()).mpr (meets_sessionDir (fun hvalid => ?_) fun _ _ => trivial)
  have hname : Granted own name := ⟨hvalid, hgiven⟩
  exact Meets.mono (hf hname) (fun _ _ _ => hname.accepted) fun _ _ => id

/-- A loaded record carries a name that records in that directory carry. -/
theorem meets_loadMetadata (hgiven : ∀ s, own = some s → name = s) :
    Meets (sharing carries own) (fun m _ => carries name m.name ∧ Granted own name)
      (fun _ _ => True) (loadMetadata name) () := by
  refine (meets_bind _ _ _ ()).mpr (meets_sessionDir (fun hvalid => ?_) fun _ _ => trivial)
  have hname : Granted own name := ⟨hvalid, hgiven⟩
  refine (meets_bind _ _ _ ()).mpr
    ((meets_disk _ _).mpr ⟨permitted_of_some rfl hname, fun r hr => ?_⟩)
  exact meets_try (fun m hm => ⟨hr m hm, hname⟩) fun _ _ => trivial

/-- A load checks the name before it reads. -/
theorem confined_loadMetadata (hgiven : ∀ s, own = some s → name = s) :
    Confined carries own (loadMetadata name) :=
  Meets.mono (meets_loadMetadata hgiven) (fun _ _ _ => trivial) fun _ _ => id

/-- What follows a load knows which name the record may carry. -/
theorem confined_loaded {f : SessionMetadata → Result β} (hname : Granted own name)
    (hf : ∀ m, carries name m.name → Confined carries own (f m)) :
    Confined carries own (loadMetadata name >>= f) := by
  refine (meets_bind _ f _ ()).mpr
    (Meets.mono (meets_loadMetadata hname.given) (fun m _ hm => ?_) fun _ _ => id)
  exact hf m hm.1

/-- A save checks the name that the record carries. -/
theorem confined_saveMetadata (site : Site) {m : SessionMetadata}
    (horigin : ∃ given, Granted own given ∧ (m.name = given ∨ carries given m.name)) :
    Confined carries own (saveMetadata site m) := by
  refine (meets_bind _ _ _ ()).mpr (meets_sessionDir (fun hvalid => ?_) fun _ _ => trivial)
  refine (meets_bind _ _ _ ()).mpr ((meets_disk _ _).mpr ⟨?_, fun r _ => confined_try r⟩)
  intro other hother
  obtain rfl : m.name = other := Option.some.inj hother
  exact .inr ⟨rfl, hvalid, horigin⟩

end Rules

/-! ## Processes -/

/-- Looking for a live process works on no session. -/
theorem confined_sessionIsActive (m : SessionMetadata) :
    Confined carries own (sessionIsActive m) := by
  refine confined_ite (confined_bind (confined_aside rfl) fun ours => ?_) trivial
  exact confined_ite trivial (confined_aside rfl)

/-- Signalling a process of a start that timed out works on no session. -/
theorem confined_terminateRecorded (pid startTime : Option ℕ) :
    Confined carries own (terminateRecorded pid startTime) := by
  refine confined_bind (confined_aside rfl) fun ours => confined_ite ?_ trivial
  cases pid with
  | none => trivial
  | some p => exact confined_bind (confined_aside rfl) fun _ => trivial

/-- Signalling a process of a session that is stopped works on no session. -/
theorem confined_signalRecorded (kind : String) (pid startTime : Option ℕ) :
    Confined carries own (signalRecorded kind pid startTime) := by
  refine confined_bind (confined_aside rfl) fun ours => confined_ite ?_ trivial
  cases pid with
  | none => trivial
  | some p => exact confined_bind (confined_aside rfl) fun _ => trivial

/-- Writing to a FIFO that is open works on no session. -/
theorem confined_writeAll (fifo n : ℕ) (bytes : List UInt8) :
    Confined carries own (writeAll fifo n bytes) := by
  induction n generalizing bytes with
  | zero => cases bytes <;> trivial
  | succ n ih =>
    cases bytes with
    | nil => trivial
    | cons byte bytes =>
      refine confined_bind (confined_aside rfl) fun r => ?_
      split
      · trivial
      · trivial
      · exact ih _

/-! ## One session -/

section Sessions

variable {name : String} (hname : Granted own name)

include hname

/-- A section under `status.lock`. -/
theorem confined_withStatusLock {body : Result α} (hbody : Confined carries own body) :
    Confined carries own (withStatusLock name body) := by
  refine confined_bind (confined_on rfl hname) fun r => ?_
  cases r with
  | held =>
    refine confined_bind (confined_caught hbody) fun outcome => ?_
    exact confined_bind (confined_on rfl hname) fun _ => confined_try _
  | _ => trivial

/-- A section under `start.lock`. -/
theorem confined_withStartLock {body : Result α} (hbody : Confined carries own body) :
    Confined carries own (withStartLock name body) := by
  refine confined_bind (confined_on rfl hname) fun r => ?_
  cases r with
  | held =>
    refine confined_bind (confined_caught hbody) fun outcome => ?_
    exact confined_bind (confined_on rfl hname) fun _ => confined_try _
  | _ => trivial

/-- A record that was loaded and changed is saved under the name it carries. -/
theorem confined_update (site : Site) {m : SessionMetadata} (hm : carries name m.name) :
    Confined carries own (saveMetadata site m) :=
  confined_saveMetadata site ⟨name, hname, .inr hm⟩

/-- Marking a run Stopped saves the record that was loaded, wherever it goes. -/
theorem confined_markStopped (exitStatus : Option String) (exitCode generation : Option ℕ)
    (by_ : Stopper) :
    Confined carries own (markStopped name exitStatus exitCode generation by_) := by
  refine confined_bind (confined_sessionDir name) fun _ => confined_withStatusLock hname ?_
  refine confined_loaded hname fun m hm => ?_
  exact confined_ite trivial (confined_ite trivial (confined_update hname _ hm))

/-- The check that the name is not in use. -/
theorem confined_bailIfRunning : Confined carries own (bailIfRunning name) := by
  refine confined_bind (confined_caught (confined_loadMetadata hname.given)) fun r => ?_
  cases r with
  | ok m =>
    refine confined_bind (confined_sessionIsActive m) fun active => ?_
    exact confined_ite trivial trivial
  | error e => trivial

/-- A rotation renames a log of the session. -/
theorem confined_rotatePreviousLog (env : Env) (log : Log) :
    Confined carries own (rotatePreviousLog env log name) := by
  refine confined_bind (confined_on rfl hname) fun length => ?_
  split
  · exact confined_bind (confined_on rfl hname) fun _ => confined_ensure _ _
  · trivial

/-- A file operation whose failure is an error. -/
theorem confined_ensured {a : FileAct} {ok : a.Response → Bool} {context : String}
    {f : Unit → Result β} (ha : (Act.file a).session = some name)
    (hf : Confined carries own (f ())) :
    Confined carries own (file a >>= fun r => ensure context (ok r) >>= f) := by
  refine confined_bind (confined_on ha hname) fun r => ?_
  exact confined_bind (confined_ensure _ _) fun _ => hf

/-- The files of a new run. -/
theorem confined_createFiles (env : Env) : Confined carries own (createFiles env name) := by
  refine confined_bind (confined_on rfl hname) fun exists_ => ?_
  have hmake : Confined carries own (do
      ensure s!"failed to create {env.inputFifo name}" (← file (.mkfifo name))
      rotatePreviousLog env .raw name
      rotatePreviousLog env .clean name
      ensure "failed to create raw log" (← file (.createPrivateLog .raw name)).isSome
      ensure "failed to create clean log" (← file (.createPrivateLog .clean name)).isSome
      ensure "failed to create screen snapshot" (← file (.createScreen name))) := by
    refine confined_ensured hname rfl ?_
    refine confined_bind (confined_rotatePreviousLog hname env .raw) fun _ => ?_
    refine confined_bind (confined_rotatePreviousLog hname env .clean) fun _ => ?_
    refine confined_ensured hname rfl (confined_ensured hname rfl ?_)
    exact confined_bind (confined_on rfl hname) fun _ => confined_ensure _ _
  split
  · exact confined_ensured hname rfl hmake
  · exact hmake

/-- What both start paths do first: the initial record carries the given name. -/
theorem confined_beginRun (env : Env) (cwd cmd : String) (rows cols : Option ℕ) :
    Confined carries own (beginRun env name cwd cmd rows cols) := by
  refine confined_bind (confined_bailIfRunning hname) fun _ => ?_
  refine confined_bind (confined_sessionDir name) fun _ => ?_
  refine confined_bind (confined_try _) fun command => ?_
  refine confined_bind (confined_caught (confined_loadMetadata hname.given)) fun previous => ?_
  refine confined_bind (confined_createFiles hname env) fun _ => ?_
  have hsave : Confined carries own (saveMetadata .initial
      (initialMetadata name cwd command (nextGeneration previous.toOption) rows cols)) :=
    confined_saveMetadata .initial ⟨name, hname, .inl rfl⟩
  exact confined_bind hsave fun _ => trivial

/-- The polls of a start load the session's record. -/
theorem confined_pollRunning (n : ℕ) : Confined carries own (pollRunning name n) := by
  induction n with
  | zero => trivial
  | succ n ih =>
    refine confined_loaded hname fun m _ => ?_
    cases m.status with
    | running => trivial
    | stopped => exact confined_ite trivial trivial
    | starting => exact ih

/-- The wait of a start, with its clean-up after a timeout. -/
theorem confined_waitForRunningMetadata :
    Confined carries own (waitForRunningMetadata name) := by
  refine confined_bind (confined_pollRunning hname 50) fun r => ?_
  cases r with
  | some m => trivial
  | none =>
    refine confined_bind (confined_caught (confined_loadMetadata hname.given)) fun r => ?_
    cases r with
    | error e => trivial
    | ok m =>
      dsimp only
      cases m.status with
      | running => trivial
      | stopped => exact confined_ite trivial trivial
      | starting =>
        refine confined_bind (confined_terminateRecorded _ _) fun _ => ?_
        refine confined_bind (confined_terminateRecorded _ _) fun terminated => ?_
        exact confined_bind (confined_caught (confined_markStopped hname ..)) fun _ => trivial

/-- The child is saved in the record that was loaded. -/
theorem confined_recordChild (generation child : ℕ) (command : List String) :
    Confined carries own (recordChild name generation child command) := by
  refine confined_withStatusLock hname (confined_loaded hname fun m hm => ?_)
  refine confined_bind (confined_try _) fun _ => ?_
  refine confined_bind (confined_aside rfl) fun startTime => ?_
  exact confined_update hname .child hm

/-- The promotion saves the record that was loaded. -/
theorem confined_promote (generation : ℕ) : Confined carries own (promote name generation) := by
  refine confined_withStatusLock hname (confined_loaded hname fun m hm => ?_)
  exact confined_bind (confined_try _) fun _ => confined_update hname .promote hm

/-- Publishing a run adds two calls on its PTY. -/
theorem confined_publish (generation : ℕ) : Confined carries own (publish name generation) := by
  refine confined_bind (confined_promote hname generation) fun _ => ?_
  refine confined_bind (confined_aside rfl) fun duplicated => ?_
  refine confined_bind (confined_ensure _ _) fun _ => ?_
  exact confined_bind (confined_aside rfl) fun _ => confined_ensure _ _

/-- The supervisor's first section. -/
theorem confined_adoptRun : Confined carries own (adoptRun name) := by
  refine confined_withStatusLock hname (confined_loaded hname fun m hm => ?_)
  refine confined_bind (confined_aside rfl) fun pid => ?_
  refine confined_bind (confined_aside rfl) fun startTime => ?_
  exact confined_bind (confined_update hname .supervisor hm) fun _ => trivial

/-- The worker threads of a PTY, of which the capture thread works on the session. -/
theorem confined_serveChild (pty child fifo rows cols : ℕ) :
    Confined carries own (serveChild name pty child fifo rows cols) := by
  refine confined_bind (confined_on rfl hname) fun output => ?_
  refine confined_bind (confined_aside rfl) fun input => ?_
  refine confined_bind (confined_aside rfl) fun waited => ?_
  refine confined_bind (confined_orThrow _ _) fun ended => ?_
  refine confined_bind (confined_aside rfl) fun _ => ?_
  refine confined_bind (confined_aside rfl) fun _ => ?_
  refine confined_bind (confined_aside rfl) fun _ => ?_
  refine confined_bind (confined_aside rfl) fun _ => ?_
  exact confined_bind (confined_aside rfl) fun _ => trivial

/-- An owner that has a child works on its session. -/
theorem confined_superviseChild (env : Env) (generation pty child rows cols : ℕ)
    (command : List String) :
    Confined carries own (superviseChild env name generation pty child rows cols command) := by
  refine confined_bind (confined_recordChild hname ..) fun _ => ?_
  refine confined_bind (confined_on rfl hname) fun opened => ?_
  refine confined_bind (confined_orThrow _ _) fun fifo => ?_
  refine confined_bind (confined_caught (confined_publish hname _)) fun r => ?_
  cases r with
  | error e => exact confined_bind (confined_aside rfl) fun _ => trivial
  | ok u => exact confined_serveChild hname ..

/-- An owner that has no child yet works on its session. -/
theorem confined_supervisePty (env : Env) (cwd cmd : String) (clientPath : Option String)
    (generation : ℕ) :
    Confined carries own (supervisePty env name cwd cmd clientPath generation) := by
  refine confined_bind (confined_try _) fun command => ?_
  refine confined_bind (confined_sessionDir name) fun _ => ?_
  refine confined_bind (confined_caught (confined_loadMetadata hname.given)) fun geometry => ?_
  refine confined_bind (confined_aside rfl) fun opened => ?_
  refine confined_bind (confined_orThrow _ _) fun pty => ?_
  refine confined_bind (confined_aside rfl) fun spawned => ?_
  refine confined_bind (confined_orThrow _ _) fun child => ?_
  refine confined_bind (confined_caught (confined_superviseChild hname ..)) fun r => ?_
  cases r with
  | ok x => trivial
  | error e =>
    refine confined_bind (confined_aside rfl) fun _ => ?_
    exact confined_bind (confined_aside rfl) fun _ => trivial

/-- An owner marks its own session when it is done. -/
theorem confined_superviseAndMark (env : Env) (cwd cmd : String) (clientPath : Option String)
    (generation : ℕ) :
    Confined carries own (superviseAndMark env name cwd cmd clientPath generation) := by
  refine confined_bind (confined_caught (confined_supervisePty hname ..)) fun r => ?_
  cases r <;> exact confined_markStopped hname ..

end Sessions

/-! ## What is given a name -/

section Given

variable {name : String} (hgiven : ∀ s, own = some s → name = s)

include hgiven

/-- The hidden command that owns one session. -/
theorem checks_runSupervisor (env : Env) (cwd cmd : String) :
    Checks carries own (runSupervisor env name cwd cmd) := by
  refine checks_checked hgiven fun hname => ?_
  refine confined_bind (confined_adoptRun hname) fun generation => ?_
  exact confined_superviseAndMark hname ..

/-- A direct start checks its name first. -/
theorem checks_startSessionDetached (env : Env) (cwd : Option String) (cmd : String)
    (rows cols : Option ℕ) :
    Checks carries own (startSessionDetached env name cwd cmd rows cols) := by
  refine checks_checked hgiven fun hname => ?_
  refine confined_bind (confined_aside rfl) fun resolved => ?_
  refine confined_bind (confined_try _) fun cwd => ?_
  refine confined_bind (confined_on rfl hname) fun ensured => ?_
  refine confined_bind (confined_try _) fun _ => confined_withStartLock hname ?_
  refine confined_bind (confined_beginRun hname ..) fun generation => ?_
  refine confined_bind (confined_aside rfl) fun located => ?_
  refine confined_bind (confined_ensure _ _) fun _ => ?_
  refine confined_bind (confined_on rfl hname) fun spawned => ?_
  refine confined_bind (confined_orThrow _ _) fun _ => ?_
  exact confined_waitForRunningMetadata hname

/-- A start in the daemon checks its name first. -/
theorem checks_startSessionInDaemon (env : Env) (cwd : Option String) (cmd : String)
    (clientPath : Option String) (rows cols : Option ℕ) :
    Checks carries own (startSessionInDaemon env name cwd cmd clientPath rows cols) := by
  refine checks_checked hgiven fun hname => ?_
  refine confined_bind (confined_aside rfl) fun resolved => ?_
  refine confined_bind (confined_try _) fun cwd => ?_
  refine confined_bind (confined_on rfl hname) fun ensured => ?_
  refine confined_bind (confined_try _) fun _ => confined_withStartLock hname ?_
  refine confined_bind (confined_beginRun hname ..) fun generation => ?_
  refine confined_bind (confined_on rfl hname) fun _ => ?_
  exact confined_waitForRunningMetadata hname

/-- A stop checks its name first. -/
theorem checks_stopSessionSilent : Checks carries own (stopSessionSilent name) := by
  refine checks_checked hgiven fun hname => confined_loaded hname fun m _ => ?_
  refine confined_ite trivial ?_
  refine confined_bind (confined_signalRecorded ..) fun childErrors => ?_
  refine confined_bind (confined_signalRecorded ..) fun supervisorErrors => ?_
  split
  · exact confined_markStopped hname ..
  · trivial

/-- Input goes to the FIFO of the session that was given. -/
theorem checks_writeSessionBytes (bytes : List UInt8) :
    Checks carries own (writeSessionBytes name bytes) := by
  refine checks_checked hgiven fun hname => confined_loaded hname fun m _ => ?_
  split
  · trivial
  · refine confined_bind (confined_on rfl hname) fun r => ?_
    cases r with
    | opened fifo =>
      refine confined_bind (confined_aside rfl) fun _ => ?_
      exact confined_bind (confined_ensure _ _) fun _ => confined_writeAll fifo _ bytes
    | _ => trivial

/-- A send checks its name before either of its two writes. -/
theorem checks_sendInputSilent (text : List UInt8) (noEnter : Bool) :
    Checks carries own (sendInputSilent name text noEnter) := by
  refine (meets_bind _ _ _ ()).mpr (Meets.mono (checks_writeSessionBytes hgiven text) ?_ fun _ _ => id)
  intro _ _ haccepted
  split
  · exact haccepted
  · exact checks_writeSessionBytes hgiven _

/-- A keys call checks its name once it has encoded the keys. -/
theorem checks_sendKeysSilent (keys : List String) :
    Checks carries own (sendKeysSilent name keys) := by
  unfold sendKeysSilent
  split
  · trivial
  · refine (meets_bind _ _ _ ()).mpr (meets_try (fun bytes _ => ?_) fun _ _ => trivial)
    exact checks_writeSessionBytes hgiven bytes

end Given

/-! ## What is given no name -/

/-- Whatever name occurs, no other one was given. -/
theorem given_none {name : String} : ∀ s, (none : Option String) = some s → name = s := by
  intro s hs
  cases hs

/-- A shutdown loads the records of the entries whose names are accepted. -/
theorem confined_activeSessions (entries : List String) :
    Confined carries none (activeSessions entries) := by
  induction entries with
  | nil => trivial
  | cons name entries ih =>
    refine confined_bind (confined_caught (confined_loadMetadata given_none)) fun r => ?_
    refine confined_bind ih fun sessions => ?_
    cases r with
    | ok m => exact confined_ite trivial trivial
    | error e => trivial

/-- A shutdown stops the sessions that these records name. -/
theorem confined_stopAll (names : List String) : Confined carries none (stopAll names) := by
  induction names with
  | nil => trivial
  | cons name names ih =>
    have hstop : Confined carries none (stopSessionSilent name) :=
      Meets.mono (checks_stopSessionSilent given_none) (fun _ _ _ => trivial) fun _ _ => id
    refine confined_bind (confined_caught hstop) fun r => ?_
    refine confined_bind ih fun errors => ?_
    cases r <;> trivial

/-- A shutdown works on accepted names only. -/
theorem confined_shutdownSessionsForDaemon (env : Env) :
    Confined carries none (shutdownSessionsForDaemon env) := by
  refine confined_bind (confined_aside rfl) fun r => ?_
  cases r with
  | error e => trivial
  | ok entries =>
    refine confined_bind (confined_activeSessions entries) fun sessions => ?_
    refine confined_bind (confined_stopAll _) fun errors => ?_
    split <;> trivial

/-- A listing loads the records of the entries whose names are accepted. -/
theorem confined_loadEntries (entries : List String) :
    Confined carries none (loadEntries entries) := by
  induction entries with
  | nil => trivial
  | cons name entries ih =>
    refine confined_bind (confined_caught (confined_loadMetadata given_none)) fun metadata => ?_
    exact confined_bind ih fun _ => trivial

/-! ## Reports -/

/-- A program on the shared world is one among the operations. -/
theorem follows_ofActs {Q : α → Unit → Prop} (p : Prog α) (g : Unit) :
    (ofActs p).Follows (discipline carries own) Q g ↔ p.Follows (sharing carries own) Q g := by
  induction p generalizing g with
  | done x => rfl
  | act a next ih =>
    constructor
    · rintro ⟨hpre, hnext⟩
      exact ⟨hpre, fun r hr => (ih r _).mp (hnext r hr)⟩
    · rintro ⟨hpre, hnext⟩
      exact ⟨hpre, fun r hr => (ih r _).mpr (hnext r hr)⟩

/-- A function on the shared world is one among the operations. -/
@[simp] theorem meets_of {Q : α → Unit → Prop} {E : String → Unit → Prop} (p : Result α)
    (g : Unit) :
    Meets (discipline carries own) Q E (Query.of p) g ↔ Meets (sharing carries own) Q E p g :=
  follows_ofActs _ g

section Reports

variable {Q : β → Unit → Prop}

/-- A part of a report that it shares with the other operations. -/
theorem meets_of_bind {p : Result α} {f : α → Query β} (hp : Confined carries own p)
    (hf : ∀ x, Meets (discipline carries own) Q (fun _ _ => True) (f x) ()) :
    Meets (discipline carries own) Q (fun _ _ => True) (Query.of p >>= f) () :=
  (meets_bind _ f _ ()).mpr ((meets_of p ()).mpr (Meets.mono hp (fun x _ _ => hf x) fun _ _ => id))

/-- A check of a name at the head of a report. -/
theorem meets_checked {name : String} {f : Unit → Query β}
    (hgiven : ∀ s, own = some s → name = s)
    (hf : Granted own name → Meets (discipline carries own) Q (fun _ _ => True) (f ()) ()) :
    Meets (discipline carries own) Q (fun _ _ => True) (Query.of (sessionDir name) >>= f) () :=
  (meets_bind _ f _ ()).mpr ((meets_of _ ()).mpr
    (meets_sessionDir (fun hvalid => hf ⟨hvalid, hgiven⟩) fun _ _ => trivial))

/-- Reading a file of a granted session. -/
theorem meets_access {name : String} {a : Access} {f : a.Response → Query β}
    (ha : a.session = some name) (hname : Granted own name)
    (hf : ∀ r, Meets (discipline carries own) Q (fun _ _ => True) (f r) ()) :
    Meets (discipline carries own) Q (fun _ _ => True) (Query.access a >>= f) () :=
  (meets_bind _ f _ ()).mpr
    ((meets_perform a _ ()).mpr ⟨permitted_of_some ha hname, fun r _ => hf r⟩)

/-- The raw log is only looked at under an accepted name. -/
theorem meets_sessionActivity {name : String} (hgiven : ∀ s, own = some s → name = s) :
    Meets (discipline carries own) (fun _ _ => True) (fun _ _ => True) (sessionActivity name) () := by
  refine (meets_bind _ _ _ ()).mpr ((meets_of _ ()).mpr ((meets_caught _ _).mpr ?_))
  refine meets_sessionDir (fun hvalid => ?_) fun _ _ => trivial
  have hname : Granted own name := ⟨hvalid, hgiven⟩
  exact (meets_perform _ _ ()).mpr ⟨permitted_of_some rfl hname, fun _ _ => trivial⟩

/-- Reading output checks the name before it reads a log. -/
theorem checks_readOutputText {name : String} (hgiven : ∀ s, own = some s → name = s) (env : Env)
    (tail : ℕ) (raw : Bool) :
    Meets (discipline carries own) (fun _ _ => Accepted own) (fun _ _ => True)
      (readOutputText env name tail raw) () := by
  refine meets_checked hgiven fun hname => meets_checked hgiven fun _ => ?_
  refine meets_access rfl hname fun contents => (meets_of _ ()).mpr ?_
  exact meets_try (fun _ _ => hname.accepted) fun _ _ => trivial

/-- Reading the screen checks the name before it reads the file. -/
theorem checks_readScreenText {name : String} (hgiven : ∀ s, own = some s → name = s) (env : Env)
    (tail : ℕ) :
    Meets (discipline carries own) (fun _ _ => Accepted own) (fun _ _ => True)
      (readScreenText env name tail) () := by
  refine meets_checked hgiven fun hname => meets_checked hgiven fun _ => ?_
  refine meets_access rfl hname fun contents => ?_
  exact meets_of_bind (confined_orThrow _ _) fun _ => hname.accepted

/-- A status report checks the name before it reads a record or a log. -/
theorem checks_statusReport {name : String} (hgiven : ∀ s, own = some s → name = s) :
    Meets (discipline carries own) (fun _ _ => Accepted own) (fun _ _ => True) (statusReport name) () := by
  refine meets_checked hgiven fun hname => ?_
  refine meets_of_bind (confined_loadMetadata hgiven) fun m => ?_
  refine meets_of_bind (confined_aside rfl) fun supervisorAlive => ?_
  refine meets_of_bind (confined_aside rfl) fun childAlive => ?_
  exact (meets_bind _ _ _ ()).mpr
    (Meets.mono (meets_sessionActivity hgiven) (fun _ _ _ => hname.accepted) fun _ _ => id)

/-- The lines of a listing are made of records and of the times of their logs. -/
theorem meets_listLines (sessions : List SessionMetadata) :
    Meets (discipline carries none) (fun _ _ => True) (fun _ _ => True) (listLines sessions) () := by
  induction sessions with
  | nil => trivial
  | cons m sessions ih =>
    refine meets_of_bind (confined_aside rfl) fun _ => (meets_bind _ _ _ ()).mpr ?_
    refine Meets.mono (meets_sessionActivity given_none) (fun _ _ _ => ?_) fun _ _ => id
    exact (meets_bind _ _ _ ()).mpr (Meets.mono ih (fun _ _ _ => trivial) fun _ _ => id)

/-- A listing works on accepted names only. -/
theorem meets_listReport (env : Env) :
    Meets (discipline carries none) (fun _ _ => True) (fun _ _ => True) (listReport env) () := by
  refine (meets_bind _ _ _ ()).mpr
    ((meets_perform _ _ ()).mpr ⟨permitted_of_none rfl, fun _ _ => ?_⟩)
  refine meets_of_bind (confined_try _) fun _ => ?_
  refine meets_of_bind (confined_aside rfl) fun r => ?_
  cases r with
  | error e => trivial
  | ok entries => exact meets_of_bind (confined_loadEntries entries) fun _ => meets_listLines _

end Reports

/-! ## Threads -/

/-- An operation that did not fail had its name accepted, and a capture thread goes on
with a granted session. -/
def Finished (own : Option String) : ThreadResult → Unit → Prop
  | .replied (.ok _), _ => Accepted own
  | .capturing state, _ => Granted own state.name
  | _, _ => True

/-- Without a name there is none to accept. -/
theorem accepted_none : Accepted none := by
  intro s hs
  cases hs

/-- The end of a thread works on no session. -/
theorem follows_leave {result : ThreadResult} (h : Finished own result ()) :
    (leave result).Follows (sharing carries own) (Finished own) () :=
  ⟨permitted_of_none rfl, fun _ _ => h⟩

/-- A function that checked its name is replied to. -/
theorem follows_reply {p : Result α} (h : Checks carries own p) :
    (reply p).Follows (sharing carries own) (Finished own) () := by
  rw [reply, follows_bind, follows_run]
  refine Meets.mono h (fun _ _ haccepted => follows_leave haccepted) fun _ _ _ => follows_leave trivial

/-- A report that checked its name is replied to. -/
theorem follows_answer {q : Query α}
    (h : Meets (discipline carries own) (fun _ _ => Accepted own) (fun _ _ => True) q ()) :
    (Operation.answer q).Follows (discipline carries own) (Finished own) () := by
  rw [Operation.answer, follows_bind, follows_run]
  refine Meets.mono h (fun _ _ haccepted => ?_) fun _ _ _ => ?_
  · exact (follows_ofActs _ _).mpr (follows_leave haccepted)
  · exact (follows_ofActs _ _).mpr (follows_leave trivial)

/-- The end of a process. -/
theorem follows_exit {result : ThreadResult} (h : Finished own result ()) :
    (Prog.proc .processExit >>= fun _ => pure result).Follows (sharing carries own) (Finished own) () :=
  ⟨permitted_of_none rfl, fun _ _ => h⟩

/-- The handler of a shutdown was given no name. -/
theorem follows_handleShutdown (env : Env) :
    (handleShutdown env).Follows (sharing carries none) (Finished none) () := by
  rw [handleShutdown, follows_bind]
  refine ⟨permitted_of_none rfl, fun acknowledged _ => ?_⟩
  cases acknowledged with
  | false => exact follows_leave trivial
  | true =>
    refine (follows_bind _ _ _ _).mpr ((follows_run _ _ _).mpr ?_)
    have hstops : Confined carries none (shutdownSessionsForDaemon env) :=
      confined_shutdownSessionsForDaemon env
    exact Meets.mono hstops (fun _ _ _ => follows_exit trivial) fun _ _ _ => follows_exit trivial

/-- A thread that serves a request keeps to the name in it. -/
theorem follows_request (env : Env) (r : Request) :
    (r.program env).Follows (sharing carries r.command.session) (Finished r.command.session) () := by
  have hgiven : ∀ {name : String}, ∀ s, some name = some s → name = s := fun _ hs => Option.some.inj hs
  unfold Request.program
  cases r.command with
  | start name cwd cmd path rows cols =>
    dsimp only
    split
    · exact follows_reply (checks_startSessionInDaemon hgiven ..)
    · exact follows_reply (checks_startSessionDetached hgiven ..)
  | send name text noEnter => exact follows_reply (checks_sendInputSilent hgiven ..)
  | keys name keys => exact follows_reply (checks_sendKeysSilent hgiven ..)
  | stop name => exact follows_reply (checks_stopSessionSilent hgiven)
  | shutdown =>
    dsimp only
    split
    · exact follows_handleShutdown env
    · exact follows_leave trivial

/-- An operation of the command line keeps to the name in it. -/
theorem follows_operation (env : Env) (op : Operation) :
    (op.program env).Follows (discipline carries op.session) (Finished op.session) () := by
  have hgiven : ∀ {name : String}, ∀ s, some name = some s → name = s := fun _ hs => Option.some.inj hs
  cases op with
  | request r => exact (follows_ofActs _ _).mpr (follows_request env r)
  | read name tail raw => exact follows_answer (checks_readOutputText hgiven ..)
  | screen name tail => exact follows_answer (checks_readScreenText hgiven ..)
  | status name => exact follows_answer (checks_statusReport hgiven)
  | list =>
    exact follows_answer
      (Meets.mono (meets_listReport env) (fun _ _ _ => accepted_none) fun _ _ => id)
  | supervisor name cwd cmd =>
    exact (follows_ofActs _ _).mpr (follows_reply (checks_runSupervisor hgiven ..))

/-! ## Threads that are started -/

section Started

variable {name : String} (hname : Granted own name)

include hname

/-- The owner thread of a daemon's session keeps to that session. -/
theorem follows_ownerThread (env : Env) (cwd cmd : String) (clientPath : Option String)
    (generation : ℕ) :
    (ownerThread env name cwd cmd clientPath generation).Follows (sharing carries own)
      (Finished own) () := by
  rw [ownerThread, follows_bind, follows_run]
  exact Meets.mono (confined_superviseAndMark hname ..) (fun _ _ _ => follows_leave trivial)
    fun _ _ _ => follows_leave trivial

/-- The supervisor of a direct session keeps to that session. -/
theorem follows_supervisorMain (env : Env) (cwd cmd : String) :
    (supervisorMain env name cwd cmd).Follows (sharing carries own) (Finished own) () := by
  rw [supervisorMain, follows_bind, follows_run]
  exact Meets.mono (checks_runSupervisor hname.given env cwd cmd) (fun _ _ _ => follows_exit trivial)
    fun _ _ _ => follows_exit trivial

/-- A capture thread opens the logs of its session. -/
theorem follows_captureOutput (pty rows cols : ℕ) :
    (captureOutput name pty rows cols).Follows (sharing carries own) (Finished own) () := by
  refine ⟨permitted_of_some rfl hname, fun r _ => ?_⟩
  cases r with
  | none => exact follows_leave trivial
  | some rawLog =>
    refine ⟨permitted_of_some rfl hname, fun r _ => ?_⟩
    cases r with
    | none => exact follows_leave trivial
    | some cleanLog => exact hname

end Started

/-- A capture thread writes to its session's screen in each iteration. -/
theorem follows_captureStep (env : Env) {state : CaptureState} (hname : Granted own state.name) :
    (captureStep env state).Follows (sharing carries own) (Finished own) () := by
  refine ⟨permitted_of_none rfl, fun stop _ => ?_⟩
  cases stop with
  | true => exact follows_leave trivial
  | false =>
    refine ⟨permitted_of_none rfl, fun r _ => ?_⟩
    cases r with
    | failed => exact follows_leave trivial
    | idle => exact hname
    | ready =>
      refine ⟨permitted_of_none rfl, fun r _ => ?_⟩
      match r with
      | none => exact follows_leave trivial
      | some [] => exact follows_leave trivial
      | some (byte :: bytes) =>
        exact ⟨permitted_of_none rfl, fun _ _ => ⟨permitted_of_none rfl, fun _ _ =>
          ⟨permitted_of_some rfl hname, fun _ _ => hname⟩⟩⟩

/-- The end of a forwarder works on no session. -/
theorem follows_leaveForward (env : Env) (fifo pty : ℕ) :
    (leaveForward env fifo pty).Follows (sharing carries own) (Finished own) () :=
  ⟨permitted_of_none rfl, fun _ _ => ⟨permitted_of_none rfl, fun _ _ => follows_leave trivial⟩⟩

/-- The iterations of a forwarder before its end work on no session. -/
theorem follows_forwardStep (env : Env) (fifo pty : ℕ) :
    (forwardStep env fifo pty).Follows (sharing carries own) (Finished own) () := by
  refine ⟨permitted_of_none rfl, fun stop _ => ?_⟩
  cases stop with
  | true => exact follows_leaveForward env fifo pty
  | false =>
    refine ⟨permitted_of_none rfl, fun r _ => ?_⟩
    match r with
    | none => exact follows_leaveForward env fifo pty
    | some [] => trivial
    | some (byte :: bytes) =>
      refine ⟨permitted_of_none rfl, fun ok _ => ?_⟩
      cases ok with
      | true => trivial
      | false => exact follows_leaveForward env fifo pty

/-- A thread is started for a granted session. -/
theorem follows_launched (env : Env) {a : Act} {r : a.Response} {j : ℕ} {p : Prog ThreadResult}
    (hlaunched : launched env a r = some (j, p)) (ha : Permitted carries own (.act a)) :
    p.Follows (sharing carries own) (Finished own) () := by
  have hgranted : ∀ {name : String}, a.session = some name → (Access.act a).isSave = false →
      Granted own name := by
    intro name hsession hsave
    refine (ha name hsession).resolve_right fun hsaved => ?_
    rw [hsave] at hsaved
    cases hsaved.1
  unfold launched at hlaunched
  split at hlaunched <;> cases hlaunched
  · exact follows_supervisorMain (hgranted rfl rfl) ..
  · exact follows_ownerThread (hgranted rfl rfl) ..
  · exact follows_captureOutput (hgranted rfl rfl) ..
  · trivial

/-- The discipline covers every thread that an operation starts. -/
theorem covers (env : Env) (carries : String → String → Prop) (own : Option String) :
    Covers (console env) (discipline carries own) (Finished own) fun _ _ _ => () where
  launched := by
    intro a g r j p hlaunched hpre _
    cases a with
    | act a =>
      obtain ⟨⟨j', q⟩, hq, heq⟩ := Option.map_eq_some_iff.mp hlaunched
      cases heq
      exact (follows_ofActs q _).mpr (follows_launched env hq hpre)
    | _ => cases hlaunched
  again := by
    intro x g p hx hagain
    obtain ⟨q, hq, rfl⟩ := Option.map_eq_some_iff.mp hagain
    refine (follows_ofActs q _).mpr ?_
    unfold again at hq
    split at hq <;> cases hq
    · exact follows_captureStep env hx
    · exact follows_forwardStep ..

end Confinement

/-! ## Every operation -/

open Confinement

namespace Operation

variable {env : Env} {carries : String → String → Prop} {op : Operation}

/-- A path that a thread of the operation reads, creates or writes, in some process. -/
def Uses (env : Env) (carries : String → String → Prop) (op : Operation) (path : List Char) :
    Prop :=
  ∃ p a, ∃ pid unique : ℕ, op.Thread env carries p ∧ p.head = some a ∧
    path ∈ a.paths env.root pid unique

/-- A thread of an operation is disciplined. -/
theorem Thread.follows {p : Program Access Access.Response ThreadResult}
    (h : op.Thread env carries p) :
    p.Follows (discipline carries op.session) (Finished op.session) () :=
  Descends.follows (covers env carries op.session) (follows_operation env op) h

/-- The paths of an operation belong to sessions that it may work on, or are those of a
record that it saves under the name in it. -/
theorem Uses.permitted {path : List Char} (h : op.Uses env carries path) :
    (∃ name, Granted op.session name ∧
      (path = sessionPath env.root name ∨ StrictlyInside path (sessionPath env.root name))) ∨
    ∃ name, Savable carries op.session name ∧
      ∃ pid unique, path ∈ atomicPaths env.root name "metadata.json" pid unique := by
  obtain ⟨p, a, pid, unique, hthread, hhead, hpath⟩ := h
  obtain ⟨name, hsession, hinside⟩ := a.path_inside hpath
  rcases hthread.follows.pre_head hhead name hsession with hgranted | ⟨hsave, hsavable⟩
  · exact .inl ⟨name, hgranted, hinside⟩
  · unfold Access.isSave at hsave
    split at hsave
    · obtain rfl := Option.some.inj hsession
      exact .inr ⟨_, hsavable, pid, unique, hpath⟩
    · cases hsave

/-- An operation that succeeds was given an accepted name. -/
theorem Replies.accepted {u : Unit} (h : op.Replies env carries (.ok u)) : Accepted op.session :=
  Thread.follows h

end Operation

/-! ## The machine -/

namespace World

/-- The names that records in a directory carry: those that are there, and its own one. -/
def Carries (w : World) (name carried : String) : Prop :=
  carried = name ∨ ∃ m, w.metadata name = some m ∧ m.name = carried

/-- The records carry names that records in their directories carried before. -/
def Carried (carries : String → String → Prop) (w : World) : Prop :=
  ∀ name m, w.metadata name = some m → carries name m.name

variable {carries : String → String → Prop} {w w' : World}

/-- What the records carry depends on the records only. -/
theorem Carried.of_metadata (h : Carried carries w) (hsame : w'.metadata = w.metadata) :
    Carried carries w' := by
  intro name m hm
  rw [hsame] at hm
  exact h name m hm

/-- A record is saved in the directory of the name that it carries. -/
theorem Carried.save (h : Carried carries w) (hself : ∀ name, carries name name) (i : ℕ)
    (site : Site) (m : SessionMetadata) : Carried carries (w.save i site m) := by
  intro name d hd
  by_cases hname : name = m.name
  · subst hname
    simp only [World.save, Function.update_self, Option.some.injEq] at hd
    subst hd
    cases site <;> exact hself m.name
  · simp only [World.save, Function.update_of_ne hname] at hd
    exact h name d hd

/-- A save puts a record where its own name says. -/
theorem Carried.perform (hw : Carried carries w) (hself : ∀ name, carries name name) {i : ℕ}
    {a : Act} {c : Choice} {r : a.Response} (h : perform i a c w = some (r, w')) :
    Carried carries w' := by
  cases hsaves : a.saves with
  | none =>
    have hunsaved : ∀ x ∈ a.saves, c.ok = false := by simp [hsaves]
    exact hw.of_metadata (perform_unsaved h hunsaved).1
  | some saved =>
    obtain ⟨site, m⟩ := saved
    obtain rfl := eq_of_saves hsaves
    rcases performDisk_save h with ⟨u, -, rfl⟩ | ⟨e, -, rfl⟩
    · exact hw.save hself i site m
    · exact hw

/-- Loading answers with a record that carries such a name. -/
theorem Carried.access (hw : Carried carries w) (hself : ∀ name, carries name name) {i : ℕ}
    {a : Access} {c : Choice} {r : a.Response} (h : World.access i a c w = some (r, w')) :
    a.Answers carries r ∧ Carried carries w' := by
  cases a with
  | act a =>
    refine ⟨?_, hw.perform hself h⟩
    cases a with
    | disk a =>
      cases a with
      | loadMetadata name =>
        intro m hm
        rcases (performDisk_load h).2 with ⟨-, e, he⟩ | ⟨d, hd, hr | ⟨-, e, he⟩⟩
        · rw [he] at hm
          cases hm
        · rw [hr] at hm
          cases hm
          exact hw name _ hd
        · rw [he] at hm
          cases hm
      | _ => trivial
    | _ => trivial
  | _ =>
    simp only [World.access] at h
    cases h
    exact ⟨trivial, hw⟩

end World

/-- In every run, whatever is on the disk, each thread is one of an operation, after
answers of a disk whose records carry the names that they carried at first or those of
their directories. -/
theorem thread_of_reaches {env : Env} {ok : World → ℕ → Access → Choice → Prop} {w : World}
    {ops : ℕ → Option Operation} {t : Config Access Access.Response ThreadResult World}
    (h : (console env).Reaches ok (Operation.boot env w ops) t) (i : ℕ) :
    t.thread i = .done .finished ∨
      ∃ k op, ops k = some op ∧ op.Thread env w.Carries (t.thread i) := by
  have hself : ∀ name, w.Carries name name := fun _ => .inl rfl
  have hdescends : World.Carried w.Carries t.world ∧
      ∀ i, ∃ k, Descends (console env) (Access.Answers w.Carries)
        ((Operation.boot env w ops).thread k) (t.thread i) :=
    h.descends (I := World.Carried w.Carries) (fun hI hperform => hI.access hself hperform)
    (fun hI hdisturb => hI.of_metadata (World.disturb_sameDisk hdisturb).1.metadata)
    fun name m hm => .inr ⟨m, hm, rfl⟩
  obtain ⟨k, hk⟩ := hdescends.2 i
  cases hop : ops k with
  | none =>
    left
    have hended : (Operation.boot env w ops).thread k = .done .finished := by
      simp [Operation.boot, hop]
    rw [hended] at hk
    exact hk.of_done rfl
  | some op =>
    right
    have hbegun : (Operation.boot env w ops).thread k = op.program env := by
      simp [Operation.boot, hop]
    rw [hbegun] at hk
    exact ⟨k, op, hop, hk⟩

/-- **Name confinement.** An operation that is given a rejected name uses no path and
replies with an error. One that is given an accepted name uses the directory of that
session, which is directly below the sessions root and no other accepted name's, and
paths strictly inside it; but a record that it loaded there is saved in the directory
of the accepted name that the record carries. -/
theorem session_confined (env : Env) (carries : String → String → Prop) (op : Operation)
    {s : String} (hs : op.session = some s) :
    (validateSessionName s ≠ .ok () →
      (∀ path, ¬op.Uses env carries path) ∧
      ∀ result, op.Replies env carries result → ∃ e, result = .error e) ∧
    (validateSessionName s = .ok () →
      IsChild (sessionPath env.root s) (sessionsRoot env.root) ∧
      (∀ path, op.Uses env carries path →
        path = sessionPath env.root s ∨ StrictlyInside path (sessionPath env.root s) ∨
        ∃ carried, carries s carried ∧
          IsChild (sessionPath env.root carried) (sessionsRoot env.root) ∧
          StrictlyInside path (sessionPath env.root carried) ∧
          ∃ pid unique, path ∈ atomicPaths env.root carried "metadata.json" pid unique) ∧
      ∀ other, validateSessionName other = .ok () → other ≠ s →
        resolve (sessionPath env.root other) ≠ resolve (sessionPath env.root s)) := by
  refine ⟨fun hinvalid => ⟨fun path hpath => ?_, fun result hresult => ?_⟩,
    fun hvalid => ⟨isChild_sessionPath hvalid, fun path hpath => ?_, fun other hother hne => ?_⟩⟩
  · rcases hpath.permitted with ⟨name, hname, -⟩ | ⟨name, hname, -⟩
    · exact hinvalid (hname.accepted s hs)
    · obtain ⟨given, hgiven, -⟩ := hname.origin
      exact hinvalid (hgiven.accepted s hs)
  · cases result with
    | error e => exact ⟨e, rfl⟩
    | ok u => exact absurd (Operation.Replies.accepted hresult s hs) hinvalid
  · rcases hpath.permitted with ⟨name, hname, hinside⟩ | ⟨name, hname, pid, unique, hsaved⟩
    · rw [hname.given s hs] at hinside
      exact hinside.imp_right .inl
    · obtain ⟨given, hgiven, horigin⟩ := hname.origin
      obtain rfl := hgiven.given s hs
      have hinside := atomicPaths_inside (by decide) hsaved
      rcases horigin with rfl | hcarried
      · exact .inr (.inl hinside)
      · exact .inr (.inr ⟨name, hcarried, isChild_sessionPath hname.valid, hinside, pid, unique,
          hsaved⟩)
  · exact resolve_sessionPath_ne hother hvalid hne

/-- A report on "demo" reads its log, and one on ".." reads nothing. -/
theorem session_confined_read :
    (Operation.read "demo" 5 true).Uses plainEnv Eq (sessionFile "/bridge" "demo" "raw.log") ∧
      StrictlyInside (sessionFile "/bridge" "demo" "raw.log") (sessionPath "/bridge" "demo") ∧
      ∀ path, ¬(Operation.read ".." 5 true).Uses plainEnv Eq path := by
  have huses : (Operation.read "demo" 5 true).Uses plainEnv Eq
      (sessionFile "/bridge" "demo" "raw.log") :=
    ⟨_, .readLog .raw "demo", 0, 0, .self, rfl, List.mem_singleton.mpr rfl⟩
  have hconfined := ((session_confined plainEnv Eq (.read "demo" 5 true) rfl).2 rfl).2.1 _ huses
  refine ⟨huses, ?_, ((session_confined plainEnv Eq (.read ".." 5 true) rfl).1 (by decide)).1⟩
  rcases hconfined with hsame | hinside | ⟨carried, rfl, -, hinside, -⟩
  · exact absurd hsame (by decide)
  · exact hinside
  · exact hinside

/-- A stop of session "b". -/
def stopB : Request := ⟨false, .stop "b"⟩

/-- The directory of "b" holds a record that carries the name "a". -/
def misnamed : World :=
  { World.fresh (served [stopB]) with
    directories := ["a", "b"]
    metadata := Function.update (fun _ => none) "b"
      (some (initialMetadata "a" "/" ["sh"] 1 none none)) }

/-- Whether a thread is about to save a record of this name. -/
def savesAs (name : String) (p : Program Access Access.Response ThreadResult) : Bool :=
  match p.head with
  | some (.act (.disk (.saveMetadata _ m))) => m.name = name
  | _ => false

/-- The test finds a save under the name. -/
theorem head_of_savesAs {name : String} {p : Program Access Access.Response ThreadResult}
    (h : savesAs name p = true) :
    ∃ site m, p.head = some (.act (.disk (.saveMetadata site m))) ∧ m.name = name := by
  unfold savesAs at h
  split at h
  · next hhead => exact ⟨_, _, hhead, of_decide_eq_true h⟩
  · cases h

/-- The stop of "b" writes the metadata file of "a". -/
theorem session_confined_misnamed :
    ∃ (t : Config Access Access.Response ThreadResult World) (a : Access),
      (console plainEnv).Reaches (fun _ _ _ _ => True)
        (Operation.boot plainEnv misnamed fun i => (served [stopB] i).map .request) t ∧
      t.world.alive 0 = true ∧ (t.thread 0).head = some a ∧ validateSessionName "b" = .ok () ∧
      ∃ path ∈ a.paths "/bridge" 0 0,
        ¬(path = sessionPath "/bridge" "b" ∨ StrictlyInside path (sessionPath "/bridge" "b")) := by
  obtain ⟨t, hreach, ht⟩ := System.exists_reaches_of_exec (console plainEnv)
    System.unrestricted (steps 0 5)
    (Operation.boot plainEnv misnamed fun i => (served [stopB] i).map .request)
    (fun t => t.world.alive 0 && savesAs "a" (t.thread 0))
    (fun _ _ _ _ _ => trivial) (by decide +kernel)
  obtain ⟨halive, hsaves⟩ := (Bool.and_eq_true _ _).mp ht
  obtain ⟨site, m, hhead, hname⟩ := head_of_savesAs hsaves
  have hpath : sessionFile "/bridge" "a" "metadata.json" ∈
      (Access.act (.disk (.saveMetadata site m))).paths "/bridge" 0 0 := by
    change _ ∈ atomicPaths "/bridge" m.name "metadata.json" 0 0
    rw [hname]
    exact List.mem_cons_of_mem _ List.mem_cons_self
  refine ⟨t, _, hreach, halive, hhead, by decide, _, hpath, ?_⟩
  rintro (hsame | ⟨rest, -, hinside⟩)
  · exact absurd hsame (by decide)
  · have hplace : resolve (sessionFile "/bridge" "a" "metadata.json") =
        ["bridge".toList, "sessions".toList, "a".toList, "metadata.json".toList] := by decide
    have hdir : resolve (sessionPath "/bridge" "b") =
        ["bridge".toList, "sessions".toList, "b".toList] := by decide
    rw [hplace, hdir] at hinside
    simp at hinside

end IgnibyteBridge
