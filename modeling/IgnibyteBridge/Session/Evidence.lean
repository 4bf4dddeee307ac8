import IgnibyteBridge.Session.Transcript
import IgnibyteBridge.Session.Upkeep

/-!
# What records are evidence of

An owner spawns a child, records it, promotes its run and waits for the child, in this order.
Whoever reads a record, at any moment of any run, can rely on what the record says of this.
-/

namespace IgnibyteBridge

open Concurrency Program Fallible World

/-! ### Milestones -/

/-- What an owner does with its child. -/
inductive Milestone where
  | spawned (pid : ℕ) (command : List String)
  | recorded (metadata : SessionMetadata)
  | promoted (metadata : SessionMetadata)
  | exited (pid : ℕ) (exitStatus : String) (exitCode : ℕ)

/-- The milestone that a thread reached. -/
def Did.milestone : Did → Option Milestone
  | ⟨.process (.spawnCommand command _ _), some pid⟩ => some (.spawned pid command)
  | ⟨.disk (.saveMetadata .child metadata), .ok _⟩ => some (.recorded metadata)
  | ⟨.disk (.saveMetadata .promote metadata), .ok _⟩ => some (.promoted metadata)
  | ⟨.process (.childWait pid), some (exitStatus, exitCode)⟩ =>
    some (.exited pid exitStatus exitCode)
  | _ => none

/-- What has happened in a run. -/
abbrev Past := List (Happening Act Act.Response Disturbance)

/-- Some thread reached these milestones, in this order and before any others. -/
def Past.Has (past : Past) (path : List Milestone) : Prop :=
  ∃ i, path <+: (events i past).filterMap Did.milestone

/-- A record of a run with the child that its owner spawned, if that could be identified. -/
structure SessionMetadata.Enrolls (m : SessionMetadata) (name : String) (generation pid : ℕ)
    (command : List String) : Prop where
  name : m.name = name
  generation : m.generation = generation
  command : m.command = command
  child : ∀ p, m.childPid = some p → p = pid

/-- An owner spawned a child, recorded it and saved `m`, which promotes its run. -/
def SessionMetadata.Promotes (m : SessionMetadata) (pid : ℕ) (path : List Milestone) : Prop :=
  ∃ command enrolled, path = [.spawned pid command, .recorded enrolled, .promoted m] ∧
    enrolled.Enrolls m.name m.generation pid command ∧ m.status = .running

/-- What a record says happened. -/
structure SessionMetadata.Truthful (past : Past) (m : SessionMetadata) : Prop where
  /-- Its child was spawned with its command, and recorded with its start time. -/
  child : ∀ p, m.childPid = some p → ∃ enrolled : SessionMetadata,
    past.Has [.spawned p m.command, .recorded enrolled] ∧
      enrolled.Enrolls m.name m.generation p m.command ∧ enrolled.childPid = some p ∧
      enrolled.childStartTime = m.childStartTime
  /-- A Running session was promoted by the owner of a child. -/
  running : m.status = .running → ∃ (promoted : SessionMetadata) (path : List Milestone),
    past.Has path ∧ (∃ pid, promoted.Promotes pid path) ∧ promoted.name = m.name ∧
      promoted.generation = m.generation ∧ promoted.origin = m.origin
  /-- An exit code is the one of a child whose owner had promoted the run. -/
  exited : ∀ exitCode, m.exitCode = some exitCode →
    ∃ (pid : ℕ) (exitStatus : String) (promoted : SessionMetadata) (path : List Milestone),
      m.exitStatus = some exitStatus ∧ past.Has (path ++ [.exited pid exitStatus exitCode]) ∧
        promoted.Promotes pid path ∧ promoted.name = m.name ∧ promoted.generation = m.generation

/-! ### What a thread knows -/

/-- What a thread has loaded, and the milestones that it reached. -/
structure Career where
  loaded : List SessionMetadata := []
  path : List Milestone := []

namespace Career

/-- The thread recorded the child that it spawned. -/
def Enrolled (g : Career) (name : String) (generation pid : ℕ) : Prop :=
  ∃ command enrolled, g.path = [.spawned pid command, .recorded enrolled] ∧
    enrolled.Enrolls name generation pid command

/-- The thread promoted its run. -/
def Launched (name : String) (generation pid : ℕ) (path : List Milestone) : Prop :=
  ∃ m : SessionMetadata, m.Promotes pid path ∧ m.name = name ∧ m.generation = generation

/-- Its child exited after that. -/
def Finished (g : Career) (name : String) (generation : ℕ) (exitStatus : String)
    (exitCode : ℕ) : Prop :=
  ∃ pid path, g.path = path ++ [.exited pid exitStatus exitCode] ∧
    Launched name generation pid path

/-- What must be known to save a record. -/
def MaySave (g : Career) : Site → SessionMetadata → Prop
  | .initial, m => m.status = .starting ∧ m.childPid = none ∧ m.exitCode = none
  | .supervisor, m => ∃ c ∈ g.loaded, ∃ pid startTime, m = c.withSupervisor pid startTime
  | .child, m => ∃ c ∈ g.loaded, ∃ pid startTime command,
    g.path = [.spawned pid command] ∧ m = c.withChild pid startTime command
  | .promote, m => ∃ c ∈ g.loaded, m = c.promoted ∧ ∃ pid, g.Enrolled m.name m.generation pid
  | .stopped _, m => ∃ c ∈ g.loaded, ∃ exitStatus exitCode,
    m = c.markedStopped (some exitStatus) exitCode ∧
      ∀ n, exitCode = some n → g.Finished m.name m.generation exitStatus n

/-- The obligation before an action. -/
def pre : Act → Career → Prop
  | .disk (.saveMetadata site m), g => g.MaySave site m
  | _, _ => True

/-- A record that is loaded is the one of the session that was asked for. -/
def fact : (a : Act) → Career → a.Response → Prop
  | .disk (.loadMetadata name), _, .ok m => m.name = name
  | _, _, _ => True

/-- What a thread knows after an action. -/
def post : (a : Act) → Career → a.Response → Career
  | .disk (.loadMetadata _), g, .ok m => { g with loaded := m :: g.loaded }
  | a, g, r => (Did.milestone ⟨a, r⟩).elim g fun reached => { g with path := g.path ++ [reached] }

/-- The discipline of records as evidence. -/
def discipline : Discipline Act Act.Response Career where
  pre := pre
  fact := fact
  post := post

variable {g : Career} {α : Type}

/-! ### Records -/

/-- A load that succeeds shows the record of the session that was asked for. -/
theorem meets_load {name : String} {Q : SessionMetadata → Career → Prop}
    {E : String → Career → Prop}
    (hok : ∀ m : SessionMetadata, m.name = name → Q m { g with loaded := m :: g.loaded })
    (herror : ∀ e, E e g) : Meets discipline Q E (loadMetadata name) g := by
  rw [loadMetadata, meets_bind]
  refine meets_sessionDir (fun _ => ?_) fun e _ => herror e
  rw [meets_bind, meets_disk]
  refine ⟨trivial, fun r hr => ?_⟩
  cases r with
  | error e => exact herror e
  | ok m => exact hok m hr

/-- A save needs the evidence for what the record says. -/
theorem meets_save {site : Site} {m : SessionMetadata} {Q : Unit → Career → Prop}
    {E : String → Career → Prop} (h : g.MaySave site m)
    (hok : Q () (post (.disk (.saveMetadata site m)) g (.ok ()))) (herror : ∀ e, E e g) :
    Meets discipline Q E (saveMetadata site m) g := by
  rw [saveMetadata, meets_bind]
  refine meets_sessionDir (fun _ => ?_) fun e _ => herror e
  rw [meets_bind, meets_disk]
  refine ⟨h, fun r _ => ?_⟩
  cases r with
  | ok u => exact hok
  | error e =>
    have hsame : post (.disk (.saveMetadata site m)) g (.error e) = g := by cases site <;> rfl
    change E e (post (.disk (.saveMetadata site m)) g (.error e))
    rw [hsame]
    exact herror e

/-- A lock gives no evidence. -/
theorem meets_withStatusLock {name : String} {body : Result α} {Q : α → Career → Prop}
    {E : String → Career → Prop} (h : Meets discipline Q E body g) (herror : ∀ e, E e g) :
    Meets discipline Q E (withStatusLock name body) g := by
  rw [withStatusLock, meets_bind, meets_disk]
  refine ⟨trivial, fun r _ => ?_⟩
  cases r with
  | held =>
    rw [meets_bind, meets_caught]
    refine h.mono (fun x g' hx => ?_) fun e g' he => ?_
    · rw [meets_bind]
      exact (meets_disk ..).mpr ⟨trivial, fun _ _ => hx⟩
    · rw [meets_bind]
      exact (meets_disk ..).mpr ⟨trivial, fun _ _ => he⟩
  | _ => exact herror _

/-- An exit code is recorded only for a child that exited. -/
theorem meets_markStopped {name exitStatus : String} {exitCode generation : Option ℕ}
    {by_ : Stopper} (h : ∀ n, exitCode = some n → ∃ own, generation = some own ∧
      g.Finished name own exitStatus n) :
    Meets discipline (fun _ _ => True) (fun _ _ => True)
      (markStopped name (some exitStatus) exitCode generation by_) g := by
  rw [markStopped, meets_bind]
  refine meets_sessionDir (fun _ => ?_) fun _ _ => trivial
  refine meets_withStatusLock ?_ fun _ => trivial
  rw [meets_bind]
  refine meets_load (fun m hname => ?_) fun _ => trivial
  split
  · trivial
  · next hgeneration =>
    split
    · trivial
    · refine meets_save ⟨m, List.mem_cons_self, exitStatus, exitCode, rfl, fun n hn => ?_⟩ trivial
        fun _ => trivial
      obtain ⟨own, rfl, hfinished⟩ := h n hn
      have hown : m.generation = own := by simpa using hgeneration
      subst hname hown
      exact hfinished

/-! ### Owners -/

/-- A supervisor that adopts a run has no child yet. -/
theorem meets_adoptRun {name : String} (hg : g.path = []) :
    Meets discipline (fun _ g' => g'.path = []) (fun _ _ => True) (adoptRun name) g := by
  refine meets_withStatusLock ?_ fun _ => trivial
  rw [meets_bind]
  refine meets_load (fun m _ => ?_) fun _ => trivial
  rw [meets_bind, meets_proc]
  refine ⟨trivial, fun pid _ => ?_⟩
  rw [meets_bind, meets_proc]
  refine ⟨trivial, fun startTime _ => ?_⟩
  rw [meets_bind]
  exact meets_save ⟨m, List.mem_cons_self, pid, startTime, rfl⟩ hg fun _ => trivial

/-- A child that was spawned is recorded. -/
theorem meets_recordChild {name : String} {generation child : ℕ} {command : List String}
    (hg : g.path = [.spawned child command]) :
    Meets discipline (fun _ g' => g'.Enrolled name generation child) (fun _ _ => True)
      (recordChild name generation child command) g := by
  refine meets_withStatusLock ?_ fun _ => trivial
  rw [meets_bind]
  refine meets_load (fun m hname => ?_) fun _ => trivial
  rw [meets_bind]
  refine meets_try (fun _ hlive => ?_) fun _ _ => trivial
  rw [meets_bind, meets_proc]
  refine ⟨trivial, fun startTime _ => ?_⟩
  refine meets_save ⟨m, List.mem_cons_self, child, startTime, command, hg, rfl⟩ ?_ fun _ => trivial
  refine ⟨command, m.withChild child startTime command, congrArg (· ++ _) hg, hname,
    (checkRunLive_eq_ok hlive).1, rfl, fun p hp => ?_⟩
  cases startTime with
  | none => cases hp
  | some startTime => exact (Option.some.inj hp).symm

/-- A run whose child was recorded is promoted. -/
theorem meets_promote {name : String} {generation child : ℕ}
    (hg : g.Enrolled name generation child) :
    Meets discipline (fun _ g' => Launched name generation child g'.path) (fun _ _ => True)
      (promote name generation) g := by
  refine meets_withStatusLock ?_ fun _ => trivial
  rw [meets_bind]
  refine meets_load (fun m hname => ?_) fun _ => trivial
  rw [meets_bind]
  refine meets_try (fun _ hlive => ?_) fun _ _ => trivial
  obtain rfl : m.generation = generation := (checkRunLive_eq_ok hlive).1
  subst hname
  refine meets_save ⟨m, List.mem_cons_self, rfl, child, hg⟩ ?_ fun _ => trivial
  obtain ⟨command, enrolled, hpath, henrolls⟩ := hg
  exact ⟨m.promoted, ⟨command, enrolled, congrArg (· ++ _) hpath, henrolls, rfl⟩, rfl, rfl⟩

/-- Publishing adds no evidence. -/
theorem meets_publish {name : String} {generation child : ℕ}
    (hg : g.Enrolled name generation child) :
    Meets discipline (fun _ g' => Launched name generation child g'.path) (fun _ _ => True)
      (publish name generation) g := by
  rw [publish, meets_bind]
  refine (meets_promote hg).mono (fun _ g' hg' => ?_) fun _ _ => id
  rw [meets_bind, meets_proc]
  refine ⟨trivial, fun _ _ => ?_⟩
  rw [meets_bind]
  refine meets_ensure (fun _ => ?_) fun _ => trivial
  rw [meets_bind, meets_proc]
  exact ⟨trivial, fun _ _ => meets_ensure (fun _ => hg') fun _ => trivial⟩

/-- An owner that waited for its child knows how it exited. -/
theorem meets_serveChild {name : String} {generation pty child fifo rows cols : ℕ}
    (hg : Launched name generation child g.path) :
    Meets discipline (fun outcome g' => ∀ n, outcome.2 = some n →
      g'.Finished name generation outcome.1 n) (fun _ _ => True)
      (serveChild name pty child fifo rows cols) g := by
  rw [serveChild, meets_bind, meets_proc]
  refine ⟨trivial, fun output _ => ?_⟩
  rw [meets_bind, meets_proc]
  refine ⟨trivial, fun input _ => ?_⟩
  rw [meets_bind, meets_proc]
  refine ⟨trivial, fun r _ => ?_⟩
  rw [meets_bind]
  refine meets_orThrow (fun outcome houtcome => ?_) fun _ => trivial
  subst houtcome
  obtain ⟨exitStatus, exitCode⟩ := outcome
  rw [meets_bind]
  refine (meets_file ..).mpr ⟨trivial, fun _ _ => ?_⟩
  rw [meets_bind]
  refine (meets_proc ..).mpr ⟨trivial, fun _ _ => ?_⟩
  rw [meets_bind]
  refine (meets_proc ..).mpr ⟨trivial, fun _ _ => ?_⟩
  rw [meets_bind]
  refine (meets_file ..).mpr ⟨trivial, fun _ _ => ?_⟩
  rw [meets_bind]
  refine (meets_proc ..).mpr ⟨trivial, fun _ _ n hn => ?_⟩
  cases hn
  exact ⟨child, g.path, rfl, hg⟩

/-- An owner that recorded its child first knows how it exited. -/
theorem meets_superviseChild {env : Env} {name : String} {generation pty child rows cols : ℕ}
    {command : List String} (hg : g.path = [.spawned child command]) :
    Meets discipline (fun outcome g' => ∀ n, outcome.2 = some n →
      g'.Finished name generation outcome.1 n) (fun _ _ => True)
      (superviseChild env name generation pty child rows cols command) g := by
  rw [superviseChild, meets_bind]
  refine (meets_recordChild hg).mono (fun _ g' hrecorded => ?_) fun _ _ => id
  rw [meets_bind, meets_file]
  refine ⟨trivial, fun fifo _ => ?_⟩
  rw [meets_bind]
  refine meets_orThrow (fun fifo _ => ?_) fun _ => trivial
  rw [meets_bind, meets_caught]
  refine (meets_publish hrecorded).mono (fun _ g'' hlaunched => meets_serveChild hlaunched)
    fun e g'' _ => ?_
  rw [meets_bind]
  exact (meets_file ..).mpr ⟨trivial, fun _ _ => trivial⟩

/-- An owner that spawned its child first knows how it exited. -/
theorem meets_supervisePty {env : Env} {name cwd cmd : String} {clientPath : Option String}
    {generation : ℕ} (hg : g.path = []) :
    Meets discipline (fun outcome g' => ∀ n, outcome.2 = some n →
      g'.Finished name generation outcome.1 n) (fun _ _ => True)
      (supervisePty env name cwd cmd clientPath generation) g := by
  rw [supervisePty, meets_bind]
  refine meets_try (fun command _ => ?_) fun _ _ => trivial
  rw [meets_bind]
  refine meets_sessionDir (fun _ => ?_) fun _ _ => trivial
  rw [meets_bind, meets_caught]
  -- Whatever the load returns, the thread has done nothing with a child yet.
  refine Meets.mono (Q := fun _ g' => g'.path = []) (E := fun _ g' => g'.path = [])
    (meets_load (fun m _ => hg) fun _ => hg) (fun m g' hg' => ?_) fun e g' hg' => ?_
  all_goals
    rw [meets_bind, meets_proc]
    refine ⟨trivial, fun pty _ => ?_⟩
    rw [meets_bind]
    refine meets_orThrow (fun pty _ => ?_) fun _ => trivial
    rw [meets_bind, meets_proc]
    refine ⟨trivial, fun child _ => ?_⟩
    rw [meets_bind]
    refine meets_orThrow (fun child hchild => ?_) fun _ => trivial
    subst hchild
    rw [meets_bind, meets_caught]
    refine (meets_superviseChild (congrArg (· ++ _) hg')).mono (fun outcome g'' hfinished => ?_)
      fun e g'' _ => ?_
    · exact hfinished
    · rw [meets_bind]
      refine (meets_proc ..).mpr ⟨trivial, fun _ _ => ?_⟩
      rw [meets_bind]
      exact (meets_proc ..).mpr ⟨trivial, fun _ _ => trivial⟩

/-- An owner marks its run with an exit code only if its child exited. -/
theorem meets_superviseAndMark {env : Env} {name cwd cmd : String} {clientPath : Option String}
    {generation : ℕ} (hg : g.path = []) :
    Meets discipline (fun _ _ => True) (fun _ _ => True)
      (superviseAndMark env name cwd cmd clientPath generation) g := by
  rw [superviseAndMark, meets_bind, meets_caught]
  refine (meets_supervisePty hg).mono (fun outcome g' hfinished => ?_) fun e g' _ => ?_
  · exact meets_markStopped fun n hn => ⟨generation, rfl, hfinished n hn⟩
  · exact meets_markStopped fun n hn => by cases hn

/-- A daemon's owner follows the discipline. -/
theorem follows_ownerThread (env : Env) (name cwd cmd : String) (clientPath : Option String)
    (generation : ℕ) :
    (ownerThread env name cwd cmd clientPath generation).Follows discipline (fun _ _ => True) {} := by
  rw [ownerThread, follows_bind, follows_run]
  have hleave : ∀ g', (leave .finished).Follows discipline (fun _ _ => True) g' :=
    fun _ => ⟨trivial, fun _ _ => trivial⟩
  exact (meets_superviseAndMark rfl).mono (fun _ g' _ => hleave g') fun _ g' _ => hleave g'

/-- A supervisor follows the discipline. -/
theorem follows_supervisorMain (env : Env) (name cwd cmd : String) :
    (supervisorMain env name cwd cmd).Follows discipline (fun _ _ => True) {} := by
  have hexit : ∀ g', (Prog.proc .processExit >>= fun _ => pure ThreadResult.finished).Follows
      discipline (fun _ _ => True) g' := fun _ => ⟨trivial, fun _ _ => trivial⟩
  rw [supervisorMain, follows_bind, follows_run, runSupervisor, meets_bind]
  refine meets_sessionDir (fun _ => ?_) fun _ _ => hexit _
  rw [meets_bind]
  refine (meets_adoptRun rfl).mono (fun generation g' hg' => ?_) fun _ g' _ => hexit g'
  exact (meets_superviseAndMark hg').mono (fun _ g'' _ => hexit g'') fun _ g'' _ => hexit g''

/-! ### The other threads -/

/-- Every program without an owner's evidence follows the discipline. -/
theorem conduct (env : Env) : Conduct env discipline fun _ => True where
  allowed {a g} ha _ := by
    unfold discipline pre
    dsimp only
    split
    · cases ha
    · trivial
  unguarded _ _ _ := trivial
  initial name cwd cmd command previous rows cols _ := by
    constructor
    intro g _
    exact meets_save ⟨rfl, rfl, rfl⟩ trivial fun _ => trivial
  markUnfinished name exitStatus generation by_ := by
    constructor
    intro g _
    exact meets_markStopped fun n hn => by cases hn

/-- Every thread that is started follows the discipline. -/
theorem covers (env : Env) :
    Covers (bridge env) discipline (fun _ _ => True) fun _ _ _ => {} where
  launched {a g r j p} h _ _ := by
    simp only [bridge] at h
    unfold launched at h
    split at h <;> cases h
    · exact follows_supervisorMain ..
    · exact follows_ownerThread ..
    · exact ((conduct env).only
        (only_captureOutput unguarded_of_leaves unguarded_of_captures ..)).follows _ trivial
    · trivial
  again {x g p} _ h := ((conduct env).again h).follows g trivial

/-- A career tells what the thread did. -/
structure Tells (log : List Did) (g : Career) : Prop where
  path : g.path = log.filterMap Did.milestone
  loaded : ∀ n m, (⟨.disk (.loadMetadata n), .ok m⟩ : Did) ∈ log → m.name = n ∧ m ∈ g.loaded

/-- An action adds the milestone that it reached. -/
theorem post_path (g : Career) (a : Act) (r : a.Response) :
    (post a g r).path = g.path ++ (Did.milestone ⟨a, r⟩).toList := by
  unfold post
  split
  · exact (List.append_nil _).symm
  · cases Did.milestone _ with
    | none => exact (List.append_nil _).symm
    | some reached => rfl

/-- What was loaded stays known. -/
theorem mem_post_loaded {a : Act} (r : a.Response) {m : SessionMetadata} (hm : m ∈ g.loaded) :
    m ∈ (post a g r).loaded := by
  unfold post
  split
  · exact List.mem_cons_of_mem _ hm
  · cases Did.milestone _ with
    | none => exact hm
    | some reached => exact hm

/-- A record becomes known when it is loaded. -/
theorem loaded_of_mem_post {a : Act} {r : a.Response} {m : SessionMetadata}
    (hm : m ∈ (post a g r).loaded) :
    m ∈ g.loaded ∨ ∃ n, (⟨a, r⟩ : Did) = ⟨.disk (.loadMetadata n), .ok m⟩ := by
  unfold post at hm
  split at hm
  · rcases List.mem_cons.mp hm with rfl | hm
    · exact .inr ⟨_, rfl⟩
    · exact .inl hm
  · generalize Did.milestone _ = reached at hm
    cases reached <;> exact .inl hm

/-- A career sums up what a thread did. -/
theorem summarizes (env : Env) :
    Summarizes (bridge env) discipline (fun _ _ _ => {}) Tells where
  act {log g a r} h _ hfact := by
    constructor
    · change (post a g r).path = _
      rw [post_path, h.path, List.filterMap_append]
      cases hreached : Did.milestone ⟨a, r⟩ <;> simp [hreached]
    · intro n m hmem
      rcases List.mem_append.mp hmem with hold | hnew
      · obtain ⟨hname, hm⟩ := h.loaded n m hold
        exact ⟨hname, mem_post_loaded r hm⟩
      · cases List.mem_singleton.mp hnew
        exact ⟨hfact, List.mem_cons_self⟩
  launched _ := ⟨rfl, fun _ _ hmem => by cases hmem⟩

end Career

/-! ### Every record is truthful -/

section Past

variable {past : Past} {x : Happening Act Act.Response Disturbance} {i : ℕ} {m : SessionMetadata}
  {path : List Milestone}

/-- What has happened has happened for good. -/
theorem Past.Has.append (h : past.Has path) (x : Happening Act Act.Response Disturbance) :
    Past.Has (past ++ [x]) path := by
  obtain ⟨i, hprefix⟩ := h
  have happend : events i (past ++ [x]) = events i past ++ events i [x] := List.filterMap_append
  refine ⟨i, hprefix.trans ?_⟩
  rw [happend, List.filterMap_append]
  exact List.prefix_append ..

/-- What a record says stays true. -/
theorem SessionMetadata.Truthful.append (h : m.Truthful past)
    (x : Happening Act Act.Response Disturbance) : m.Truthful (past ++ [x]) where
  child p hp := by
    obtain ⟨enrolled, hhas, hrest⟩ := h.child p hp
    exact ⟨enrolled, hhas.append x, hrest⟩
  running hm := by
    obtain ⟨promoted, path, hhas, hrest⟩ := h.running hm
    exact ⟨promoted, path, hhas.append x, hrest⟩
  exited exitCode hm := by
    obtain ⟨pid, exitStatus, promoted, path, hstatus, hhas, hrest⟩ := h.exited exitCode hm
    exact ⟨pid, exitStatus, promoted, path, hstatus, hhas.append x, hrest⟩

/-- A thread reached what it did before, and perhaps one more milestone. -/
theorem Past.has_act {a : Act} {r : a.Response}
    (h : (events i past).filterMap Did.milestone ++ (Did.milestone ⟨a, r⟩).toList = path) :
    Past.Has (past ++ [.act i a r]) path := by
  refine ⟨i, ?_⟩
  rw [events_act_self, List.filterMap_append, ← h]
  cases hreached : Did.milestone ⟨a, r⟩ <;> simp [hreached]

/-- A record that a thread may save is truthful once it is saved. -/
theorem Career.MaySave.truthful {g : Career} {site : Site} (h : g.MaySave site m)
    (hpath : g.path = (events i past).filterMap Did.milestone)
    (hloaded : ∀ c ∈ g.loaded, c.Truthful past) :
    (World.stamp i site m).Truthful
      (past ++ [.act i (.disk (.saveMetadata site m)) (.ok ())]) := by
  cases site with
  | initial =>
    obtain ⟨hstatus, hchild, hcode⟩ := h
    refine ⟨fun p hp => ?_, fun hrunning => ?_, fun exitCode hexit => ?_⟩
    · cases hchild.symm.trans hp
    · cases hstatus.symm.trans hrunning
    · cases hcode.symm.trans hexit
  | supervisor =>
    obtain ⟨c, hc, pid, startTime, rfl⟩ := h
    have htruthful := (hloaded c hc).append
      (.act i (.disk (.saveMetadata .supervisor (c.withSupervisor pid startTime))) (.ok ()))
    exact ⟨htruthful.child, htruthful.running, htruthful.exited⟩
  | child =>
    obtain ⟨c, hc, pid, startTime, command, hspawned, rfl⟩ := h
    have htruthful := (hloaded c hc).append
      (.act i (.disk (.saveMetadata .child (c.withChild pid startTime command))) (.ok ()))
    refine ⟨fun p hp => ?_, htruthful.running, htruthful.exited⟩
    cases startTime with
    | none => cases hp
    | some startTime =>
      cases hp
      refine ⟨c.withChild pid (some startTime) command, Past.has_act ?_,
        ⟨rfl, rfl, rfl, fun p hp => (Option.some.inj hp).symm⟩, rfl, rfl⟩
      rw [← hpath, hspawned]
      rfl
  | promote =>
    obtain ⟨c, hc, rfl, pid, command, enrolled, henrolled, henrolls⟩ := h
    have htruthful := (hloaded c hc).append
      (.act i (.disk (.saveMetadata .promote c.promoted)) (.ok ()))
    refine ⟨htruthful.child, fun _ => ?_, htruthful.exited⟩
    refine ⟨c.promoted, _, Past.has_act rfl, ⟨pid, command, enrolled, ?_, henrolls, rfl⟩, rfl,
      rfl, rfl⟩
    rw [← hpath, henrolled]
    rfl
  | stopped by_ =>
    obtain ⟨c, hc, exitStatus, exitCode, rfl, hfinished⟩ := h
    have htruthful := (hloaded c hc).append
      (.act i (.disk (.saveMetadata (.stopped by_) (c.markedStopped (some exitStatus) exitCode)))
        (.ok ()))
    refine ⟨htruthful.child, fun hrunning => ?_, fun n hn => ?_⟩
    · cases hrunning
    · obtain ⟨pid, path, hexited, m, hpromotes, hname, hgeneration⟩ := hfinished n hn
      refine ⟨pid, exitStatus, m, path, rfl, Past.has_act ?_, hpromotes, hname, hgeneration⟩
      rw [← hpath, hexited]
      exact List.append_nil _

end Past

namespace World

/-- Every record is on disk under its name. -/
def Labelled (w : World) : Prop := ∀ n m, w.metadata n = some m → m.name = n

variable {w w' : World} {i : ℕ} {a : Act} {c : Choice} {r : a.Response}

/-- A save puts a record under its own name. -/
theorem Labelled.act (hJ : w.Labelled) (h : perform i a c w = some (r, w')) (g : Career) :
    Career.fact a g r ∧ w'.Labelled := by
  constructor
  · unfold Career.fact
    split
    · obtain ⟨-, ⟨-, e, hr⟩ | ⟨d, hd, hr | ⟨-, e, hr⟩⟩⟩ := performDisk_load h
      · cases hr
      · cases hr
        exact hJ _ _ hd
      · cases hr
    · trivial
  · intro n d hd
    rcases records_cases h with ⟨-, hmetadata, -⟩ | ⟨site, m, rfl, -, rfl⟩
    · exact hJ n d (hmetadata ▸ hd)
    · by_cases hn : n = m.name
      · subst hn
        simp only [World.save, Function.update_self, Option.some.injEq] at hd
        rw [← hd]
        cases site <;> rfl
      · exact hJ n d ((Function.update_of_ne hn ..).symm.trans hd)

/-- Every record on disk, and every record that a thread has loaded, is truthful. -/
structure Archive (w : WithHistory Act Act.Response World Disturbance) (γ : ℕ → Career) :
    Prop where
  disk : ∀ n m, w.world.metadata n = some m → m.Truthful w.history
  loaded : ∀ i, ∀ m ∈ (γ i).loaded, m.Truthful w.history

/-- Every record stays truthful, whatever is done. -/
theorem Archive.act {env : Env} {w : WithHistory Act Act.Response World Disturbance}
    {γ : ℕ → Career} (hJ : Archive w γ)
    (hpath : (γ i).path = (events i w.history).filterMap Did.milestone)
    (hpre : Career.pre a (γ i)) (h : perform i a c w.world = some (r, w')) :
    Archive ⟨w', w.history ++ [.act i a r]⟩
      (ghosts (bridge env) Career.discipline (fun _ _ _ => {}) γ i a r) where
  disk n m hm := by
    rcases records_cases h with ⟨-, hmetadata, -⟩ | ⟨site, d, rfl, hok, rfl⟩
    · exact (hJ.disk n m (hmetadata ▸ hm)).append _
    · obtain ⟨rfl, -⟩ := perform_saved h hok
      by_cases hn : n = d.name
      · subst hn
        simp only [World.save, Function.update_self, Option.some.injEq] at hm
        rw [← hm]
        exact hpre.truthful hpath (hJ.loaded i)
      · exact (hJ.disk n m ((Function.update_of_ne hn ..).symm.trans hm)).append _
  loaded k m hm := by
    rcases ghosts_cases (bridge env) Career.discipline (fun _ _ _ => {}) γ i a r k with
      ⟨p, -, heq⟩ | ⟨rfl, heq⟩ | ⟨-, heq⟩
    · rw [heq] at hm
      cases hm
    · rw [heq] at hm
      rcases Career.loaded_of_mem_post hm with hold | ⟨n, hload⟩
      · exact (hJ.loaded k m hold).append _
      · cases hload
        obtain ⟨-, ⟨-, e, hr⟩ | ⟨d, hd, hr | ⟨-, e, hr⟩⟩⟩ := performDisk_load h
        · cases hr
        · cases hr
          exact (hJ.disk _ _ hd).append _
        · cases hr
    · rw [heq] at hm
      exact (hJ.loaded k m hm).append _

end World

/-- **Records are truthful.** In every state of every run, however starts, owners and stops
interleave, a record on disk says what happened, and so does every record that any thread has
loaded: its child was spawned with its command, a Running session was promoted by the owner of a
child, and an exit code is what such an owner's wait for its child returned. -/
theorem record_truthful (env : Env) (requests : ℕ → Option Request)
    {s : Config Act Act.Response ThreadResult (WithHistory Act Act.Response World Disturbance)}
    (h : (bridge env).recorded.Reaches (fun _ _ _ _ => True) ((boot env requests).record []) s) :
    (∀ n m, s.world.world.metadata n = some m → m.name = n ∧ m.Truthful s.world.history) ∧
    ∀ i n m, (⟨.disk (.loadMetadata n), .ok m⟩ : Did) ∈ events i s.world.history →
      m.name = n ∧ m.Truthful s.world.history := by
  have hlabelled : Preserves (bridge env) Career.discipline (fun _ _ _ => {})
      (fun _ _ _ _ => True) fun w _ => w.Labelled :=
    { act := fun hJ _ _ _ hact => hJ.act hact _
      disturb := fun hJ hdisturb n d hd => hJ n d ((disturb_sameDisk hdisturb).1.metadata ▸ hd) }
  have hpreserves := (hlabelled.recorded (births env) (Career.summarizes env)).and
    (K := Archive) (fun {w γ i a c r w'} hrecalls hK _ hpre hact => ?_)
    fun {w γ e w'} hK hdisturb => ?_
  · have hlabels : (World.fresh requests).Labelled := fun _ _ hd => by cases hd
    have harchive : Archive ⟨World.fresh requests, []⟩ fun _ => {} := by
      constructor
      · intro n m hm
        cases hm
      · intro i m hm
        cases hm
    obtain ⟨γ, ⟨hrecalls, harchive⟩, -⟩ := h.outline (Career.covers env).recorded hpreserves
      ⟨fun _ => {}, ⟨⟨hlabels, fun _ => ⟨rfl, fun _ _ hmem => by cases hmem⟩, fun _ _ => rfl⟩,
        harchive⟩, fun i => (Career.conduct env).boot requests i trivial⟩
    refine ⟨fun n m hm => ⟨hrecalls.world n m hm, harchive.disk n m hm⟩, fun i n m hmem => ?_⟩
    obtain ⟨hname, hloaded⟩ := (hrecalls.recalls i).loaded n m hmem
    exact ⟨hname, harchive.loaded i m hloaded⟩
  · obtain ⟨hact, hhistory⟩ := System.perform_recorded hact
    obtain ⟨world, history⟩ := w'
    obtain rfl : history = w.history ++ [.act i a r] := hhistory
    exact hK.act (hrecalls.recalls i).path hpre hact
  · obtain ⟨hdisturb, hhistory⟩ := System.disturb_recorded hdisturb
    obtain ⟨world, history⟩ := w'
    obtain rfl : history = w.history ++ [.disturb e] := hhistory
    refine ⟨fun n m hm => (hK.disk n m ?_).append _, fun i m hm => (hK.loaded i m hm).append _⟩
    exact (disturb_sameDisk hdisturb).1.metadata ▸ hm

/-- A session whose child exited by itself. -/
theorem record_truthful_exited :
    ∃ (s : Config Act Act.Response ThreadResult
        (WithHistory Act Act.Response World Disturbance)) (m : SessionMetadata),
      (bridge plainEnv).recorded.Reaches (fun _ _ _ _ => True)
        ((boot plainEnv (served [startDemo true])).record []) s ∧
      s.world.world.metadata "demo" = some m ∧ m.exitCode = some 3 ∧
      m.name = "demo" ∧ m.Truthful s.world.history := by
  obtain ⟨s, hreach, hs⟩ := System.exists_reaches_of_exec (bridge plainEnv).recorded
    System.unrestricted
    (steps 0 13 ++ [.run 0 { thread := 2 }] ++ steps 2 2 ++
      [.run 2 { pid := 7, startTime := 100 }] ++ steps 2 12 ++
      [.run 2 { thread := 4 }, .run 2 { thread := 5 }, .disturb (.processDies 7),
        .run 2 { error := "exited", code := 3 }] ++ steps 2 1 ++ [.loop 5] ++ steps 5 4 ++
      steps 2 3 ++ steps 4 2 ++ [.loop 4] ++ steps 4 2 ++ steps 2 4)
    ((boot plainEnv (served [startDemo true])).record [])
    (fun s => (s.world.world.metadata "demo").any fun m => m.exitCode = some 3)
    (fun _ _ _ _ _ => trivial) (by decide +kernel)
  obtain ⟨m, hm, hexit⟩ := (Option.any_eq_true _ _).mp hs
  obtain ⟨hname, htruthful⟩ := (record_truthful plainEnv _ hreach).1 _ m hm
  exact ⟨s, m, hreach, hm, of_decide_eq_true hexit, hname, htruthful⟩

end IgnibyteBridge
