import IgnibyteBridge.Session.Rules

/-!
# The programs follow the protocol

One lemma for each function: it meets the obligations of its actions, and what
its thread knows afterwards.
-/

namespace IgnibyteBridge.Knowledge

open Concurrency Program Fallible

variable {α : Type} {g : Knowledge} {E : String → Knowledge → Prop}

/-! ## Actions that teach nothing -/

/-- A thread learns nothing from an action on files. -/
theorem meets_protocol_file (a : FileAct) (ha : pre (.file a) g)
    (Q : a.Response → Knowledge → Prop) : Meets protocol Q E (file a) g ↔ ∀ r, Q r g :=
  (meets_file a Q).trans ⟨fun h r => h.2 r trivial, fun h => ⟨ha, fun r _ => h r⟩⟩

/-- A thread learns nothing from a call that may fail. -/
@[simp] theorem meets_attempt (step : Step) (Q : Bool → Knowledge → Prop) :
    Meets protocol Q E (proc (.attempt step)) g ↔ ∀ r, Q r g :=
  (meets_proc (.attempt step) Q).trans ⟨fun h r => h.2 r trivial, fun h => ⟨trivial, fun r _ => h r⟩⟩

/-- A thread learns nothing from resolving its working directory. -/
@[simp] theorem meets_resolveCwd (cwd : Option String)
    (Q : Except String String → Knowledge → Prop) :
    Meets protocol Q E (proc (.resolveCwd cwd)) g ↔ ∀ r, Q r g :=
  (meets_proc (.resolveCwd cwd) Q).trans ⟨fun h r => h.2 r trivial, fun h => ⟨trivial, fun r _ => h r⟩⟩

/-- A thread learns nothing from making directories. -/
@[simp] theorem meets_ensureBridgeDir (name : String) (Q : Except String Unit → Knowledge → Prop) :
    Meets protocol Q E (disk (.ensureBridgeDir name)) g ↔ ∀ r, Q r g :=
  (meets_disk (.ensureBridgeDir name) Q).trans
    ⟨fun h r => h.2 r trivial, fun h => ⟨trivial, fun r _ => h r⟩⟩

/-! ## Records and locks -/

/-- A load, wherever it is allowed. -/
theorem meets_loadMetadata {name : String} {Q : SessionMetadata → Knowledge → Prop}
    (hpre : pre (.disk (.loadMetadata name)) g)
    (hok : ∀ m, m.name = name → Q m (g.load (some m)))
    (hinvalid : ∀ e, validateSessionName name = .error e → E e g)
    (herror : ∀ e, E e (g.load none)) : Meets protocol Q E (loadMetadata name) g := by
  rw [loadMetadata, meets_bind]
  refine meets_sessionDir (fun _ => ?_) hinvalid
  rw [meets_bind, meets_disk]
  refine ⟨hpre, fun r hr => ?_⟩
  cases r with
  | ok m => exact meets_try (fun a ha => by cases ha; exact hok m hr) (fun e he => by cases he)
  | error e => exact meets_try (fun a ha => by cases ha) (fun e _ => herror e)

/-- A free thread may load. -/
theorem Free.pre_load (hg : g.Free) (name : String) : pre (.disk (.loadMetadata name)) g := by
  refine ⟨fun n c h => ?_, fun st hst hopen => ?_⟩
  · rw [hg.locked] at h
    cases h
  · obtain ⟨hwindow, hnext⟩ := hg.steady st hst
    exact (hopen.elim hwindow hnext).elim

/-- A load of a thread that is in no critical section. -/
theorem Free.meets_loadMetadata {name : String} {Q : SessionMetadata → Knowledge → Prop}
    (hg : g.Free)
    (hok : ∀ m g', g.Learns g' → m.name = name → m ∈ g'.known → Q m g')
    (herror : ∀ e g', g.Learns g' → E e g') : Meets protocol Q E (loadMetadata name) g :=
  Knowledge.meets_loadMetadata (hg.pre_load name)
    (fun m hm => hok m _ (hg.learns_load _) hm (mem_known_load g m))
    (fun e _ => herror e g (.refl g)) (fun e => herror e _ (hg.learns_load _))

/-- A section under `status.lock`: its body starts with the lock and ends with it. -/
theorem meets_withStatusLock {name : String} {body : Result α} {Q : α → Knowledge → Prop}
    (hg : g.locked = none) (hfail : ∀ e, E e g)
    (hbody : Meets protocol
      (fun x g' => (∃ c, g'.locked = some (name, c)) ∧ Q x { g' with locked := none })
      (fun e g' => (∃ c, g'.locked = some (name, c)) ∧ E e { g' with locked := none })
      body { g with locked := some (name, none) }) :
    Meets protocol Q E (withStatusLock name body) g := by
  rw [withStatusLock, meets_bind, meets_disk]
  refine ⟨hg, fun r _ => ?_⟩
  cases r with
  | held =>
    simp only [meets_bind, meets_caught]
    refine Meets.mono hbody (fun x g' h => ?_) (fun e g' h => ?_)
    · exact ⟨h.1, fun _ _ => meets_try (fun a ha => by cases ha; exact h.2) (fun e he => by cases he)⟩
    · exact ⟨h.1, fun _ _ => meets_try (fun a ha => by cases ha) (fun e he => by cases he; exact h.2)⟩
  | wouldBlock => exact hfail _
  | openFailed => exact hfail _
  | flockFailed => exact hfail _

/-- A load inside a section. -/
theorem meets_loadMetadata_locked {name : String} {Q : SessionMetadata → Knowledge → Prop}
    (hg : g.Free)
    (hok : ∀ m, m.name = name →
      Q m { g.load (some m) with locked := some (name, some m) })
    (herror : ∀ e g', g.Learns g' → ∀ c, E e { g' with locked := some (name, c) }) :
    Meets protocol Q E (loadMetadata name) { g with locked := some (name, none) } := by
  have hsteady := hg.steady
  refine Knowledge.meets_loadMetadata ⟨fun n c h => ?_, fun st hst hopen => ?_⟩ (fun m hm => ?_)
    (fun e _ => herror e g (.refl g) none) (fun e => ?_)
  · cases h
    exact ⟨rfl, rfl⟩
  · exact (hopen.elim (hsteady st hst).1 (hsteady st hst).2).elim
  · exact hok m hm
  · exact herror e _ (hg.learns_load none) none

/-- A save inside a section. -/
theorem meets_saveMetadata {site : Site} {m c : SessionMetadata} {Q : Unit → Knowledge → Prop}
    (hlocked : g.locked = some (c.name, some c)) (hsave : g.MayReplace c m site)
    (hok : Q () (g.save site m)) (herror : ∀ e, E e g) :
    Meets protocol Q E (saveMetadata site m) g := by
  rw [saveMetadata, meets_bind]
  refine meets_sessionDir (fun _ => ?_) fun e _ => herror e
  rw [meets_bind, meets_disk]
  refine ⟨.inr ⟨c, hlocked, hsave⟩, fun r _ => ?_⟩
  cases r with
  | ok u => exact meets_try (fun _ _ => hok) (fun e he => by cases he)
  | error e => exact meets_try (fun a ha => by cases ha) (fun e _ => herror e)

/-- Leaving a section leaves only what was learned in it. -/
theorem Free.learns_unlocked (hg : g.Free) {g' : Knowledge} (h : g.Learns g')
    (c : Option (String × Option SessionMetadata)) :
    g.Learns { ({ g' with locked := c } : Knowledge) with locked := none } where
  locked := hg.locked.symm
  start := h.start
  owner := h.owner
  known := h.known
  gone := h.gone

/-- `mark_stopped` needs what its caller decided on, and leaves only what it learned. -/
theorem meets_markStopped {name : String} {exitStatus : Option String} {exitCode : Option ℕ}
    {generation : ℕ} {by_ : Stopper} {Q : Unit → Knowledge → Prop} (hg : g.Free)
    (hstop : g.MayStop name generation by_) (hok : ∀ g', g.Learns g' → Q () g')
    (herror : ∀ e g', g.Learns g' → E e g') :
    Meets protocol Q E (markStopped name exitStatus exitCode (some generation) by_) g := by
  rw [markStopped, meets_bind]
  refine meets_sessionDir (fun _ => ?_) (fun e _ => herror e g (.refl g))
  refine meets_withStatusLock hg.locked (fun e => herror e g (.refl g)) ?_
  rw [meets_bind]
  refine meets_loadMetadata_locked hg (fun m hm => ?_)
    (fun e g' hg' c => ⟨⟨c, rfl⟩, herror e _ (hg.learns_unlocked hg' _)⟩)
  have hlearns := hg.learns_load (some m)
  have hdone : (∃ c, (some (name, some m) : Option (String × Option SessionMetadata)) =
      some (name, c)) := ⟨some m, rfl⟩
  split
  · exact ⟨hdone, hok _ (hg.learns_unlocked hlearns _)⟩
  · next hgeneration =>
    split
    · exact ⟨hdone, hok _ (hg.learns_unlocked hlearns _)⟩
    · next hstatus =>
      have heq : m.generation = generation := by simpa using hgeneration
      subst hm heq
      refine meets_saveMetadata (c := m) rfl ⟨hstatus, hlearns.mayStop hstop, _, _, rfl⟩ ?_ ?_
      · exact ⟨⟨none, rfl⟩, hok _ (hg.learns_unlocked hlearns _)⟩
      · exact fun e => ⟨hdone, herror e _ (hg.learns_unlocked hlearns _)⟩

/-! ## Signals -/

/-- `pid_is_ours` on a recorded child that is not ours any more. -/
theorem meets_pidIsOurs {pid startTime : Option ℕ} {Q : Bool → Knowledge → Prop}
    (hQ : ∀ b g', g.Learns g' →
      (b = false → ∀ m ∈ g.known, m.childPid = pid → m.childStartTime = startTime →
        g'.ChildGone m) → Q b g') :
    Meets protocol Q E (proc (.pidIsOurs pid startTime)) g := by
  refine (meets_proc (.pidIsOurs pid startTime) Q).mpr ⟨trivial, fun b _ => ?_⟩
  cases pid with
  | none =>
    refine hQ b g (.refl g) fun _ m _ hpid _ p hp => ?_
    rw [hpid] at hp
    cases hp
  | some p =>
    cases b with
    | true => exact hQ true g (.refl g) fun h => by cases h
    | false =>
      refine hQ false _ (learns_ite_bury g p _) fun _ m hm hpid hstart q hq => ?_
      have hidentifies : g.identifies p startTime = true :=
        List.any_eq_true.mpr ⟨m, hm, by simp [hpid, hstart]⟩
      rw [hpid] at hq
      cases hq
      exact mem_gone_ite_bury g p hidentifies

/-- `terminate_pid` on a recorded child. -/
theorem meets_terminatePid {p : ℕ} {Q : Except String Unit → Knowledge → Prop}
    (hQ : ∀ r g', g.Learns g' →
      (r.isOk = true → ∀ m ∈ g.known, m.childPid = some p → g'.ChildGone m) → Q r g') :
    Meets protocol Q E (proc (.terminatePid p)) g := by
  refine (meets_proc (.terminatePid p) Q).mpr ⟨trivial, fun r _ => ?_⟩
  cases r with
  | error e => exact hQ (.error e) g (.refl g) fun h => by cases h
  | ok u =>
    refine hQ (.ok u) _ (learns_ite_bury g p _) fun _ m hm hpid q hq => ?_
    have hnames : g.names p = true := List.any_eq_true.mpr ⟨m, hm, by simp [hpid]⟩
    rw [hpid] at hq
    cases hq
    exact mem_gone_ite_bury g p hnames

/-- Signalling a recorded child, in the program's two forms: when a result is
`good`, no error was met and the child is gone. -/
theorem meets_signal {β : Type} {pid startTime : Option ℕ} {otherwise : β}
    (signalled : ℕ → Except String Unit → β) (good : β → Prop) {Q : β → Knowledge → Prop}
    (hgood : ∀ p e, ¬good (signalled p (.error e)))
    (hQ : ∀ b g', g.Learns g' →
      (good b → ∀ m ∈ g.known, m.childPid = pid → m.childStartTime = startTime →
        g'.ChildGone m) → Q b g') :
    Meets protocol Q E (do
      if ← proc (.pidIsOurs pid startTime) then
        match pid with
        | none => pure otherwise
        | some pid => return signalled pid (← proc (.terminatePid pid))
      else pure otherwise : Result β) g := by
  rw [meets_bind]
  refine meets_pidIsOurs fun b g' hlearns hours => ?_
  cases b with
  | false => exact hQ otherwise g' hlearns fun _ => hours rfl
  | true =>
    cases pid with
    | none =>
      refine hQ otherwise g' hlearns fun _ m _ hpid _ p hp => ?_
      rw [hpid] at hp
      cases hp
    | some p =>
      simp only [ite_true, meets_bind]
      refine meets_terminatePid fun r g'' hlearns' hgone => ?_
      refine hQ _ g'' (hlearns.trans hlearns') fun hr m hm hpid _ => ?_
      cases r with
      | error e => exact absurd hr (hgood p e)
      | ok u => exact hgone rfl m (hlearns.known m hm) hpid

/-- A recorded child is gone after a signal that did not fail. -/
theorem meets_terminateRecorded {pid startTime : Option ℕ} {Q : Bool → Knowledge → Prop}
    (hQ : ∀ b g', g.Learns g' →
      (b = true → ∀ m ∈ g.known, m.childPid = pid → m.childStartTime = startTime →
        g'.ChildGone m) → Q b g') :
    Meets protocol Q E (terminateRecorded pid startTime) g :=
  meets_signal (fun _ r => r.isOk) (· = true) (fun _ _ h => by cases h) hQ

/-- A recorded child is gone after a stop's signal that added no error. -/
theorem meets_signalRecorded {kind : String} {pid startTime : Option ℕ}
    {Q : List String → Knowledge → Prop}
    (hQ : ∀ errors g', g.Learns g' →
      (errors = [] → ∀ m ∈ g.known, m.childPid = pid → m.childStartTime = startTime →
        g'.ChildGone m) → Q errors g') :
    Meets protocol Q E (signalRecorded kind pid startTime) g :=
  meets_signal (signalErrors kind) (· = []) (fun _ _ h => by cases h) hQ

/-- `session_is_active` finds a Running session inactive only once its child is gone. -/
theorem meets_sessionIsActive {m : SessionMetadata} {Q : Bool → Knowledge → Prop}
    (hm : m ∈ g.known)
    (hQ : ∀ b g', g.Learns g' → (b = false → m.status = .running → g'.ChildGone m) → Q b g') :
    Meets protocol Q E (sessionIsActive m) g := by
  rw [sessionIsActive]
  split
  · rw [meets_bind]
    refine meets_pidIsOurs fun b g' hlearns _ => ?_
    cases b with
    | true => exact hQ true g' hlearns fun h => by cases h
    | false =>
      refine meets_pidIsOurs fun b g'' hlearns' hours => ?_
      exact hQ b g'' (hlearns.trans hlearns') fun hb _ =>
        hours hb m (hlearns.known m hm) rfl rfl
  · next hstatus => exact hQ false g (.refl g) fun _ h => absurd h hstatus

/-! ## Starting -/

/-- A thread that is starting a session. -/
def Holds (g : Knowledge) (name : String) : Prop :=
  g.locked = none ∧ ∃ st, g.start = some st ∧ st.name = name ∧ st.held = true

/-- A thread that learns still holds its `start.lock`. -/
theorem Learns.holds {g' : Knowledge} {name : String} (h : g.Learns g') (hg : g.Holds name) :
    g'.Holds name :=
  ⟨h.locked.trans hg.1, by rw [h.start]; exact hg.2⟩

/-- A section under `start.lock`. -/
theorem meets_withStartLock {name : String} {body : Result α} (hlocked : g.locked = none)
    (hstart : g.start = none) (howner : g.owner = none)
    (hbody : Meets protocol (fun _ g' => g'.Holds name) (fun _ g' => g'.Holds name) body
      { g with start := some { name := name } }) :
    Meets protocol (fun _ _ => True) (fun _ _ => True) (withStartLock name body) g := by
  rw [withStartLock, meets_bind, meets_disk]
  refine ⟨⟨hlocked, hstart, howner⟩, fun r _ => ?_⟩
  cases r with
  | held =>
    simp only [meets_bind, meets_caught]
    refine Meets.mono hbody (fun x g' h => ?_) (fun e g' h => ?_)
    all_goals exact ⟨h.2, fun _ _ => meets_try (fun _ _ => trivial) (fun _ _ => trivial)⟩
  | wouldBlock => exact trivial
  | openFailed => exact trivial
  | flockFailed => exact trivial

/-- The check that the name is not in use opens the start's window. -/
theorem meets_bailIfRunning {name : String} {st : StartGhost} {Q : Unit → Knowledge → Prop}
    (hvalid : validateSessionName name = .ok ()) (hlocked : g.locked = none)
    (hstart : g.start = some st) (hname : st.name = name)
    (hwindow : st.window = none)
    (hok : ∀ loaded g', g'.locked = none → g'.start = some { st with window := some loaded } →
      g'.Cleared loaded → Q () g')
    (herror : ∀ e g' window, g'.locked = none → g'.start = some { st with window := window } →
      E e g') :
    Meets protocol Q E (bailIfRunning name) g := by
  have hload : ∀ loaded, (g.load loaded).start = some { st with window := some loaded } := by
    intro loaded
    rw [load, hstart, Option.map_some, StartGhost.load, if_pos hwindow]
  have hpre : pre (.disk (.loadMetadata name)) g := by
    refine ⟨fun n c h => ?_, fun st' h _ => ?_⟩
    · rw [hlocked] at h
      cases h
    · rw [hstart] at h
      cases h
      exact hname
  have hunlocked : ∀ loaded, (g.load loaded).locked = none := by
    intro loaded
    rw [load, hlocked]
    rfl
  rw [bailIfRunning, meets_bind, meets_caught]
  refine meets_loadMetadata hpre (fun m _ => ?_) (fun e h => ?_) (fun e => ?_)
  · rw [meets_bind]
    refine meets_sessionIsActive (mem_known_load g m) fun b g' hlearns hactive => ?_
    have hlocked' : g'.locked = none := hlearns.locked.trans (hunlocked _)
    have hstart' : g'.start = some { st with window := some (some m) } :=
      hlearns.start.trans (hload _)
    cases b with
    | true => exact herror _ g' _ hlocked' hstart'
    | false =>
      refine hok (some m) g' hlocked' hstart' fun m' hm' hstatus => ?_
      cases hm'
      exact hactive rfl hstatus
  · rw [hvalid] at h
    cases h
  · exact hok none _ (hunlocked _) (hload _) fun m hm => by cases hm

/-- A rotation needs the right to replace the session's files. -/
theorem meets_rotatePreviousLog {env : Env} {log : Log} {name : String}
    {Q : Unit → Knowledge → Prop} (hreset : g.MayReset name) (hok : Q () g)
    (herror : ∀ e, E e g) : Meets protocol Q E (rotatePreviousLog env log name) g := by
  rw [rotatePreviousLog, meets_bind, meets_protocol_file (.logLength log name) trivial]
  intro length
  split
  · rw [meets_bind, meets_protocol_file (.renameLog log name) hreset]
    exact fun r => meets_ensure (fun _ => hok) (fun _ => herror _)
  · exact hok

/-- The files of a new run are made without learning anything. -/
theorem meets_createFiles {env : Env} {name : String} {Q : Unit → Knowledge → Prop}
    (hreset : g.MayReset name) (hok : Q () g) (herror : ∀ e, E e g) :
    Meets protocol Q E (createFiles env name) g := by
  have hensure : ∀ {context : String} {r : Bool} {Q : Unit → Knowledge → Prop}, Q () g →
      Meets protocol Q E (ensure context r) g :=
    fun h => meets_ensure (fun _ => h) (fun _ => herror _)
  have hrotate : ∀ {log : Log} {Q : Unit → Knowledge → Prop}, Q () g →
      Meets protocol Q E (rotatePreviousLog env log name) g :=
    fun h => meets_rotatePreviousLog hreset h herror
  have hfile : ∀ {a : FileAct} {Q : a.Response → Knowledge → Prop}, pre (.file a) g →
      (∀ r, Q r g) → Meets protocol Q E (file a) g :=
    fun {a} Q ha h => (meets_protocol_file a ha Q).mpr h
  have hmake : Meets protocol Q E (do
      ensure s!"failed to create {env.inputFifo name}" (← file (.mkfifo name))
      rotatePreviousLog env .raw name
      rotatePreviousLog env .clean name
      ensure "failed to create raw log" (← file (.createPrivateLog .raw name)).isSome
      ensure "failed to create clean log" (← file (.createPrivateLog .clean name)).isSome
      ensure "failed to create screen snapshot" (← file (.createScreen name))) g := by
    simp only [meets_bind]
    refine hfile hreset fun _ => hensure (hrotate (hrotate ?_))
    exact hfile hreset fun _ => hensure (hfile hreset fun _ => hensure (hfile hreset fun _ =>
      hensure hok))
  rw [createFiles, meets_bind]
  refine hfile trivial fun exists_ => ?_
  split
  · simp only [meets_bind]
    exact hfile hreset fun _ => hensure (by simpa only [meets_bind] using hmake)
  · exact hmake

/-- `initialize_session_files`, in a start whose check found no session in use. -/
theorem meets_initializeSessionFiles {env : Env} {name cwd cmd : String} {rows cols : Option ℕ}
    {st : StartGhost} {loaded : Option SessionMetadata} {Q : ℕ → Knowledge → Prop}
    (hvalid : validateSessionName name = .ok ()) (hlocked : g.locked = none)
    (hstart : g.start = some st) (hname : st.name = name) (hheld : st.held = true)
    (hwindow : st.window = some loaded) (hnext : st.next = none) (hinit : st.initialized = none)
    (hcleared : g.Cleared loaded)
    (hok : ∀ n g', g'.locked = none →
      g'.start = some { st with next := some n, initialized := some n } → Q n g')
    (herror : ∀ e g', g'.Holds name → E e g') :
    Meets protocol Q E (initializeSessionFiles env name cwd cmd rows cols) g := by
  have hholds : g.Holds name := ⟨hlocked, st, hstart, hname, hheld⟩
  have hload : ∀ previous, (g.load previous).start =
      some { st with next := some (nextGeneration previous) } := by
    intro previous
    rw [load, hstart, Option.map_some, StartGhost.load, if_neg (by simp [hwindow]), if_pos hnext]
  have hunlocked : ∀ previous, (g.load previous).locked = none := by
    intro previous
    rw [load, hlocked]
    rfl
  have hpre : pre (.disk (.loadMetadata name)) g := by
    refine ⟨fun n c h => ?_, fun st' h _ => ?_⟩
    · rw [hlocked] at h
      cases h
    · rw [hstart] at h
      cases h
      exact hname
  -- Whatever the record says, the rest of the function is the same.
  have hrest : ∀ previous command, Meets protocol Q E (do
      createFiles env name
      saveMetadata .initial
        (initialMetadata name cwd command (nextGeneration previous) rows cols)
      pure (nextGeneration previous) : Result ℕ) (g.load previous) := by
    intro previous command
    have hholds' : (g.load previous).Holds name :=
      ⟨hunlocked previous, _, hload previous, hname, hheld⟩
    rw [meets_bind]
    refine meets_createFiles ⟨_, loaded, hload previous, hheld, hname, hwindow, hinit, hcleared⟩
      ?_ fun e => herror e _ hholds'
    rw [meets_bind, saveMetadata, meets_bind]
    refine meets_sessionDir (fun _ => ?_) fun e _ => herror e _ hholds'
    rw [meets_bind, meets_disk]
    refine ⟨.inl ⟨rfl, hunlocked previous, _, loaded, hload previous, hheld, hname, hwindow, rfl,
      hinit, hcleared, rfl, rfl⟩, fun r _ => ?_⟩
    cases r with
    | error e =>
      exact meets_try (fun a ha => by cases ha) (fun e _ => herror e _ hholds')
    | ok u =>
      refine meets_try (fun _ _ => ?_) (fun e he => by cases he)
      refine hok _ _ (hunlocked previous) ?_
      change ((g.load previous).start.map _) = _
      rw [hload, Option.map_some]
      rfl
  rw [initializeSessionFiles, meets_bind]
  refine meets_sessionDir (fun _ => ?_) fun e _ => herror e g hholds
  rw [meets_bind]
  refine meets_try (fun command _ => ?_) fun e _ => herror e g hholds
  rw [meets_bind, meets_caught]
  refine meets_loadMetadata hpre (fun m _ => ?_) (fun e h => ?_) (fun e => ?_)
  · exact hrest (some m) command
  · rw [hvalid] at h
    cases h
  · exact hrest none command

/-- Polling teaches a thread records. -/
theorem meets_pollRunning {name : String} {Q : Option SessionMetadata → Knowledge → Prop} (n : ℕ)
    (hg : g.Free) (hok : ∀ r g', g.Learns g' → Q r g') (herror : ∀ e g', g.Learns g' → E e g') :
    Meets protocol Q E (pollRunning name n) g := by
  induction n generalizing g with
  | zero => exact hok none g (.refl g)
  | succ n ih =>
    rw [pollRunning, meets_bind]
    refine hg.meets_loadMetadata (fun m g' hlearns _ _ => ?_) herror
    cases m.status with
    | running => exact hok (some m) g' hlearns
    | stopped =>
      dsimp only
      split
      · exact hok (some m) g' hlearns
      · exact herror _ g' hlearns
    | starting =>
      exact ih (hlearns.free hg) (fun r g'' h => hok r g'' (hlearns.trans h))
        (fun e g'' h => herror e g'' (hlearns.trans h))

/-- `wait_for_running_metadata`, with the stop of a start that timed out. -/
theorem meets_waitForRunningMetadata {name : String} {Q : SessionMetadata → Knowledge → Prop}
    (hg : g.Free) (hstart : g.start ≠ none) (hok : ∀ m g', g.Learns g' → Q m g')
    (herror : ∀ e g', g.Learns g' → E e g') :
    Meets protocol Q E (waitForRunningMetadata name) g := by
  rw [waitForRunningMetadata, meets_bind]
  refine meets_pollRunning 50 hg (fun r g₁ h₁ => ?_) herror
  cases r with
  | some m => exact hok m g₁ h₁
  | none =>
    rw [meets_bind, meets_caught]
    refine (h₁.free hg).meets_loadMetadata (fun m g₂ h₂ hname hknown => ?_)
      (fun e g₂ h₂ => herror _ g₂ (h₁.trans h₂))
    have hlearns := h₁.trans h₂
    dsimp only
    cases hstatus : m.status with
    | running => exact hok m g₂ hlearns
    | stopped =>
      dsimp only
      split
      · exact hok m g₂ hlearns
      · exact herror _ g₂ hlearns
    | starting =>
      rw [meets_bind]
      refine meets_terminateRecorded fun _ g₃ h₃ _ => ?_
      rw [meets_bind]
      refine meets_terminateRecorded fun terminated g₄ h₄ hgone => ?_
      have hlearns₄ := hlearns.trans (h₃.trans h₄)
      have hstop : g₄.MayStop name m.generation (.timeout m terminated) :=
        ⟨hlearns₄.start.symm ▸ hstart, h₄.known m (h₃.known m hknown), hname, rfl,
          fun ht => hgone ht m (h₃.known m hknown) rfl rfl⟩
      rw [meets_bind, meets_caught]
      exact meets_markStopped (hlearns₄.free hg) hstop
        (fun g₅ h₅ => herror _ g₅ (hlearns₄.trans h₅))
        (fun e g₅ h₅ => herror _ g₅ (hlearns₄.trans h₅))

/-- A start whose initial record was saved. -/
structure Initialized (g : Knowledge) (name : String) (generation : ℕ) : Prop where
  locked : g.locked = none
  start : ∃ st, g.start = some st ∧ st.name = name ∧ st.held = true ∧ st.window ≠ none ∧
    st.next ≠ none ∧ st.initialized = some generation ∧ st.spawned = false

/-- A start that saved its initial record may spawn an owner of its run. -/
theorem Initialized.maySpawn {name : String} {n : ℕ} (hg : g.Initialized name n)
    {generation : Option ℕ} (h : ∀ k, generation = some k → k = n) :
    g.MaySpawn name generation := by
  obtain ⟨st, hstart, hname, hheld, -, -, hinit, hspawned⟩ := hg.start
  refine ⟨st, hstart, hheld, hname, by simp [hinit], fun k hk => ?_, hspawned⟩
  rw [hinit, h k hk]

/-- What both start paths do up to the spawn of an owner. -/
theorem meets_beginRun {env : Env} {name cwd cmd : String} {rows cols : Option ℕ}
    {Q : ℕ → Knowledge → Prop} (hvalid : validateSessionName name = .ok ())
    (hlocked : g.locked = none) (hstart : g.start = some { name := name })
    (hok : ∀ n g', g'.Initialized name n → Q n g') (herror : ∀ e g', g'.Holds name → E e g') :
    Meets protocol Q E (beginRun env name cwd cmd rows cols) g := by
  rw [beginRun, meets_bind]
  refine meets_bailIfRunning hvalid hlocked hstart rfl rfl
    (fun loaded g₁ hlocked₁ hstart₁ hcleared => ?_)
    (fun e g₁ window hlocked₁ hstart₁ => herror e g₁ ⟨hlocked₁, _, hstart₁, rfl, rfl⟩)
  refine meets_initializeSessionFiles hvalid hlocked₁ hstart₁ rfl rfl rfl rfl rfl hcleared
    (fun n g₂ hlocked₂ hstart₂ => ?_) herror
  exact hok n g₂ ⟨hlocked₂, _, hstart₂, rfl, rfl, by simp, by simp, rfl, rfl⟩

/-- After the spawn of its owner a start only waits. -/
theorem Initialized.meets_wait {name : String} {n : ℕ} (hg : g.Initialized name n) :
    Meets protocol (fun _ g' => g'.Holds name) (fun _ g' => g'.Holds name)
      (waitForRunningMetadata name)
      { g with start := g.start.map fun st => { st with spawned := true } } := by
  obtain ⟨st, hstart, hname, hheld, hwindow, hnext, -, -⟩ := hg.start
  have hfree : Free { g with start := g.start.map fun st => { st with spawned := true } } := by
    refine ⟨hg.locked, fun st' hst' => ?_⟩
    rw [hstart] at hst'
    cases hst'
    exact ⟨hwindow, hnext⟩
  have hholds : Holds { g with start := g.start.map fun st => { st with spawned := true } } name :=
    ⟨hg.locked, { st with spawned := true }, by rw [hstart]; rfl, hname, hheld⟩
  exact meets_waitForRunningMetadata hfree (by simp [hstart]) (fun _ _ h => h.holds hholds)
    (fun _ _ h => h.holds hholds)

/-- A direct start keeps the protocol. -/
theorem meets_startSessionDetached (env : Env) (name : String) (cwd : Option String) (cmd : String)
    (rows cols : Option ℕ) :
    Meets protocol (fun _ _ => True) (fun _ _ => True)
      (startSessionDetached env name cwd cmd rows cols) {} := by
  rw [startSessionDetached, meets_bind]
  refine meets_sessionDir (fun hvalid => ?_) fun _ _ => trivial
  rw [meets_bind, meets_resolveCwd]
  intro r
  rw [meets_bind]
  refine meets_try (fun cwd _ => ?_) fun _ _ => trivial
  rw [meets_bind, meets_ensureBridgeDir]
  intro r
  rw [meets_bind]
  refine meets_try (fun _ _ => ?_) fun _ _ => trivial
  refine meets_withStartLock rfl rfl rfl ?_
  rw [meets_bind]
  refine meets_beginRun hvalid rfl rfl (fun n g₁ hg₁ => ?_) (fun _ _ => id)
  have hholds : g₁.Holds name := by
    obtain ⟨st, hstart, hname, hheld, -⟩ := hg₁.start
    exact ⟨hg₁.locked, st, hstart, hname, hheld⟩
  rw [meets_bind, meets_attempt]
  intro r
  rw [meets_bind]
  refine meets_ensure (fun _ => ?_) fun _ => hholds
  rw [meets_bind, meets_proc]
  refine ⟨hg₁.maySpawn fun k hk => (by cases hk), fun r _ => ?_⟩
  rw [meets_bind]
  cases r with
  | none => exact meets_orThrow (fun _ h => by cases h) fun _ => hholds
  | some j => exact meets_orThrow (fun _ _ => hg₁.meets_wait) fun h => by cases h

/-- A start in the daemon keeps the protocol. -/
theorem meets_startSessionInDaemon (env : Env) (name : String) (cwd : Option String) (cmd : String)
    (clientPath : Option String) (rows cols : Option ℕ) :
    Meets protocol (fun _ _ => True) (fun _ _ => True)
      (startSessionInDaemon env name cwd cmd clientPath rows cols) {} := by
  rw [startSessionInDaemon, meets_bind]
  refine meets_sessionDir (fun hvalid => ?_) fun _ _ => trivial
  rw [meets_bind, meets_resolveCwd]
  intro r
  rw [meets_bind]
  refine meets_try (fun cwd _ => ?_) fun _ _ => trivial
  rw [meets_bind, meets_ensureBridgeDir]
  intro r
  rw [meets_bind]
  refine meets_try (fun _ _ => ?_) fun _ _ => trivial
  refine meets_withStartLock rfl rfl rfl ?_
  rw [meets_bind]
  refine meets_beginRun hvalid rfl rfl (fun n g₁ hg₁ => ?_) (fun _ _ => id)
  rw [meets_bind, meets_proc]
  exact ⟨hg₁.maySpawn fun k hk => (by cases hk; rfl), fun r _ => hg₁.meets_wait⟩

/-! ## Owning a run -/

/-- A thread that owns a run of generation `n`, in no critical section. -/
structure Owns (g : Knowledge) (name : String) (n : ℕ) (child : Option ℕ) (recorded : Bool) :
    Prop where
  free : g.Free
  owner : g.owner = some ⟨name, some n, child, recorded⟩

/-- A thread that learns still owns its run. -/
theorem Learns.owns {g' : Knowledge} (h : g.Learns g') {name : String} {n : ℕ} {child : Option ℕ}
    {recorded : Bool} (hg : g.Owns name n child recorded) : g'.Owns name n child recorded :=
  ⟨h.free hg.free, h.owner.trans hg.owner⟩

/-- An owner records its child once, or it does not. -/
theorem meets_recordChild {name : String} {n p : ℕ} {command : List String}
    {Q : Unit → Knowledge → Prop} (hg : g.Owns name n (some p) false)
    (hok : ∀ g', g'.Owns name n (some p) true → Q () g')
    (herror : ∀ e g', g'.Owns name n (some p) false → E e g') :
    Meets protocol Q E (recordChild name n p command) g := by
  refine meets_withStatusLock hg.free.locked (fun e => herror e g hg) ?_
  have hunlock : ∀ g', g.Learns g' → ∀ c,
      Owns { ({ g' with locked := c } : Knowledge) with locked := none } name n (some p) false :=
    fun g' h c => (hg.free.learns_unlocked h c).owns hg
  rw [meets_bind]
  refine meets_loadMetadata_locked hg.free (fun m hm => ?_)
    (fun e g' h c => ⟨⟨c, rfl⟩, herror e _ (hunlock g' h _)⟩)
  have hlearns := hg.free.learns_load (some m)
  rw [meets_bind]
  refine meets_try (fun u hlive => ?_) fun e _ => ⟨⟨_, rfl⟩, herror e _ (hunlock _ hlearns _)⟩
  obtain ⟨rfl, hstatus⟩ := checkRunLive_eq_ok hlive
  subst hm
  have hsteady : (g.load (some m)).Steady := by
    unfold Steady
    rw [hlearns.start]
    exact hg.free.steady
  have hrecorded : (g.load (some m)).owner.map (fun o => { o with recorded := true }) =
      some ⟨m.name, some m.generation, some p, true⟩ := by
    rw [hlearns.owner, hg.owner]
    rfl
  rw [meets_bind, meets_proc]
  refine ⟨trivial, fun startTime _ => ?_⟩
  cases startTime with
  | none =>
    have hmine : (g.owner.any fun o => o.child = some p) = true := by simp [hg.owner]
    have hpost : ∀ c, protocol.post (.process (.processStartTime p))
        { g.load (some m) with locked := c } none =
        ({ g.load (some m) with locked := c } : Knowledge).bury p := fun c => if_pos hmine
    rw [hpost]
    refine meets_saveMetadata (c := m) rfl ⟨_, p, none, command, hg.owner, rfl, rfl, rfl, hstatus,
      rfl, fun _ => List.mem_cons_self, fun t ht => by cases ht⟩ ?_ fun e => ⟨⟨_, rfl⟩, ?_⟩
    · exact ⟨⟨none, rfl⟩, hok _ ⟨⟨rfl, hsteady⟩, hrecorded⟩⟩
    · exact herror e _ ⟨⟨rfl, hsteady⟩, hg.owner⟩
  | some t =>
    refine meets_saveMetadata (c := m) rfl ⟨_, p, some t, command, hg.owner, rfl, rfl, rfl,
      hstatus, rfl, (fun h => by cases h), fun t' ht => ?_⟩ ?_ fun e => ⟨⟨_, rfl⟩, ?_⟩
    · cases ht
      exact List.mem_cons_self
    · exact ⟨⟨none, rfl⟩, hok _ ⟨⟨rfl, hsteady⟩, hrecorded⟩⟩
    · exact herror e _ ⟨⟨rfl, hsteady⟩, hg.owner⟩

/-- A run whose child is recorded may be promoted. -/
theorem meets_promote {name : String} {n p : ℕ} {Q : Unit → Knowledge → Prop}
    (hg : g.Owns name n (some p) true) (hok : ∀ g', g.Learns g' → Q () g')
    (herror : ∀ e g', g.Learns g' → E e g') :
    Meets protocol Q E (promote name n) g := by
  refine meets_withStatusLock hg.free.locked (fun e => herror e g (.refl g)) ?_
  rw [meets_bind]
  refine meets_loadMetadata_locked hg.free (fun m hm => ?_)
    (fun e g' h c => ⟨⟨c, rfl⟩, herror e _ (hg.free.learns_unlocked h _)⟩)
  have hlearns := hg.free.learns_load (some m)
  rw [meets_bind]
  refine meets_try (fun u hlive => ?_)
    fun e _ => ⟨⟨_, rfl⟩, herror e _ (hg.free.learns_unlocked hlearns _)⟩
  obtain ⟨rfl, hstatus⟩ := checkRunLive_eq_ok hlive
  subst hm
  refine meets_saveMetadata (c := m) rfl ⟨_, hg.owner, rfl, rfl, rfl, hstatus, rfl⟩ ?_ ?_
  · exact ⟨⟨none, rfl⟩, hok _ (hg.free.learns_unlocked hlearns _)⟩
  · exact fun e => ⟨⟨_, rfl⟩, herror e _ (hg.free.learns_unlocked hlearns _)⟩

/-- Publishing a run needs no more than its promotion. -/
theorem meets_publish {name : String} {n p : ℕ} {Q : Unit → Knowledge → Prop}
    (hg : g.Owns name n (some p) true) (hok : ∀ g', g.Learns g' → Q () g')
    (herror : ∀ e g', g.Learns g' → E e g') :
    Meets protocol Q E (publish name n) g := by
  rw [publish, meets_bind]
  refine meets_promote hg (fun g' h => ?_) herror
  rw [meets_bind, meets_attempt]
  intro r
  rw [meets_bind]
  refine meets_ensure (fun _ => ?_) fun _ => herror _ g' h
  rw [meets_bind, meets_attempt]
  exact fun r => meets_ensure (fun _ => hok g' h) fun _ => herror _ g' h

/-- However the service of a child ends, its exit was waited for. -/
theorem meets_serveChild {name : String} {pty child fifo rows cols : ℕ}
    {Q : String × Option ℕ → Knowledge → Prop} (hok : ∀ x, Q x (g.bury child))
    (herror : ∀ e, E e (g.bury child)) :
    Meets protocol Q E (serveChild name pty child fifo rows cols) g := by
  rw [serveChild, meets_bind, meets_proc]
  refine ⟨trivial, fun output _ => ?_⟩
  rw [meets_bind, meets_proc]
  refine ⟨trivial, fun input _ => ?_⟩
  rw [meets_bind, meets_proc]
  refine ⟨trivial, fun exit_ _ => ?_⟩
  rw [meets_bind]
  refine meets_orThrow (fun x _ => ?_) fun _ => herror _
  rw [meets_bind]
  refine (meets_protocol_file (.storeStop .input pty) trivial _).mpr fun _ => ?_
  rw [meets_bind]
  refine (meets_proc (.join input) _).mpr ⟨trivial, fun _ _ => ?_⟩
  rw [meets_bind]
  refine (meets_proc (.drain output) _).mpr ⟨trivial, fun _ _ => ?_⟩
  rw [meets_bind]
  refine (meets_protocol_file (.storeStop .output pty) trivial _).mpr fun _ => ?_
  rw [meets_bind]
  exact (meets_proc (.join output) _).mpr ⟨trivial, fun _ _ => hok _⟩

/-- A thread whose run has ended: it spawned no child, or its child is gone. -/
def Ended (g : Knowledge) (name : String) (n : ℕ) : Prop :=
  g.Free ∧ ∃ o, g.owner = some o ∧ o.name = name ∧ o.generation = some n ∧
    ∀ p, o.child = some p → p ∈ g.gone

/-- The run of a child that is gone has ended. -/
theorem Owns.ended {name : String} {n p : ℕ} {recorded : Bool}
    (hg : g.Owns name n (some p) recorded) : (g.bury p).Ended name n := by
  refine ⟨(learns_bury g p).free hg.free, _, hg.owner, rfl, rfl, fun q hq => ?_⟩
  cases hq
  exact List.mem_cons_self

/-- A failure leaves the child to be killed and waited for. -/
theorem meets_superviseChild {env : Env} {name : String} {n pty child rows cols : ℕ}
    {command : List String} {Q : String × Option ℕ → Knowledge → Prop}
    (hg : g.Owns name n (some child) false) (hok : ∀ x g', g'.Ended name n → Q x g')
    (herror : ∀ e g' recorded, g'.Owns name n (some child) recorded → E e g') :
    Meets protocol Q E (superviseChild env name n pty child rows cols command) g := by
  rw [superviseChild, meets_bind]
  refine meets_recordChild hg (fun g₁ hg₁ => ?_) fun e g₁ hg₁ => herror e g₁ false hg₁
  rw [meets_bind, meets_protocol_file (.openFifo name) trivial]
  intro fifo
  rw [meets_bind]
  refine meets_orThrow (fun fifo _ => ?_) fun _ => herror _ g₁ true hg₁
  rw [meets_bind, meets_caught]
  refine meets_publish hg₁ (fun g₂ h₂ => ?_) fun e g₂ h₂ => ?_
  · exact meets_serveChild (fun x => hok x _ (h₂.owns hg₁).ended)
      fun e => herror e _ true ((learns_bury g₂ child).owns (h₂.owns hg₁))
  · rw [meets_bind]
    exact (meets_protocol_file (.closeFifo fifo) trivial _).mpr
      fun _ => herror e g₂ true (h₂.owns hg₁)

/-- However an owner's work ends, its run has ended. -/
theorem meets_supervisePty {env : Env} {name cwd cmd : String} {clientPath : Option String}
    {n : ℕ} {Q : String × Option ℕ → Knowledge → Prop} (hg : g.Owns name n none false)
    (hok : ∀ x g', g'.Ended name n → Q x g') (herror : ∀ e g', g'.Ended name n → E e g') :
    Meets protocol Q E (supervisePty env name cwd cmd clientPath n) g := by
  have hended : ∀ g', g.Learns g' → g'.Ended name n := fun g' h =>
    ⟨h.free hg.free, _, h.owner.trans hg.owner, rfl, rfl, fun p hp => by cases hp⟩
  have hspawned : ∀ g', g.Learns g' → ∀ p, Owns { g' with
      owner := g'.owner.map fun o => { o with child := some p } } name n (some p) false := by
    intro g' h p
    refine ⟨⟨h.locked.trans hg.free.locked, (h.free hg.free).steady⟩, ?_⟩
    simp only [h.owner, hg.owner, Option.map_some]
  rw [supervisePty, meets_bind]
  refine meets_try (fun command _ => ?_) fun e _ => herror e g (hended g (.refl g))
  rw [meets_bind]
  refine meets_sessionDir (fun _ => ?_) fun e _ => herror e g (hended g (.refl g))
  rw [meets_bind, meets_caught]
  refine hg.free.meets_loadMetadata (fun m g' h _ _ => ?_) fun e g' h => ?_
  -- What follows is the same for every geometry.
  all_goals
    dsimp only
    rw [meets_bind, meets_proc]
    refine ⟨trivial, fun pty _ => ?_⟩
    rw [meets_bind]
    refine meets_orThrow (fun pty _ => ?_) fun _ => herror _ _ (hended g' h)
    rw [meets_bind, meets_proc]
    refine ⟨⟨_, h.owner.trans hg.owner, by simp, rfl⟩, fun child _ => ?_⟩
    rw [meets_bind]
    cases child with
    | none => exact meets_orThrow (fun _ hc => by cases hc) fun _ => herror _ _ (hended g' h)
    | some p =>
      refine meets_orThrow (fun p' hp => ?_) fun hc => by cases hc
      cases hp
      rw [meets_bind, meets_caught]
      refine meets_superviseChild (hspawned g' h p) hok fun e g₁ recorded hg₁ => ?_
      rw [meets_bind, meets_proc]
      refine ⟨⟨_, hg₁.owner, rfl⟩, fun _ _ => ?_⟩
      rw [meets_bind, meets_proc]
      exact ⟨trivial, fun _ _ => herror e _ hg₁.ended⟩

/-- A run that has ended may be marked by its owner. -/
theorem Ended.meets_markStopped {name : String} {n : ℕ} (hg : g.Ended name n)
    (exitStatus : Option String) (exitCode : Option ℕ) :
    Meets protocol (fun _ _ => True) (fun _ _ => True)
      (markStopped name exitStatus exitCode (some n) .owner) g :=
  Knowledge.meets_markStopped hg.1 hg.2 (fun _ _ => trivial) (fun _ _ _ => trivial)

/-- An owner keeps the protocol. -/
theorem meets_superviseAndMark {env : Env} {name cwd cmd : String} {clientPath : Option String}
    {n : ℕ} (hg : g.Owns name n none false) :
    Meets protocol (fun _ _ => True) (fun _ _ => True)
      (superviseAndMark env name cwd cmd clientPath n) g := by
  rw [superviseAndMark, meets_bind, meets_caught]
  exact meets_supervisePty hg (fun x g' h => h.meets_markStopped _ _)
    fun e g' h => h.meets_markStopped _ _

/-- The supervisor adopts the generation of the record it finds. -/
theorem meets_adoptRun {name : String} {Q : ℕ → Knowledge → Prop} (hg : g.Free)
    (howner : g.owner = some { name := name, generation := none })
    (hok : ∀ n g', g'.Owns name n none false → Q n g') (herror : ∀ e g', E e g') :
    Meets protocol Q E (adoptRun name) g := by
  refine meets_withStatusLock hg.locked (fun e => herror e _) ?_
  rw [meets_bind]
  refine meets_loadMetadata_locked hg (fun m hm => ?_) fun e g' _ c => ⟨⟨c, rfl⟩, herror e _⟩
  have hlearns := hg.learns_load (some m)
  subst hm
  rw [meets_bind, meets_proc]
  refine ⟨trivial, fun pid _ => ?_⟩
  rw [meets_bind, meets_proc]
  refine ⟨trivial, fun startTime _ => ?_⟩
  have hsteady : (g.load (some m)).Steady := by
    unfold Steady
    rw [hlearns.start]
    exact hg.steady
  have hadopted : (g.load (some m)).owner.map (fun o => { o with generation := some m.generation }) =
      some ⟨m.name, some m.generation, none, false⟩ := by
    rw [hlearns.owner, howner]
    rfl
  rw [meets_bind]
  cases startTime with
  | none =>
    have hnotMine : ¬(g.owner.any fun o => o.child = some pid) = true := by simp [howner]
    have hpost : protocol.post (.process (.processStartTime pid))
        (protocol.post (.process .processId)
          { g.load (some m) with locked := some (m.name, some m) } pid) none =
        { g.load (some m) with locked := some (m.name, some m) } := if_neg hnotMine
    rw [hpost]
    refine meets_saveMetadata (c := m) rfl ⟨_, pid, none, howner, rfl, rfl, rfl⟩ ?_
      fun e => ⟨⟨_, rfl⟩, herror e _⟩
    exact ⟨⟨none, rfl⟩, hok _ _ ⟨⟨rfl, hsteady⟩, hadopted⟩⟩
  | some t =>
    refine meets_saveMetadata (c := m) rfl ⟨_, pid, some t, howner, rfl, rfl, rfl⟩ ?_
      fun e => ⟨⟨_, rfl⟩, herror e _⟩
    exact ⟨⟨none, rfl⟩, hok _ _ ⟨⟨rfl, hsteady⟩, hadopted⟩⟩

/-- A supervisor keeps the protocol. -/
theorem meets_runSupervisor (env : Env) (name cwd cmd : String) :
    Meets protocol (fun _ _ => True) (fun _ _ => True) (runSupervisor env name cwd cmd)
      { owner := some { name := name, generation := none } } := by
  rw [runSupervisor, meets_bind]
  refine meets_sessionDir (fun _ => ?_) fun _ _ => trivial
  rw [meets_bind]
  exact meets_adoptRun ⟨rfl, fun st h => by cases h⟩ rfl (fun n g' h => meets_superviseAndMark h)
    fun _ _ => trivial

/-! ## Stopping -/

/-- `stop_session_silent` signals the child its snapshot names before it marks
the snapshot's run Stopped. -/
theorem meets_stopSessionSilent {name : String} {Q : Unit → Knowledge → Prop} (hg : g.Free)
    (howner : g.owner = none) (hok : ∀ g', g.Learns g' → Q () g')
    (herror : ∀ e g', g.Learns g' → E e g') :
    Meets protocol Q E (stopSessionSilent name) g := by
  rw [stopSessionSilent, meets_bind]
  refine meets_sessionDir (fun _ => ?_) fun e _ => herror e g (.refl g)
  rw [meets_bind]
  refine hg.meets_loadMetadata (fun m g₁ h₁ hname hknown => ?_) herror
  split
  · exact hok g₁ h₁
  · rw [meets_bind]
    refine meets_signalRecorded fun childErrors g₂ h₂ hgone => ?_
    rw [meets_bind]
    refine meets_signalRecorded fun supervisorErrors g₃ h₃ _ => ?_
    have hlearns := h₁.trans (h₂.trans h₃)
    split
    · next hnone =>
      have hchild : childErrors = [] := (List.append_eq_nil_iff.mp hnone).1
      have hstop : g₃.MayStop name m.generation (.stop m) :=
        ⟨hlearns.owner.trans howner, h₃.known m (h₂.known m hknown), hname, rfl,
          h₃.childGone (hgone hchild m hknown rfl rfl)⟩
      exact meets_markStopped (hlearns.free hg) hstop (fun g₄ h₄ => hok g₄ (hlearns.trans h₄))
        fun e g₄ h₄ => herror e g₄ (hlearns.trans h₄)
    · exact herror _ g₃ hlearns

/-- A shutdown's look at the sessions teaches it records. -/
theorem meets_activeSessions {names : List String} {Q : List String → Knowledge → Prop}
    (hg : g.Free) (hok : ∀ r g', g.Learns g' → Q r g') :
    Meets protocol Q E (activeSessions names) g := by
  induction names generalizing g Q with
  | nil => exact hok [] g (.refl g)
  | cons name names ih =>
    rw [activeSessions, meets_bind, meets_caught]
    refine hg.meets_loadMetadata (fun m g' h _ _ => ?_) fun e g' h => ?_
    · rw [meets_bind]
      refine ih (h.free hg) fun sessions g'' h' => ?_
      dsimp only
      split
      · exact hok _ g'' (h.trans h')
      · exact hok _ g'' (h.trans h')
    · rw [meets_bind]
      exact ih (h.free hg) fun sessions g'' h' => hok sessions g'' (h.trans h')

/-- The stops of a shutdown teach it records. -/
theorem meets_stopAll {names : List String} {Q : List String → Knowledge → Prop} (hg : g.Free)
    (howner : g.owner = none) (hok : ∀ r g', g.Learns g' → Q r g') :
    Meets protocol Q E (stopAll names) g := by
  induction names generalizing g Q with
  | nil => exact hok [] g (.refl g)
  | cons name names ih =>
    rw [stopAll, meets_bind, meets_caught]
    refine meets_stopSessionSilent hg howner (fun g' h => ?_) fun e g' h => ?_
    all_goals
      rw [meets_bind]
      exact ih (h.free hg) (h.owner.trans howner) fun errors g'' h' => hok _ g'' (h.trans h')

/-- A shutdown keeps the protocol. -/
theorem meets_shutdownSessionsForDaemon (env : Env) (hg : g.Free) (howner : g.owner = none) :
    Meets protocol (fun _ _ => True) (fun _ _ => True) (shutdownSessionsForDaemon env) g := by
  rw [shutdownSessionsForDaemon, meets_bind, meets_disk]
  refine ⟨trivial, fun entries _ => ?_⟩
  cases entries with
  | error e => exact trivial
  | ok entries =>
    dsimp only
    rw [meets_bind]
    refine meets_activeSessions hg fun sessions g' h => ?_
    rw [meets_bind]
    refine meets_stopAll (h.free hg) (h.owner.trans howner) fun errors g'' _ => ?_
    split
    · exact trivial
    · exact trivial

/-! ## Input -/

/-- Writing to a FIFO teaches nothing. -/
theorem meets_writeAll {fifo n : ℕ} {bytes : List UInt8} {Q : Unit → Knowledge → Prop}
    (hok : Q () g) (herror : ∀ e, E e g) : Meets protocol Q E (writeAll fifo n bytes) g := by
  induction n generalizing bytes with
  | zero =>
    cases bytes with
    | nil => exact hok
    | cons byte bytes => exact herror _
  | succ n ih =>
    cases bytes with
    | nil => exact hok
    | cons byte bytes =>
      rw [writeAll, meets_bind, meets_protocol_file (.writeFifo fifo (byte :: bytes)) trivial]
      intro r
      match r with
      | none => exact herror _
      | some 0 => exact herror _
      | some (count + 1) => exact ih

/-- A delivery loads one record. -/
theorem meets_writeSessionBytes {name : String} {bytes : List UInt8} {Q : Unit → Knowledge → Prop}
    (hg : g.Free) (hok : ∀ g', g.Learns g' → Q () g') (herror : ∀ e g', g.Learns g' → E e g') :
    Meets protocol Q E (writeSessionBytes name bytes) g := by
  rw [writeSessionBytes, meets_bind]
  refine meets_sessionDir (fun _ => ?_) fun e _ => herror e g (.refl g)
  rw [meets_bind]
  refine hg.meets_loadMetadata (fun m g₁ h₁ _ _ => ?_) herror
  split
  · exact herror _ g₁ h₁
  · rw [meets_bind, meets_protocol_file (.openFifoWriter name) trivial]
    intro r
    cases r with
    | noReader => exact herror _ g₁ h₁
    | failed => exact herror _ g₁ h₁
    | opened fifo =>
      dsimp only
      rw [meets_bind, meets_attempt]
      intro r
      rw [meets_bind]
      refine meets_ensure (fun _ => ?_) fun _ => herror _ g₁ h₁
      exact meets_writeAll (hok g₁ h₁) fun e => herror e g₁ h₁

/-! ## Threads -/

/-- A send keeps the protocol. -/
theorem meets_sendInputSilent {name : String} {text : List UInt8} {noEnter : Bool} (hg : g.Free) :
    Meets protocol (fun _ _ => True) (fun _ _ => True) (sendInputSilent name text noEnter) g := by
  rw [sendInputSilent, meets_bind]
  refine meets_writeSessionBytes hg (fun g' h => ?_) fun _ _ _ => trivial
  split
  · exact trivial
  · exact meets_writeSessionBytes (h.free hg) (fun _ _ => trivial) fun _ _ _ => trivial

/-- A keys call keeps the protocol. -/
theorem meets_sendKeysSilent {name : String} {keys : List String} (hg : g.Free) :
    Meets protocol (fun _ _ => True) (fun _ _ => True) (sendKeysSilent name keys) g := by
  rw [sendKeysSilent]
  split
  · exact trivial
  · rw [meets_bind]
    exact meets_try (fun bytes _ => meets_writeSessionBytes hg (fun _ _ => trivial)
      fun _ _ _ => trivial) fun _ _ => trivial

/-- No obligation is left at the end of a thread's program. -/
abbrev Finished : ThreadResult → Knowledge → Prop := fun _ _ => True

/-- The end of a thread asks nothing. -/
theorem follows_leave (result : ThreadResult) : (leave result).Follows protocol Finished g :=
  ⟨trivial, fun _ _ => trivial⟩

/-- What follows a function that keeps the protocol may rely on nothing. -/
theorem follows_of_meets {p : Result α} {next : Except String α → Prog ThreadResult}
    (hp : Meets protocol (fun _ _ => True) (fun _ _ => True) p g)
    (hnext : ∀ r g', (next r).Follows protocol Finished g') :
    (p.run >>= next).Follows protocol Finished g := by
  rw [follows_bind, follows_run]
  exact Meets.mono hp (fun x g' _ => hnext (.ok x) g') fun e g' _ => hnext (.error e) g'

/-- A function that keeps the protocol is replied to. -/
theorem follows_reply {p : Result α}
    (hp : Meets protocol (fun _ _ => True) (fun _ _ => True) p g) :
    (reply p).Follows protocol Finished g :=
  follows_of_meets hp fun _ _ => follows_leave _

/-- A thread that knows nothing is free. -/
theorem free_empty : ({} : Knowledge).Free := ⟨rfl, fun st h => by cases h⟩

/-- Every request is served by the protocol. -/
theorem follows_program (env : Env) (request : Request) :
    (request.program env).Follows protocol Finished {} := by
  unfold Request.program
  cases request.command with
  | start name cwd cmd path rows cols =>
    dsimp only
    split
    · exact follows_reply (meets_startSessionInDaemon env name cwd cmd path rows cols)
    · exact follows_reply (meets_startSessionDetached env name cwd cmd rows cols)
  | send name text noEnter => exact follows_reply (meets_sendInputSilent free_empty)
  | keys name keys => exact follows_reply (meets_sendKeysSilent free_empty)
  | stop name =>
    exact follows_reply
      (meets_stopSessionSilent free_empty rfl (fun _ _ => trivial) fun _ _ _ => trivial)
  | shutdown =>
    dsimp only
    split
    · refine ⟨trivial, fun answered _ => ?_⟩
      cases answered with
      | true =>
        exact follows_of_meets (meets_shutdownSessionsForDaemon env free_empty rfl)
          fun _ _ => ⟨trivial, fun _ _ => trivial⟩
      | false => exact follows_leave _
    · exact follows_leave _

/-- A capture thread opens its logs by the protocol. -/
theorem follows_captureOutput (name : String) (pty rows cols : ℕ) :
    (captureOutput name pty rows cols).Follows protocol Finished g := by
  refine ⟨trivial, fun rawLog _ => ?_⟩
  cases rawLog with
  | none => exact follows_leave _
  | some rawLog =>
    refine ⟨trivial, fun cleanLog _ => ?_⟩
    cases cleanLog with
    | none => exact follows_leave _
    | some cleanLog => exact trivial

/-- Each iteration of it keeps the protocol. -/
theorem follows_captureStep (env : Env) (state : CaptureState) :
    (captureStep env state).Follows protocol Finished g := by
  refine ⟨trivial, fun stop _ => ?_⟩
  cases stop with
  | true => exact follows_leave _
  | false =>
    refine ⟨trivial, fun poll _ => ?_⟩
    cases poll with
    | failed => exact follows_leave _
    | idle => exact trivial
    | ready =>
      refine ⟨trivial, fun chunk _ => ?_⟩
      match chunk with
      | none => exact follows_leave _
      | some [] => exact follows_leave _
      | some (byte :: bytes) =>
        refine ⟨trivial, fun raw _ => ?_⟩
        refine ⟨trivial, fun clean _ => ?_⟩
        exact ⟨trivial, fun screen _ => trivial⟩

/-- Each iteration of a forwarder keeps the protocol. -/
theorem follows_forwardStep (env : Env) (fifo pty : ℕ) :
    (forwardStep env fifo pty).Follows protocol Finished g := by
  have hleave : ∀ {g}, (leaveForward env fifo pty).Follows protocol Finished g :=
    ⟨trivial, fun _ _ => ⟨trivial, fun _ _ => follows_leave _⟩⟩
  refine ⟨trivial, fun stop _ => ?_⟩
  cases stop with
  | true => exact hleave
  | false =>
    refine ⟨trivial, fun bytes _ => ?_⟩
    match bytes with
    | none => exact hleave
    | some [] => exact trivial
    | some (byte :: bytes) =>
      refine ⟨trivial, fun written _ => ?_⟩
      cases written with
      | true => exact trivial
      | false => exact hleave

/-- The program of a thread that an action starts follows the protocol. -/
theorem follows_launched {env : Env} {a : Act} {r : a.Response} {j : ℕ} {p : Prog ThreadResult}
    (h : launched env a r = some (j, p)) : p.Follows protocol Finished (fresh a g r) := by
  cases a with
  | disk a => cases h
  | file a => cases h
  | process a =>
    cases a
    case spawnSupervisor name cwd cmd =>
      cases r with
      | none => cases h
      | some _ =>
        cases h
        exact follows_of_meets (meets_runSupervisor env name cwd cmd)
          fun _ _ => ⟨trivial, fun _ _ => trivial⟩
    case spawnOwner name cwd cmd clientPath n =>
      cases h
      exact follows_of_meets (meets_superviseAndMark ⟨⟨rfl, fun st h => by cases h⟩, rfl⟩)
        fun _ _ => follows_leave _
    case spawnCapture name pty rows cols =>
      cases h
      exact follows_captureOutput name pty rows cols
    case spawnForward fifo pty =>
      cases h
      exact trivial
    all_goals cases h

/-- Every program of the bridge follows the protocol. -/
theorem protocol_covers (env : Env) : Covers (bridge env) protocol Finished fresh where
  launched h _ _ := follows_launched h
  again := by
    intro x g p _ hagain
    cases x with
    | finished => cases hagain
    | replied r => cases hagain
    | capturing state =>
      cases hagain
      exact follows_captureStep env state
    | forwarding fifo pty =>
      cases hagain
      exact follows_forwardStep env fifo pty

/-- Every thread of a machine that just booted follows the protocol. -/
theorem follows_boot (env : Env) (requests : ℕ → Option Request) (i : ℕ) :
    ((boot env requests).thread i).Follows protocol Finished {} := by
  unfold boot
  dsimp only
  cases requests i with
  | none => exact trivial
  | some request => exact follows_program env request

end IgnibyteBridge.Knowledge
