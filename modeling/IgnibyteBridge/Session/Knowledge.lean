import IgnibyteBridge.Session.Programs

/-!
# What a thread knows

The discipline of the session protocol: which locks a thread must hold and what
it must have read before it saves a record or spawns an owner, and what it
learns from each response. Every invariant of the protocol is about the world
and these ghost states.
-/

namespace IgnibyteBridge

open Concurrency

/-- The progress of a start. -/
structure StartGhost where
  name : String
  /-- It holds `start.lock`. -/
  held : Bool := true
  /-- What its check that the name is not in use loaded. -/
  window : Option (Option SessionMetadata) := none
  /-- The generation of its run. -/
  next : Option ℕ := none
  /-- The generation of the initial record it saved. -/
  initialized : Option ℕ := none
  spawned : Bool := false

/-- The progress of a run's owner. -/
structure OwnerGhost where
  name : String
  generation : Option ℕ
  child : Option ℕ := none
  /-- It has recorded its child. -/
  recorded : Bool := false

/-- What a thread knows. -/
structure Knowledge where
  /-- The session whose `status.lock` it holds, and the record it loaded since. -/
  locked : Option (String × Option SessionMetadata) := none
  start : Option StartGhost := none
  owner : Option OwnerGhost := none
  /-- The records it has loaded. -/
  known : List SessionMetadata := []
  /-- PIDs of dead processes. -/
  gone : List ℕ := []
  /-- PIDs with their start times. -/
  identities : List (ℕ × ℕ) := []

/-- A start's progress when it loads a record. -/
def StartGhost.load (st : StartGhost) (loaded : Option SessionMetadata) : StartGhost :=
  if st.window = none then { st with window := some loaded }
  else if st.next = none then { st with next := some (nextGeneration loaded) }
  else st

namespace Knowledge

/-- A record names no child but dead ones. -/
def ChildGone (g : Knowledge) (m : SessionMetadata) : Prop := ∀ p, m.childPid = some p → p ∈ g.gone

/-- The check of a start found no session in use. -/
def Cleared (g : Knowledge) (loaded : Option SessionMetadata) : Prop :=
  ∀ m, loaded = some m → m.status = .running → g.ChildGone m

/-- What must be known to mark a run Stopped, for each caller of `mark_stopped`. -/
def MayStop (g : Knowledge) (name : String) (generation : ℕ) : Stopper → Prop
  | .owner => ∃ o, g.owner = some o ∧ o.name = name ∧ o.generation = some generation ∧
      ∀ p, o.child = some p → p ∈ g.gone
  | .stop m => g.owner = none ∧ m ∈ g.known ∧ m.name = name ∧ m.generation = generation ∧
      g.ChildGone m
  | .timeout m terminated => g.start ≠ none ∧ m ∈ g.known ∧ m.name = name ∧
      m.generation = generation ∧ (terminated = true → g.ChildGone m)

/-- What must be known to save a record that replaces the loaded record `c`. -/
def MayReplace (g : Knowledge) (c m : SessionMetadata) : Site → Prop
  | .initial => False
  | .supervisor => ∃ o pid startTime, g.owner = some o ∧ o.name = c.name ∧ o.generation = none ∧
      m = c.withSupervisor pid startTime
  | .child => ∃ o pid startTime command, g.owner = some o ∧ o.name = c.name ∧
      o.generation = some c.generation ∧ o.child = some pid ∧ c.status ≠ .stopped ∧
      m = c.withChild pid startTime command ∧ (startTime = none → pid ∈ g.gone) ∧
      ∀ t, startTime = some t → (pid, t) ∈ g.identities
  | .promote => ∃ o, g.owner = some o ∧ o.name = c.name ∧ o.generation = some c.generation ∧
      o.recorded = true ∧ c.status ≠ .stopped ∧ m = c.promoted
  | .stopped by_ => c.status ≠ .stopped ∧ g.MayStop c.name c.generation by_ ∧
      ∃ exitStatus exitCode, m = c.markedStopped exitStatus exitCode

/-- A record that replaces another one keeps its name, its generation and its run. -/
theorem MayReplace.keeps {g : Knowledge} {c m : SessionMetadata} {site : Site}
    (h : g.MayReplace c m site) : m.name = c.name ∧ site ≠ .initial ∧ m.generation = c.generation ∧
      m.origin = c.origin := by
  cases site with
  | initial => exact h.elim
  | supervisor =>
    obtain ⟨o, pid, t, -, -, -, rfl⟩ := h
    exact ⟨rfl, by simp, rfl, rfl⟩
  | child =>
    obtain ⟨o, pid, t, command, -, -, -, -, -, rfl, -⟩ := h
    exact ⟨rfl, by simp, rfl, rfl⟩
  | promote =>
    obtain ⟨o, -, -, -, -, -, rfl⟩ := h
    exact ⟨rfl, by simp, rfl, rfl⟩
  | stopped by_ =>
    obtain ⟨-, -, es, ec, rfl⟩ := h
    exact ⟨rfl, by simp, rfl, rfl⟩

/-- A record that replaces another one has its status, or is promoted or Stopped. -/
theorem MayReplace.status {g : Knowledge} {c m : SessionMetadata} {site : Site}
    (h : g.MayReplace c m site) : m.status = c.status ∨
      (site = .promote ∧ c.status ≠ .stopped ∧ m.status = .running) ∨ m.status = .stopped := by
  cases site with
  | initial => exact h.elim
  | supervisor =>
    obtain ⟨o, pid, t, -, -, -, rfl⟩ := h
    exact .inl rfl
  | child =>
    obtain ⟨o, pid, t, command, -, -, -, -, -, rfl, -⟩ := h
    exact .inl rfl
  | promote =>
    obtain ⟨o, -, -, -, -, hstatus, rfl⟩ := h
    exact .inr (.inl ⟨rfl, hstatus, rfl⟩)
  | stopped by_ =>
    obtain ⟨-, -, es, ec, rfl⟩ := h
    exact .inr (.inr rfl)

/-- What must be known to replace the files of a session. -/
def MayReset (g : Knowledge) (name : String) : Prop :=
  ∃ st loaded, g.start = some st ∧ st.held = true ∧ st.name = name ∧ st.window = some loaded ∧
    st.initialized = none ∧ g.Cleared loaded

/-- What must be known to save an initial record. -/
def MayInitialize (g : Knowledge) (m : SessionMetadata) : Prop :=
  ∃ st loaded, g.start = some st ∧ st.held = true ∧ st.name = m.name ∧ st.window = some loaded ∧
    st.next = some m.generation ∧ st.initialized = none ∧ g.Cleared loaded ∧
    m.status = .starting ∧ m.childPid = none

/-- What must be known to spawn the owner of an initialized run. -/
def MaySpawn (g : Knowledge) (name : String) (generation : Option ℕ) : Prop :=
  ∃ st, g.start = some st ∧ st.held = true ∧ st.name = name ∧ st.initialized ≠ none ∧
    (∀ n, generation = some n → st.initialized = some n) ∧ st.spawned = false

/-- The obligation before an action. -/
def pre : Act → Knowledge → Prop
  | .disk (.acquireStartLock _), g => g.locked = none ∧ g.start = none ∧ g.owner = none
  | .disk (.dropStartLock name), g => ∃ st, g.start = some st ∧ st.name = name ∧ st.held = true
  | .disk (.acquireStatusLock _), g => g.locked = none
  | .disk (.dropStatusLock name), g => ∃ c, g.locked = some (name, c)
  | .disk (.loadMetadata name), g =>
    (∀ n c, g.locked = some (n, c) → n = name ∧ c = none) ∧
      ∀ st, g.start = some st → st.window = none ∨ st.next = none → st.name = name
  | .disk (.saveMetadata site m), g =>
    (site = .initial ∧ g.locked = none ∧ g.MayInitialize m) ∨
      ∃ c, g.locked = some (c.name, some c) ∧ g.MayReplace c m site
  | .process (.spawnSupervisor name _ _), g => g.MaySpawn name none
  | .process (.spawnOwner name _ _ _ generation), g => g.MaySpawn name (some generation)
  | .process (.spawnCommand ..), g => ∃ o, g.owner = some o ∧ o.generation ≠ none ∧ o.child = none
  | .process (.childKill p), g => ∃ o, g.owner = some o ∧ o.child = some p
  | .file (.removeFifo name), g => g.MayReset name
  | .file (.mkfifo name), g => g.MayReset name
  | .file (.renameLog _ name), g => g.MayReset name
  | .file (.createPrivateLog _ name), g => g.MayReset name
  | .file (.createScreen name), g => g.MayReset name
  | _, _ => True

/-- What may be relied on about a response. -/
def fact : (a : Act) → Knowledge → a.Response → Prop
  | .disk (.loadMetadata name), _, .ok m => m.name = name
  | _, _, _ => True

/-- What a thread knows after it loaded a record, or failed to. -/
def load (g : Knowledge) (loaded : Option SessionMetadata) : Knowledge :=
  { g with
    locked := g.locked.map fun s => (s.1, loaded)
    start := g.start.map fun st => st.load loaded
    known := loaded.toList ++ g.known }

/-- What a thread knows after it saved a record. -/
def save (g : Knowledge) (site : Site) (m : SessionMetadata) : Knowledge :=
  match site with
  | .initial => { g with start := g.start.map fun st => { st with initialized := some m.generation } }
  | .supervisor =>
    { g with
      locked := some (m.name, none)
      owner := g.owner.map fun o => { o with generation := some m.generation } }
  | .child =>
    { g with
      locked := some (m.name, none)
      owner := g.owner.map fun o => { o with recorded := true } }
  | _ => { g with locked := some (m.name, none) }

/-- A child that a loaded record names. -/
def names (g : Knowledge) (p : ℕ) : Bool := g.known.any fun m => m.childPid = some p

/-- A child that a loaded record identifies. -/
def identifies (g : Knowledge) (p : ℕ) (startTime : Option ℕ) : Bool :=
  g.known.any fun m => m.childPid = some p && m.childStartTime = startTime

/-- One more PID of a dead process. -/
def bury (g : Knowledge) (p : ℕ) : Knowledge := { g with gone := p :: g.gone }

/-- What a thread knows after an action. -/
def post : (a : Act) → Knowledge → a.Response → Knowledge
  | .disk (.acquireStartLock name), g, .held => { g with start := some { name := name } }
  | .disk (.dropStartLock _), g, _ =>
    { g with start := g.start.map fun st => { st with held := false } }
  | .disk (.acquireStatusLock name), g, .held => { g with locked := some (name, none) }
  | .disk (.dropStatusLock _), g, _ => { g with locked := none }
  | .disk (.loadMetadata _), g, r => g.load r.toOption
  | .disk (.saveMetadata site m), g, .ok _ => g.save site m
  | .process (.processStartTime p), g, some t => { g with identities := (p, t) :: g.identities }
  | .process (.processStartTime p), g, none =>
    if g.owner.any fun o => o.child = some p then g.bury p else g
  | .process (.pidIsOurs (some p) startTime), g, false =>
    if g.identifies p startTime then g.bury p else g
  | .process (.terminatePid p), g, .ok _ => if g.names p then g.bury p else g
  | .process (.childWait p), g, _ => g.bury p
  | .process (.spawnSupervisor ..), g, some _ =>
    { g with start := g.start.map fun st => { st with spawned := true } }
  | .process (.spawnOwner ..), g, _ =>
    { g with start := g.start.map fun st => { st with spawned := true } }
  | .process (.spawnCommand ..), g, some p =>
    { g with owner := g.owner.map fun o => { o with child := some p } }
  | _, g, _ => g

/-- What a thread knows when another thread starts it. -/
def fresh : (a : Act) → Knowledge → a.Response → Knowledge
  | .process (.spawnSupervisor name _ _), _, _ =>
    { owner := some { name := name, generation := none } }
  | .process (.spawnOwner name _ _ _ generation), _, _ =>
    { owner := some { name := name, generation := some generation } }
  | _, _, _ => {}

/-- Only a start that found its name free replaces the files of a session. -/
theorem mayReset_of_resets {a : Act} {g : Knowledge} {name : String} (hpre : pre a g)
    (h : a.resets = some name) : g.MayReset name := by
  unfold Act.resets at h
  split at h <;> cases h <;> exact hpre

/-- The discipline of the session protocol. -/
def protocol : Discipline Act Act.Response Knowledge where
  pre := pre
  fact := fact
  post := post

end Knowledge

end IgnibyteBridge
