import IgnibyteBridge.Session.Sections

/-!
# One owner for each run

A start saves at most one initial record and spawns at most one owner, so the
start identifies the run and its owner.
-/

namespace IgnibyteBridge

open Concurrency

/-- The parts of an owner's progress that the world records too. -/
def OwnerGhost.view (o : OwnerGhost) : String × Option ℕ × Option ℕ :=
  (o.name, o.generation, o.child)

/-- The parts of an ownership that its thread knows. -/
def Ownership.view (o : Ownership) : String × Option ℕ × Option ℕ :=
  (o.name, o.generation, o.child)

/-- Two stages of a start between which it neither saved a record nor spawned an owner. -/
structure StartGhost.Agrees (st st' : StartGhost) : Prop where
  name : st'.name = st.name
  initialized : st'.initialized = st.initialized
  spawned : st'.spawned = st.spawned

/-- A start's notes agree with themselves. -/
theorem StartGhost.Agrees.refl (st : StartGhost) : st.Agrees st := ⟨rfl, rfl, rfl⟩

/-- Noting what a load answered leaves the name, the lock and the number as they were. -/
theorem StartGhost.agrees_load (st : StartGhost) (loaded : Option SessionMetadata) :
    st.Agrees (st.load loaded) := by
  unfold load
  split
  · exact ⟨rfl, rfl, rfl⟩
  · split <;> exact ⟨rfl, rfl, rfl⟩

namespace World

/-- What an action does to the start of its thread, to the initial records that
were saved and to who owns runs. -/
inductive StartMove (w : World) (i : ℕ) (g : Knowledge) (w' : World) (g' : Knowledge) : Prop
  | keep
    (start : ∀ st, g.start = some st → ∃ st', g'.start = some st' ∧ st.Agrees st')
    (begun : ∀ st', g.start = none → g'.start = some st' →
      g.owner = none ∧ st'.initialized = none ∧ st'.window = none)
    (inits : w'.inits = w.inits)
    (owners : ∀ k, (w'.owner k).map (fun o => (o.name, o.start)) =
      (w.owner k).map fun o => (o.name, o.start))
  | enroll (st : StartGhost) (n : ℕ)
    (before : g.start = some st) (uninitialized : st.initialized = none)
    (after : g'.start = some { st with initialized := some n })
    (inits : w'.inits = Function.update w.inits st.name (w.inits st.name ++ [i]))
    (owners : w'.owner = w.owner)
  | spawn (st : StartGhost) (k : ℕ) (generation : Option ℕ)
    (before : g.start = some st) (initialized : st.initialized ≠ none)
    (known : ∀ n, generation = some n → st.initialized = some n)
    (unspawned : st.spawned = false)
    (after : g'.start = some { st with spawned := true })
    (inits : w'.inits = w.inits)
    (unborn : w.life k = .unborn) (born : w'.life k ≠ .unborn)
    (owners : w'.owner = Function.update w.owner k (some ⟨st.name, i, generation, none, false⟩))

/-- The owners' sessions and starts survive what one owner learns. -/
theorem owners_map {w : World} {i : ℕ} {f : Ownership → Ownership}
    (hf : ∀ o, (f o).name = o.name ∧ (f o).start = o.start) (k : ℕ) :
    (Function.update w.owner i ((w.owner i).map f) k).map (fun o => (o.name, o.start)) =
      (w.owner k).map fun o => (o.name, o.start) := by
  by_cases hk : k = i
  · subst hk
    rw [Function.update_self, Option.map_map]
    congr 1
    funext o
    simp [hf o]
  · rw [Function.update_of_ne hk]

/-- Learning about processes changes no start. -/
theorem StartMove.of_start {w w' : World} {i : ℕ} {g g' : Knowledge} (hstart : g'.start = g.start)
    (hinits : w'.inits = w.inits)
    (howners : ∀ k, (w'.owner k).map (fun o => (o.name, o.start)) =
      (w.owner k).map fun o => (o.name, o.start)) : StartMove w i g w' g' := by
  refine .keep (fun st hst => ⟨st, hstart.trans hst, .refl st⟩) (fun st' hnone hst' => ?_)
    hinits howners
  rw [hstart, hnone] at hst'
  cases hst'

/-- What an action on the disk can do to the start that performs it. -/
theorem disk_startMove {w w' : World} {i : ℕ} {a : DiskAct} {c : Choice} {g : Knowledge}
    {r : a.Response} (hpre : Knowledge.pre (.disk a) g)
    (h : performDisk i a c w = some (r, w')) :
    StartMove w i g w' (Knowledge.post (.disk a) g r) := by
  cases a with
  | ensureBridgeDir name =>
    simp only [performDisk] at h
    split at h <;> cases h <;> exact .of_start rfl rfl fun _ => rfl
  | readSessions =>
    simp only [performDisk] at h
    split at h <;> cases h <;> exact .of_start rfl rfl fun _ => rfl
  | acquireStartLock name =>
    obtain ⟨-, hnone, howner⟩ := hpre
    rcases performDisk_acquireStart h with ⟨rfl, -, rfl⟩ | ⟨hr, rfl⟩
    · refine .keep (fun st hst => ?_) (fun st' _ hst' => ?_) rfl fun _ => rfl
      · rw [hnone] at hst
        cases hst
      · cases hst'
        exact ⟨howner, rfl, rfl⟩
    · cases r with
      | held => exact absurd rfl hr
      | _ => exact .of_start rfl rfl fun _ => rfl
  | acquireStatusLock name =>
    rcases performDisk_acquireStatus h with ⟨rfl, -, rfl⟩ | ⟨hr, rfl⟩
    · exact .of_start rfl rfl fun _ => rfl
    · cases r with
      | held => exact absurd rfl hr
      | _ => exact .of_start rfl rfl fun _ => rfl
  | dropStartLock name =>
    cases h
    obtain ⟨st, hst, -, -⟩ := hpre
    have hafter : (Knowledge.post (.disk (.dropStartLock name)) g ()).start =
        some { st with held := false } := by
      change g.start.map _ = _
      rw [hst]
      rfl
    refine .keep (fun st' hst' => ?_) (fun st' hnone _ => ?_) rfl fun _ => rfl
    · rw [hst] at hst'
      cases hst'
      exact ⟨_, hafter, rfl, rfl, rfl⟩
    · rw [hst] at hnone
      cases hnone
  | dropStatusLock name =>
    cases h
    exact .of_start rfl rfl fun _ => rfl
  | loadMetadata name =>
    obtain ⟨rfl, -⟩ := performDisk_load h
    refine .keep (fun st hst => ⟨st.load r.toOption, ?_, st.agrees_load _⟩) (fun st' hnone hst' => ?_)
      rfl fun _ => rfl
    · change g.start.map _ = _
      rw [hst]
      rfl
    · change g.start.map _ = _ at hst'
      rw [hnone] at hst'
      cases hst'
  | saveMetadata site m =>
    rcases performDisk_save h with ⟨u, rfl, rfl⟩ | ⟨e, rfl, rfl⟩
    · rcases hpre with ⟨rfl, -, st, x, hst, -, hname, -, -, hinit, -⟩ | ⟨c', -, hreplace⟩
      · refine .enroll st m.generation hst hinit ?_ ?_ rfl
        · change g.start.map _ = _
          rw [hst]
          rfl
        · rw [hname]
          rfl
      · obtain ⟨-, hsite, -, -⟩ := hreplace.keeps
        refine .of_start ?_ ?_ ?_
        · cases site
          case initial => exact absurd rfl hsite
          all_goals rfl
        · cases site
          case initial => exact absurd rfl hsite
          all_goals rfl
        · cases site
          case supervisor => exact owners_map fun _ => ⟨rfl, rfl⟩
          case promote => exact owners_map fun _ => ⟨rfl, rfl⟩
          all_goals exact fun _ => rfl
    · exact .of_start rfl rfl fun _ => rfl

/-- A thread that was just spawned has been born. -/
theorem spawnThread_ne_unborn (w : World) (k : ℕ) (host : Host) :
    w.spawnThread k host k ≠ .unborn := by
  rw [spawnThread, Function.update_self]
  simp

/-- What an action on the processes can do to the start that performs it. -/
theorem process_startMove {w w' : World} {i : ℕ} {a : ProcessAct} {c : Choice} {g : Knowledge}
    {r : a.Response} (hpre : Knowledge.pre (.process a) g)
    (h : performProcess i a c w = some (r, w')) :
    StartMove w i g w' (Knowledge.post (.process a) g r) := by
  have hbury : ∀ (p : ℕ) (b : Bool), (if b then g.bury p else g).start = g.start := by
    intro p b
    cases b <;> rfl
  cases a
  case spawnSupervisor name cwd cmd =>
    obtain ⟨st, hst, -, rfl, hinit, -, hspawned⟩ := hpre
    simp only [performProcess] at h
    split at h
    · split at h <;> cases h
      next hfresh =>
      refine .spawn st c.thread none hst hinit (fun n hn => by cases hn) hspawned ?_ rfl hfresh.1
        (spawnThread_ne_unborn _ _ _) rfl
      change g.start.map _ = _
      rw [hst]
      rfl
    · cases h
      exact .of_start rfl rfl fun _ => rfl
  case spawnOwner name cwd cmd clientPath generation =>
    obtain ⟨st, hst, -, rfl, hinit, hknown, hspawned⟩ := hpre
    simp only [performProcess] at h
    split at h <;> cases h
    next hfresh =>
    refine .spawn st c.thread (some generation) hst hinit hknown hspawned ?_ rfl hfresh
      (spawnThread_ne_unborn _ _ _) rfl
    change g.start.map _ = _
    rw [hst]
    rfl
  case spawnCommand command cwd path =>
    simp only [performProcess] at h
    split at h
    · split at h <;> cases h
      exact .of_start rfl rfl (owners_map fun _ => ⟨rfl, rfl⟩)
    · cases h
      exact .of_start rfl rfl fun _ => rfl
  case processStartTime p =>
    cases h
    cases w.processStartTime c.ok p with
    | none => exact .of_start (hbury p _) rfl fun _ => rfl
    | some t => exact .of_start rfl rfl fun _ => rfl
  case pidIsOurs p startTime =>
    cases h
    cases p with
    | none => exact .of_start rfl rfl fun _ => rfl
    | some p =>
      cases w.pidIsOurs c.ok (some p) startTime with
      | true => exact .of_start rfl rfl fun _ => rfl
      | false => exact .of_start (hbury p _) rfl fun _ => rfl
  case terminatePid p =>
    simp only [performProcess] at h
    split at h <;> cases h
    · exact .of_start (hbury p _) rfl fun _ => rfl
    · exact .of_start rfl rfl fun _ => rfl
  all_goals
    simp only [performProcess] at h
    (try split at h) <;> cases h <;> exact .of_start rfl rfl fun _ => rfl

/-- What an action that follows the protocol does to starts and owners. -/
theorem startMove {w w' : World} {i : ℕ} {a : Act} {c : Choice} {g : Knowledge} {r : a.Response}
    (hpre : Knowledge.pre a g) (h : perform i a c w = some (r, w')) :
    StartMove w i g w' (Knowledge.post a g r) := by
  cases a with
  | disk a => exact disk_startMove hpre h
  | process a => exact process_startMove hpre h
  | file a =>
    obtain ⟨f, -, rfl⟩ := perform_file h
    exact .of_start rfl rfl fun _ => rfl

/-- A thread that an action starts did not exist before. -/
theorem launched_unborn {env : Env} {w w' : World} {i j : ℕ} {a : Act} {c : Choice}
    {r : a.Response} {p : Prog ThreadResult} (h : perform i a c w = some (r, w'))
    (hlaunched : launched env a r = some (j, p)) : w.life j = .unborn := by
  cases a with
  | disk a => cases hlaunched
  | file a => cases hlaunched
  | process a =>
    cases a
    case spawnSupervisor name cwd cmd =>
      simp only [perform, performProcess] at h
      split at h
      · split at h <;> cases h
        next hfresh =>
        cases hlaunched
        exact hfresh.1
      · cases h
        cases hlaunched
    case spawnOwner name cwd cmd clientPath generation =>
      simp only [perform, performProcess] at h
      split at h <;> cases h
      next hfresh =>
      cases hlaunched
      exact hfresh
    case spawnCapture name pty rows cols =>
      simp only [perform, performProcess] at h
      split at h <;> cases h
      next hfresh =>
      cases hlaunched
      exact hfresh
    case spawnForward fifo pty =>
      simp only [perform, performProcess] at h
      split at h <;> cases h
      next hfresh =>
      cases hlaunched
      exact hfresh
    all_goals cases hlaunched

/-- A thread begins without a start of its own. -/
theorem fresh_start (a : Act) (g : Knowledge) (r : a.Response) :
    (Knowledge.fresh a g r).start = none := by
  unfold Knowledge.fresh
  split <;> rfl

/-- A thread that owns nothing does not come to own anything. -/
theorem post_owner_none {a : Act} {g : Knowledge} {r : a.Response} (h : g.owner = none) :
    (Knowledge.post a g r).owner = none := by
  have hbury : ∀ (p : ℕ) (b : Bool), (if b then g.bury p else g).owner = none := by
    intro p b
    cases b <;> exact h
  have hmap : ∀ f : OwnerGhost → OwnerGhost, g.owner.map f = none := by
    intro f
    rw [h]
    rfl
  cases a with
  | file a => exact h
  | disk a =>
    cases a
    case acquireStartLock name => cases r <;> exact h
    case acquireStatusLock name => cases r <;> exact h
    case saveMetadata site m =>
      cases r with
      | error e => exact h
      | ok u =>
        cases site
        case supervisor => exact hmap _
        case child => exact hmap _
        all_goals exact h
    all_goals exact h
  | process a =>
    cases a
    case processStartTime p =>
      cases r with
      | none => exact hbury p _
      | some t => exact h
    case pidIsOurs p startTime =>
      cases p with
      | none => exact h
      | some p =>
        cases r with
        | true => exact h
        | false => exact hbury p _
    case terminatePid p =>
      cases r with
      | error e => exact h
      | ok u => exact hbury p _
    case spawnSupervisor => cases r <;> exact h
    case spawnCommand =>
      cases r with
      | none => exact h
      | some p => exact hmap _
    all_goals exact h

/-- Starts, the initial records they saved and the owners they spawned. -/
structure Registered (w : World) (γ : ℕ → Knowledge) : Prop where
  unborn : ∀ k, w.life k = .unborn → (γ k).start = none
  inits : ∀ n i, i ∈ w.inits n ↔
    ∃ st, (γ i).start = some st ∧ st.name = n ∧ st.initialized ≠ none
  nodup : ∀ n, (w.inits n).Nodup
  owner : ∀ k o, w.owner k = some o → ∃ st, (γ o.start).start = some st ∧ st.name = o.name ∧
    st.initialized ≠ none ∧ st.spawned = true
  unique : ∀ k k' o o', w.owner k = some o → w.owner k' = some o' → o.start = o'.start → k = k'
  apart : ∀ k, (γ k).start ≠ none → (γ k).owner = none

variable {w w' : World} {γ : ℕ → Knowledge}

/-- No start but that of the acting thread changes. -/
theorem Registered.ghosts_start {env : Env} {i : ℕ} {a : Act} {c : Choice} {r : a.Response}
    (hJ : Registered w γ) (h : perform i a c w = some (r, w')) {k : ℕ} (hk : k ≠ i) :
    (ghosts (bridge env) Knowledge.protocol Knowledge.fresh γ i a r k).start = (γ k).start := by
  rcases ghosts_cases (bridge env) Knowledge.protocol Knowledge.fresh γ i a r k with
    ⟨p, hlaunched, heq⟩ | ⟨rfl, -⟩ | ⟨-, heq⟩
  · rw [heq, fresh_start, hJ.unborn k (launched_unborn h hlaunched)]
  · exact absurd rfl hk
  · rw [heq]

/-- A living thread's own notes after its action are those the protocol prescribes. -/
theorem ghosts_self (env : Env) (γ : ℕ → Knowledge) {i : ℕ} {a : Act} {c : Choice} {r : a.Response}
    (hi : w.alive i = true) (h : perform i a c w = some (r, w')) :
    ghosts (bridge env) Knowledge.protocol Knowledge.fresh γ i a r i = Knowledge.post a (γ i) r := by
  rcases ghosts_cases (bridge env) Knowledge.protocol Knowledge.fresh γ i a r i with
    ⟨p, hlaunched, -⟩ | ⟨-, heq⟩ | ⟨hne, -⟩
  · exact absurd (launched_unborn h hlaunched) (alive_ne_unborn hi)
  · exact heq
  · exact absurd rfl hne

/-- What a start has done it has done for good. -/
theorem StartMove.progress {i : ℕ} {g g' : Knowledge} (hmove : StartMove w i g w' g')
    {st : StartGhost} (hst : g.start = some st) :
    ∃ st', g'.start = some st' ∧ st'.name = st.name ∧
      (st.initialized ≠ none → st'.initialized = st.initialized) ∧
      (st.spawned = true → st'.spawned = true) := by
  cases hmove with
  | keep start begun inits owners =>
    obtain ⟨st', hst', hagrees⟩ := start st hst
    exact ⟨st', hst', hagrees.name, fun _ => hagrees.initialized, fun h => hagrees.spawned.trans h⟩
  | enroll st₀ n before uninitialized after inits owners =>
    rw [hst] at before
    cases before
    exact ⟨_, after, rfl, fun h => absurd uninitialized h, id⟩
  | spawn st₀ k generation before initialized known unspawned after inits unborn born owners =>
    rw [hst] at before
    cases before
    exact ⟨_, after, rfl, fun _ => rfl, fun _ => rfl⟩

/-- Where only the other notes of an owner change, its name and its start stay. -/
theorem owner_of_map {o : Option Ownership} {o' : Ownership} {o'' : Option Ownership}
    (h : o''.map (fun o => (o.name, o.start)) = o.map fun o => (o.name, o.start))
    (ho : o'' = some o') : ∃ o₀, o = some o₀ ∧ o'.name = o₀.name ∧ o'.start = o₀.start := by
  subst ho
  cases o with
  | none => cases h
  | some o₀ =>
    simp only [Option.map_some, Option.some.injEq, Prod.mk.injEq] at h
    exact ⟨o₀, rfl, h.1, h.2⟩

section Act

variable (env : Env) {i : ℕ} {a : Act} {c : Choice} {r : a.Response}

/-- What the starts know after an action, as far as other threads rely on it. -/
theorem Registered.progress (hJ : Registered w γ) (hi : w.alive i = true)
    (hpre : Knowledge.pre a (γ i))
    (h : perform i a c w = some (r, w')) {k : ℕ} {st : StartGhost}
    (hst : (γ k).start = some st) :
    ∃ st', (ghosts (bridge env) Knowledge.protocol Knowledge.fresh γ i a r k).start = some st' ∧
      st'.name = st.name ∧ (st.initialized ≠ none → st'.initialized = st.initialized) ∧
      (st.spawned = true → st'.spawned = true) := by
  by_cases hk : k = i
  · subst hk
    rw [ghosts_self env γ hi h]
    exact (startMove hpre h).progress hst
  · rw [hJ.ghosts_start h hk]
    exact ⟨st, hst, rfl, fun _ => rfl, id⟩

/-- Exactly the starts with an initial record are on record. -/
theorem Registered.inits_act (hJ : Registered w γ) (hi : w.alive i = true)
    (hpre : Knowledge.pre a (γ i)) (h : perform i a c w = some (r, w'))
    (n : String) (j : ℕ) : j ∈ w'.inits n ↔ ∃ st,
      (ghosts (bridge env) Knowledge.protocol Knowledge.fresh γ i a r j).start = some st ∧
        st.name = n ∧ st.initialized ≠ none := by
  have hself := ghosts_self env γ hi h
  have hmove := startMove hpre h
  have hother : ∀ n j, j ≠ i → (j ∈ w.inits n ↔ ∃ st,
      (ghosts (bridge env) Knowledge.protocol Knowledge.fresh γ i a r j).start = some st ∧
        st.name = n ∧ st.initialized ≠ none) := by
    intro n j hj
    rw [hJ.ghosts_start h hj]
    exact hJ.inits n j
  cases hmove with
  | keep start begun inits owners =>
    rw [inits]
    by_cases hj : j = i
    · subst hj
      rw [hself, hJ.inits n j]
      constructor
      · rintro ⟨st, hst, hname, hinit⟩
        obtain ⟨st', hst', hagrees⟩ := start st hst
        exact ⟨st', hst', hagrees.name.trans hname, by rwa [hagrees.initialized]⟩
      · rintro ⟨st', hst', hname, hinit⟩
        cases hst : (γ j).start with
        | none => exact absurd (begun st' hst hst').2.1 hinit
        | some st =>
          obtain ⟨st'', hst'', hagrees⟩ := start st hst
          rw [hst'] at hst''
          cases hst''
          exact ⟨st, rfl, hagrees.name.symm.trans hname, by rwa [← hagrees.initialized]⟩
    · exact hother n j hj
  | enroll st m before uninitialized after inits owners =>
    rw [inits]
    by_cases hj : j = i
    · subst hj
      rw [hself, after]
      by_cases hn : n = st.name
      · subst hn
        simp
      · rw [Function.update_of_ne hn, hJ.inits n j, before]
        constructor
        · rintro ⟨st', hst', hname, -⟩
          cases hst'
          exact absurd hname.symm hn
        · rintro ⟨st', hst', hname, -⟩
          cases hst'
          exact absurd hname.symm hn
    · rw [← hother n j hj]
      by_cases hn : n = st.name
      · subst hn
        simp [hj]
      · rw [Function.update_of_ne hn]
  | spawn st k generation before initialized known unspawned after inits unborn born owners =>
    rw [inits]
    by_cases hj : j = i
    · subst hj
      rw [hself, after, hJ.inits n j, before]
      constructor
      · rintro ⟨st', hst', hname, hinit⟩
        cases hst'
        exact ⟨_, rfl, hname, hinit⟩
      · rintro ⟨st', hst', hname, hinit⟩
        cases hst'
        exact ⟨_, rfl, hname, hinit⟩
    · exact hother n j hj

/-- A start saves one initial record. -/
theorem Registered.nodup_act (hJ : Registered w γ) (hpre : Knowledge.pre a (γ i))
    (h : perform i a c w = some (r, w')) (n : String) : (w'.inits n).Nodup := by
  have hmove := startMove hpre h
  cases hmove with
  | keep start begun inits owners =>
    rw [inits]
    exact hJ.nodup n
  | enroll st m before uninitialized after inits owners =>
    rw [inits]
    by_cases hn : n = st.name
    · subst hn
      rw [Function.update_self]
      have hi' : i ∉ w.inits st.name := by
        rw [hJ.inits, before]
        rintro ⟨st', hst', -, hinit⟩
        cases hst'
        exact hinit uninitialized
      exact (hJ.nodup _).append (List.nodup_singleton i) (by simpa using hi')
    · rw [Function.update_of_ne hn]
      exact hJ.nodup n
  | spawn st k generation before initialized known unspawned after inits unborn born owners =>
    rw [inits]
    exact hJ.nodup n

/-- The start of an owner has spawned it. -/
theorem Registered.owner_act (hJ : Registered w γ) (hi : w.alive i = true)
    (hpre : Knowledge.pre a (γ i)) (h : perform i a c w = some (r, w'))
    (k : ℕ) (o : Ownership) (ho : w'.owner k = some o) : ∃ st,
      (ghosts (bridge env) Knowledge.protocol Knowledge.fresh γ i a r o.start).start = some st ∧
        st.name = o.name ∧ st.initialized ≠ none ∧ st.spawned = true := by
  have hself := ghosts_self env γ hi h
  have hmove := startMove hpre h
  -- An owner that existed before: its start has only made progress.
  have hold : ∀ k o, w.owner k = some o → ∃ st,
      (ghosts (bridge env) Knowledge.protocol Knowledge.fresh γ i a r o.start).start = some st ∧
        st.name = o.name ∧ st.initialized ≠ none ∧ st.spawned = true := by
    intro k o ho
    obtain ⟨st, hst, hname, hinit, hspawned⟩ := hJ.owner k o ho
    obtain ⟨st', hst', hname', hinit', hspawned'⟩ := hJ.progress env hi hpre h hst
    exact ⟨st', hst', hname'.trans hname, by rwa [hinit' hinit], hspawned' hspawned⟩
  cases hmove with
  | keep start begun inits owners =>
    obtain ⟨o₀, ho₀, hname, hstart⟩ := owner_of_map (owners k) ho
    rw [hname, hstart]
    exact hold k o₀ ho₀
  | enroll st m before uninitialized after inits owners =>
    rw [owners] at ho
    exact hold k o ho
  | spawn st j generation before initialized known unspawned after inits unborn born owners =>
    rw [owners] at ho
    by_cases hk : k = j
    · subst hk
      rw [Function.update_self] at ho
      cases ho
      exact ⟨{ st with spawned := true }, by rw [hself, after], rfl, initialized, rfl⟩
    · rw [Function.update_of_ne hk] at ho
      exact hold k o ho

/-- A start spawns one owner. -/
theorem Registered.unique_act (hJ : Registered w γ) (hpre : Knowledge.pre a (γ i))
    (h : perform i a c w = some (r, w')) (k k' : ℕ) (o o' : Ownership) (ho : w'.owner k = some o)
    (ho' : w'.owner k' = some o') (hstart : o.start = o'.start) : k = k' := by
  have hmove := startMove hpre h
  cases hmove with
  | keep start begun inits owners =>
    obtain ⟨o₀, ho₀, -, hs⟩ := owner_of_map (owners k) ho
    obtain ⟨o₀', ho₀', -, hs'⟩ := owner_of_map (owners k') ho'
    exact hJ.unique k k' o₀ o₀' ho₀ ho₀' (by rw [← hs, ← hs', hstart])
  | enroll st m before uninitialized after inits owners =>
    rw [owners] at ho ho'
    exact hJ.unique k k' o o' ho ho' hstart
  | spawn st j generation before initialized known unspawned after inits unborn born owners =>
    -- The start that spawns an owner has spawned none before.
    have hnew : ∀ k o, w.owner k = some o → o.start ≠ i := by
      rintro k o ho rfl
      obtain ⟨st', hst', -, -, hspawned⟩ := hJ.owner k o ho
      rw [before] at hst'
      cases hst'
      rw [unspawned] at hspawned
      cases hspawned
    rw [owners] at ho ho'
    by_cases hk : k = j <;> by_cases hk' : k' = j
    · rw [hk, hk']
    · subst hk
      rw [Function.update_self] at ho
      rw [Function.update_of_ne hk'] at ho'
      cases ho
      exact absurd hstart.symm (hnew k' o' ho')
    · subst hk'
      rw [Function.update_self] at ho'
      rw [Function.update_of_ne hk] at ho
      cases ho'
      exact absurd hstart (hnew k o ho)
    · rw [Function.update_of_ne hk] at ho
      rw [Function.update_of_ne hk'] at ho'
      exact hJ.unique k k' o o' ho ho' hstart

/-- A thread that starts a session owns no run. -/
theorem Registered.apart_act (hJ : Registered w γ) (hpre : Knowledge.pre a (γ i))
    (h : perform i a c w = some (r, w')) (k : ℕ)
    (hk : (ghosts (bridge env) Knowledge.protocol Knowledge.fresh γ i a r k).start ≠ none) :
    (ghosts (bridge env) Knowledge.protocol Knowledge.fresh γ i a r k).owner = none := by
  have hmove := startMove hpre h
  rcases ghosts_cases (bridge env) Knowledge.protocol Knowledge.fresh γ i a r k with
    ⟨p, -, heq⟩ | ⟨rfl, heq⟩ | ⟨-, heq⟩
  · rw [heq, fresh_start] at hk
    exact absurd rfl hk
  · rw [heq] at hk ⊢
    refine post_owner_none ?_
    cases hst : (γ k).start with
    | some st => exact hJ.apart k (by rw [hst]; simp)
    | none =>
      cases hmove with
      | keep start begun inits owners =>
        obtain ⟨st', hst'⟩ := Option.ne_none_iff_exists'.mp hk
        exact (begun st' hst hst').1
      | enroll st m before uninitialized after inits owners =>
        rw [hst] at before
        cases before
      | spawn st j generation before initialized known unspawned after inits unborn born owners =>
        rw [hst] at before
        cases before
  · rw [heq] at hk ⊢
    exact hJ.apart k hk

/-- Every action keeps the register. -/
theorem Registered.act (hJ : Registered w γ) (hsound : w.Sound) (hi : w.alive i = true)
    (hpre : Knowledge.pre a (γ i)) (h : perform i a c w = some (r, w')) :
    Registered w' (ghosts (bridge env) Knowledge.protocol Knowledge.fresh γ i a r) where
  unborn k hk := by
    have hunborn : w.life k = .unborn := by
      by_contra hne
      exact (perform_ages hsound h).born k hne hk
    have hki : k ≠ i := by
      rintro rfl
      exact alive_ne_unborn hi hunborn
    rw [hJ.ghosts_start h hki]
    exact hJ.unborn k hunborn
  inits := hJ.inits_act env hi hpre h
  nodup := hJ.nodup_act hpre h
  owner := hJ.owner_act env hi hpre h
  unique := hJ.unique_act hpre h
  apart := hJ.apart_act env hpre h

end Act

/-- What happens outside the bridge registers no start and forgets none. -/
theorem Registered.disturb {e : Disturbance} (hJ : Registered w γ) (h : w.disturb e = some w') :
    Registered w' γ where
  unborn k hk := by
    refine hJ.unborn k ?_
    by_contra hne
    exact (disturb_ages h).born k hne hk
  inits n i := by
    rw [(disturb_sameDisk h).1.inits]
    exact hJ.inits n i
  nodup n := by
    rw [(disturb_sameDisk h).1.inits]
    exact hJ.nodup n
  owner k o ho := hJ.owner k o ((disturb_sameDisk h).2 ▸ ho)
  unique k k' o o' ho ho' :=
    hJ.unique k k' o o' ((disturb_sameDisk h).2 ▸ ho) ((disturb_sameDisk h).2 ▸ ho')
  apart := hJ.apart

/-- Before the first action there is nothing to register. -/
theorem registered_fresh (requests : ℕ → Option Request) :
    Registered (World.fresh requests) fun _ => {} where
  unborn _ _ := rfl
  inits n i := ⟨fun h => (by cases h), fun ⟨st, hst, _⟩ => (by cases hst)⟩
  nodup _ := List.nodup_nil
  owner k o ho := by cases ho
  unique k k' o o' ho := by cases ho
  apart _ h := absurd rfl h

/-- `outlined_of_reaches` for an invariant that relies on the register too. -/
theorem registered_of_reaches {env : Env} {requests : ℕ → Option Request}
    {ok : World → ℕ → Act → Choice → Prop} {X : World → (ℕ → Knowledge) → Prop}
    {s : Config Act Act.Response ThreadResult World}
    (hact : ∀ {w γ i a c r w'}, Excluded w γ → Registered w γ → X w γ → w.alive i = true →
      ok w i a c → Knowledge.pre a (γ i) → perform i a c w = some (r, w') →
      X w' (ghosts (bridge env) Knowledge.protocol Knowledge.fresh γ i a r))
    (hdisturb : ∀ {w γ e w'}, X w γ → w.disturb e = some w' → X w' γ)
    (h0 : X (World.fresh requests) fun _ => {})
    (h : (bridge env).Reaches ok (boot env requests) s) :
    Outlined Knowledge.protocol Knowledge.Finished
      (fun w γ => Excluded w γ ∧ Registered w γ ∧ X w γ) s := by
  refine outlined_of_reaches ?_ ?_ ⟨registered_fresh requests, h0⟩ h
  · intro w γ i a c r w' hexcluded hJ hi hok hpre hperform _
    exact ⟨hJ.1.act env hexcluded.sound hi hpre hperform,
      hact hexcluded hJ.1 hJ.2 hi hok hpre hperform⟩
  · intro w γ e w' _ hJ hdist
    exact ⟨hJ.1.disturb hdist, hdisturb hJ.2 hdist⟩

end World

end IgnibyteBridge
