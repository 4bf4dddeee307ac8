import IgnibyteBridge.Session.Cleanup
import IgnibyteBridge.Session.Readers
import IgnibyteBridge.Session.Upkeep

/-!
# Nobody waits forever for a lock

`start.lock` is only tried, but `acquire_status_lock` waits. A thread that holds
`status.lock` never waits for anything itself and soon drops the lock, so the threads
that wait for it cannot wait for each other.
-/

namespace IgnibyteBridge

open Concurrency Program Fallible World

/-- What a thread knows of the locks that it holds. -/
structure Locks where
  /-- It is the first thread of a supervisor. -/
  supervises : Bool := false
  /-- The session whose `status.lock` it holds, and how many actions it may perform before
  it drops the lock. -/
  status : Option (String × ℕ) := none

namespace Locks

/-- The most actions between taking `status.lock` and dropping it. -/
def sectionLength : ℕ := 4

/-- The lock need not be dropped at once, if it is held. -/
def Spare (g : Locks) : Prop := ∀ name n, g.status = some (name, n) → 0 < n

/-- Nothing but a few actions that cannot wait is done under `status.lock`. -/
def pre : Act → Locks → Prop
  | .disk (.acquireStatusLock _), g => g.status = none
  | .disk (.dropStatusLock name), g => ∃ n, g.status = some (name, n)
  | .disk (.loadMetadata _), g => g.Spare
  | .disk (.saveMetadata ..), g => g.Spare
  | .process .processId, g => g.supervises = true ∧ g.Spare
  | .process (.processStartTime _), g => g.Spare
  | _, g => g.status = none

/-- One action less may be performed under the lock. -/
def spend (g : Locks) : Locks := { g with status := g.status.map fun s => (s.1, s.2 - 1) }

/-- What a thread knows after an action. -/
def post : (a : Act) → Locks → a.Response → Locks
  | .disk (.acquireStatusLock name), g, .held => { g with status := some (name, sectionLength) }
  | .disk (.dropStatusLock _), g, _ => { g with status := none }
  | .disk (.loadMetadata _), g, _ => g.spend
  | .disk (.saveMetadata ..), g, _ => g.spend
  | .process .processId, g, _ => g.spend
  | .process (.processStartTime _), g, _ => g.spend
  | _, g, _ => g

/-- What a thread knows when another thread starts it. -/
def fresh : (a : Act) → Locks → a.Response → Locks
  | .process (.spawnSupervisor ..), _, _ => { supervises := true }
  | _, _, _ => {}

/-- The discipline of the locks. -/
def discipline : Discipline Act Act.Response Locks where
  pre := pre
  fact _ _ _ := True
  post := post

/-- A thread holds no lock; it supervises, if `b` says so. -/
structure Idle (b : Bool) (g : Locks) : Prop where
  status : g.status = none
  supervises : b = true → g.supervises = true

/-- A thread holds `status.lock` of `name`, for at most `n` more actions. -/
structure Inside (b : Bool) (name : String) (n : ℕ) (g : Locks) : Prop where
  status : g.status = some (name, n)
  supervises : b = true → g.supervises = true

/-- A thread holds `status.lock` of `name`. -/
def Holding (b : Bool) (name : String) (g : Locks) : Prop := ∃ n, Inside b name n g

variable {g : Locks} {b : Bool} {name : String} {n : ℕ}

/-- Without a lock there is nothing to spend. -/
theorem spend_of_none (h : g.status = none) : g.spend = g := by
  rw [spend, h, Option.map_none, ← h]

/-- An idle thread need not hurry. -/
theorem Idle.spare (h : Idle b g) : g.Spare := by
  intro name n hheld
  rw [h.status] at hheld
  cases hheld

/-- A thread inside with actions left need not hurry. -/
theorem Inside.spare (h : Inside b name (n + 1) g) : g.Spare := by
  intro name' n' hheld
  rw [h.status] at hheld
  cases hheld
  exact Nat.succ_pos n

/-- Each action under the lock spends one. -/
theorem Inside.spend (h : Inside b name (n + 1) g) : Inside b name n g.spend where
  status := by rw [Locks.spend, h.status, Option.map_some, Nat.add_sub_cancel]
  supervises := h.supervises

/-! ### Critical sections -/

/-- What is left of a critical section of `name`: at most `n` actions, and none that waits. -/
structure Brief {α : Type} (b : Bool) (name : String) (n : ℕ) (p : Result α) : Prop where
  meets : ∀ g, Inside b name n g →
    Meets discipline (fun _ => Holding b name) (fun _ => Holding b name) p g

section Brief

variable {α : Type}

/-- A section may be done. -/
theorem brief_pure (x : α) : Brief b name n (pure x : Result α) := by
  constructor
  intro g hg
  exact ⟨n, hg⟩

/-- A section may end with an error. -/
theorem brief_throw (e : String) : Brief b name n (throw e : Result α) := by
  constructor
  intro g hg
  exact ⟨n, hg⟩

/-- `?` takes no action. -/
theorem Brief.try_bind {x : Except String α} {β : Type} {f : α → Result β}
    (h : ∀ a, Brief b name n (f a)) : Brief b name n (try_ x >>= f) := by
  cases x with
  | ok a => exact h a
  | error e => exact brief_throw e

/-- A branch is as brief as both of its sides. -/
theorem Brief.ite {c : Prop} [Decidable c] {p q : Result α} (hp : Brief b name n p)
    (hq : Brief b name n q) : Brief b name n (if c then p else q) := by
  split
  · exact hp
  · exact hq

/-- A load is one action. -/
theorem Brief.load {name' : String} {f : SessionMetadata → Result α}
    (h : ∀ m, Brief b name n (f m)) : Brief b name (n + 1) (loadMetadata name' >>= f) := by
  constructor
  intro g hg
  rw [meets_bind, loadMetadata, meets_bind]
  refine meets_sessionDir (fun _ => ?_) fun _ _ => ⟨n + 1, hg⟩
  rw [meets_bind, meets_disk]
  refine ⟨hg.spare, fun r _ => meets_try (fun m _ => ?_) fun _ _ => ⟨n, hg.spend⟩⟩
  exact (h m).meets _ hg.spend

/-- A save is one action, also when it fails. -/
theorem meets_save {site : Site} {m : SessionMetadata} (hg : Inside b name (n + 1) g) :
    Meets discipline (fun _ => Inside b name n) (fun _ => Holding b name)
      (saveMetadata site m) g := by
  rw [saveMetadata, meets_bind]
  refine meets_sessionDir (fun _ => ?_) fun _ _ => ⟨n + 1, hg⟩
  rw [meets_bind, meets_disk]
  exact ⟨hg.spare, fun r _ => meets_try (fun _ _ => hg.spend) fun _ _ => ⟨n, hg.spend⟩⟩

/-- A section may end with a save. -/
theorem brief_save {site : Site} {m : SessionMetadata} :
    Brief b name (n + 1) (saveMetadata site m) := by
  constructor
  intro g hg
  exact Meets.mono (meets_save hg) (fun _ _ hinside => ⟨n, hinside⟩) fun _ _ => id

/-- A section may go on after a save. -/
theorem Brief.save {site : Site} {m : SessionMetadata} {f : Unit → Result α}
    (h : Brief b name n (f ())) : Brief b name (n + 1) (saveMetadata site m >>= f) := by
  constructor
  intro g hg
  rw [meets_bind]
  exact Meets.mono (meets_save hg) (fun _ => h.meets) fun _ _ => id

/-- Reading a start time is one action. -/
theorem Brief.processStartTime {pid : ℕ} {f : Option ℕ → Result α}
    (h : ∀ t, Brief b name n (f t)) :
    Brief b name (n + 1) (proc (.processStartTime pid) >>= f) := by
  constructor
  intro g hg
  rw [meets_bind, meets_proc]
  exact ⟨hg.spare, fun t _ => (h t).meets _ hg.spend⟩

/-- Only a supervisor asks for its PID. -/
theorem Brief.processId {f : ℕ → Result α} (h : ∀ pid, Brief true name n (f pid)) :
    Brief true name (n + 1) (proc .processId >>= f) := by
  constructor
  intro g hg
  rw [meets_bind, meets_proc]
  exact ⟨⟨hg.supervises rfl, hg.spare⟩, fun pid _ => (h pid).meets _ hg.spend⟩

/-- A short critical section ends, and the lock is dropped. -/
theorem keeps_withStatusLock {body : Result α} (hbody : Brief b name sectionLength body) :
    Keeps discipline (Idle b) (withStatusLock name body) := by
  constructor
  intro g hg
  rw [withStatusLock, meets_bind, meets_disk]
  refine ⟨hg.status, fun r _ => ?_⟩
  have hdropped : ∀ (x : Except String α) (g' : Locks), Holding b name g' →
      Meets discipline (fun _ => Idle b) (fun _ => Idle b)
        (disk (.dropStatusLock name) >>= fun _ => try_ x) g' := by
    rintro x g' ⟨n, hinside⟩
    rw [meets_bind, meets_disk]
    refine ⟨⟨n, hinside.status⟩, fun _ _ => ?_⟩
    have hidle : Idle b { g' with status := none } := ⟨rfl, hinside.supervises⟩
    exact (keeps_try x).meets _ hidle
  cases r with
  | held =>
    have hinside : Inside b name sectionLength
        { g with status := some (name, sectionLength) } := ⟨rfl, hg.supervises⟩
    rw [meets_bind, meets_caught]
    exact Meets.mono (hbody.meets _ hinside) (fun x => hdropped (.ok x)) fun e => hdropped (.error e)
  | _ => exact hg

end Brief

/-- A thread that holds no lock may do anything outside the critical sections. -/
theorem Idle.pre {a : Act} (ha : a.unguarded = true) (hg : Idle b g) : Locks.pre a g := by
  unfold Locks.pre
  split
  · cases ha
  · cases ha
  · exact hg.spare
  · cases ha
  · cases ha
  · exact hg.spare
  · exact hg.status

/-- Outside critical sections a thread stays idle. -/
theorem Idle.post {a : Act} {r : a.Response} (ha : a.unguarded = true) (hg : Idle b g) :
    Idle b (Locks.post a g r) := by
  unfold Locks.post
  split
  · cases ha
  · cases ha
  · rwa [spend_of_none hg.status]
  · cases ha
  · cases ha
  · rwa [spend_of_none hg.status]
  · exact hg

/-- Marking a run Stopped takes the lock and drops it. -/
theorem keeps_markStopped (name exitStatus : String) (exitCode generation : Option ℕ)
    (by_ : Stopper) :
    Keeps discipline (Idle b) (markStopped name (some exitStatus) exitCode generation by_) := by
  refine (keeps_sessionDir name).bind fun _ => keeps_withStatusLock (Brief.load fun m => ?_)
  refine (brief_pure ()).ite ((brief_pure ()).ite ?_)
  exact brief_save

/-- Every thread is idle between its critical sections. -/
theorem upkeep (env : Env) (b : Bool) : Upkeep env discipline (Idle b) where
  allowed ha hg := hg.pre ha
  unguarded ha hg _ := hg.post ha
  initial name cwd cmd command previous rows cols _ := by
    constructor
    intro g hg
    have hspent : Idle b g.spend := by rwa [spend_of_none hg.status]
    rw [saveMetadata, meets_bind]
    refine meets_sessionDir (fun _ => ?_) fun _ _ => hg
    rw [meets_bind, meets_disk]
    exact ⟨hg.spare, fun r _ => meets_try (fun _ _ => hspent) fun _ _ => hspent⟩
  recordChild name generation child command _ := by
    refine keeps_withStatusLock (Brief.load fun m => Brief.try_bind fun _ => ?_)
    exact Brief.processStartTime fun t => brief_save
  promote name generation := by
    refine keeps_withStatusLock (Brief.load fun m => Brief.try_bind fun _ => ?_)
    exact brief_save
  markUnfinished _ _ _ _ := keeps_markStopped ..
  markFinished _ _ _ _ := keeps_markStopped ..

/-- A supervisor adopts its run in one critical section. -/
theorem keeps_adoptRun (name : String) : Keeps discipline (Idle true) (adoptRun name) := by
  refine keeps_withStatusLock (Brief.load fun m => Brief.processId fun pid => ?_)
  exact Brief.processStartTime fun t => Brief.save (brief_pure _)

end Locks

/-! ## The world -/

namespace World

open Locks

/-- What a thread's locks mean. -/
structure Locked (w : World) (k : ℕ) (g : Locks) : Prop where
  status : ∀ name, w.statusLock name = some k → ∃ n ≤ sectionLength, g.status = some (name, n)
  supervisor : g.supervises = true →
    (∃ pid, w.life k = .live (.supervisor pid)) ∨ w.life k = .gone

/-- The invariant of `status.lock`. -/
structure Interlocked (w : World) (γ : ℕ → Locks) : Prop where
  sound : w.Sound
  /-- A lock is held by a thread that was started. -/
  born : ∀ name k, w.statusLock name = some k → w.life k ≠ .unborn
  threads : Threads Locked w γ

variable {w w' : World} {γ : ℕ → Locks} {i k : ℕ} {a : Act} {c : Choice} {r : a.Response}
  {g : Locks} {name : String}

/-- A thread comes by `status.lock` only by taking it. -/
theorem holder_cases (h : perform i a c w = some (r, w')) (hlock : w'.statusLock name = some k) :
    w.statusLock name = some k ∨ (k = i ∧ a = .disk (.acquireStatusLock name)) := by
  cases a with
  | process a =>
    rw [(performProcess_sameDisk h).statusLock] at hlock
    exact .inl hlock
  | file a =>
    obtain ⟨f, -, rfl⟩ := perform_file h
    exact .inl hlock
  | disk a =>
    cases a
    case acquireStatusLock name' =>
      rcases performDisk_acquireStatus h with ⟨-, -, rfl⟩ | ⟨-, rfl⟩
      · by_cases hname : name = name'
        · subst hname
          change Function.update w.statusLock name (some i) name = some k at hlock
          rw [Function.update_self] at hlock
          exact .inr ⟨(Option.some.inj hlock).symm, rfl⟩
        · exact .inl ((Function.update_of_ne hname ..).symm.trans hlock)
      · exact .inl hlock
    case dropStatusLock name' =>
      cases h
      by_cases hname : name = name'
      · subst hname
        change Function.update w.statusLock name none name = some k at hlock
        rw [Function.update_self] at hlock
        cases hlock
      · exact .inl ((Function.update_of_ne hname ..).symm.trans hlock)
    case saveMetadata site m =>
      rcases performDisk_save h with ⟨u, -, rfl⟩ | ⟨e, -, rfl⟩ <;> exact .inl hlock
    all_goals
      simp only [perform, performDisk] at h
      (try split at h) <;> cases h <;> exact .inl hlock

/-- What a thread's locks mean does not depend on what it may still do. -/
theorem Locked.spend (h : Locked w k g) : Locked w k g.spend where
  status name hlock := by
    obtain ⟨n, hn, hstatus⟩ := h.status name hlock
    refine ⟨n - 1, by omega, ?_⟩
    rw [Locks.spend, hstatus, Option.map_some]
  supervisor := h.supervisor

/-- What a thread's locks mean does not change while it takes none. -/
theorem Locked.keep (h : perform i a c w = some (r, w')) (hborn : w.life k ≠ .unborn)
    (hlock : ∀ name, w'.statusLock name = some k → w.statusLock name = some k)
    (hg : Locked w k g) : Locked w' k g where
  status name hheld := hg.status name (hlock name hheld)
  supervisor hsupervises := by
    rcases perform_life_born h hborn with hsame | hgone
    · rw [hsame]
      exact hg.supervisor hsupervises
    · exact .inr hgone

/-- A thread's own actions keep what its locks mean. -/
theorem Locked.own (h : perform i a c w = some (r, w')) (hi : w.alive i = true)
    (hpre : Locks.pre a g) (hg : Locked w i g) : Locked w' i (Locks.post a g r) := by
  have hborn := alive_ne_unborn hi
  by_cases htakes : ∃ name, a = .disk (.acquireStatusLock name)
  · obtain ⟨name, rfl⟩ := htakes
    rcases performDisk_acquireStatus h with ⟨rfl, -, rfl⟩ | ⟨hr, rfl⟩
    · refine ⟨fun name' hlock => ?_, hg.supervisor⟩
      have hname : name' = name := by
        by_contra hne
        have hheld : w.statusLock name' = some i := (Function.update_of_ne hne ..).symm.trans hlock
        obtain ⟨n, -, hstatus⟩ := hg.status name' hheld
        rw [show g.status = none from hpre] at hstatus
        cases hstatus
      exact ⟨sectionLength, le_rfl, by rw [hname]; rfl⟩
    · cases r with
      | held => exact absurd rfl hr
      | _ => exact hg
  · have hkept : Locked w' i g := by
      refine hg.keep h hborn fun name hlock => ?_
      rcases holder_cases h hlock with hheld | ⟨-, ha⟩
      · exact hheld
      · exact absurd ⟨name, ha⟩ htakes
    unfold Locks.post
    split
    · exact absurd ⟨_, rfl⟩ htakes
    · obtain ⟨n', hstatus'⟩ := hpre
      cases h
      refine ⟨fun name' hlock => ?_, hkept.supervisor⟩
      -- The thread holds no other lock than the one that it drops.
      obtain ⟨n, -, hstatus⟩ := hkept.status name' hlock
      have hdropped : Function.update w.statusLock name' none name' = none :=
        Function.update_self ..
      rw [hstatus'] at hstatus
      cases hstatus
      exact absurd (hdropped.symm.trans hlock) (Option.some_ne_none i).symm
    · exact hkept.spend
    · exact hkept.spend
    · exact hkept.spend
    · exact hkept.spend
    · exact hkept

/-- A thread that supervises was started in a process of its own. -/
theorem supervisor_of_fresh {env : Env} {p : Prog ThreadResult}
    (h : perform i a c w = some (r, w')) (hlaunched : launched env a r = some (k, p))
    (hsupervises : (Locks.fresh a g r).supervises = true) :
    (∃ pid, w'.life k = .live (.supervisor pid)) ∨ w'.life k = .gone := by
  unfold Locks.fresh at hsupervises
  split at hsupervises
  · next name cwd cmd _ =>
    simp only [perform, performProcess] at h
    split at h
    · split at h <;> cases h
      cases hlaunched
      exact .inl ⟨c.pid, Function.update_self ..⟩
    · cases h
      cases hlaunched
  · cases hsupervises

/-- The thread that acted keeps the invariant, and so do the others. -/
theorem Interlocked.act (env : Env) (hJ : Interlocked w γ) (hi : w.alive i = true)
    (hpre : Locks.pre a (γ i)) (h : perform i a c w = some (r, w')) :
    Interlocked w' (ghosts (bridge env) Locks.discipline Locks.fresh γ i a r) where
  sound := perform_sound hJ.sound h
  born name k hlock := by
    refine (perform_ages hJ.sound h).born k ?_
    rcases holder_cases h hlock with hheld | ⟨rfl, -⟩
    · exact hJ.born name k hheld
    · exact alive_ne_unborn hi
  threads := by
    refine threads_step env hJ.sound hi h hJ.threads (fun hg => hg.own h hi hpre)
      (fun k hk halive hg => ?_) fun k p hlaunched => ?_
    · refine hg.keep h (alive_ne_unborn halive) fun name hlock => ?_
      rcases holder_cases h hlock with hheld | ⟨rfl, -⟩
      · exact hheld
      · exact absurd rfl hk
    · have hunborn := launched_unborn h hlaunched
      refine ⟨fun name hlock => ?_, fun hsupervises => ?_⟩
      · rcases holder_cases h hlock with hheld | ⟨rfl, -⟩
        · exact absurd hunborn (hJ.born name k hheld)
        · exact absurd hunborn (alive_ne_unborn hi)
      · exact supervisor_of_fresh h hlaunched hsupervises

/-- No disturbance takes a lock. -/
theorem Interlocked.disturb {e : Disturbance} (hJ : Interlocked w γ) (h : w.disturb e = some w') :
    Interlocked w' γ := by
  obtain ⟨hdisk, -⟩ := disturb_sameDisk h
  refine ⟨disturb_sound hJ.sound h, fun name k hlock => ?_, ?_⟩
  · rw [hdisk.statusLock] at hlock
    exact (disturb_ages h).born k (hJ.born name k hlock)
  · refine threads_disturb h hJ.threads fun k halive hg => ⟨fun name hlock => ?_, fun hs => ?_⟩
    · rw [hdisk.statusLock] at hlock
      exact hg.status name hlock
    · rcases (disturb_handles h).2.2 k with hsame | ⟨-, hgone⟩
      · rw [hsame]
        exact hg.supervisor hs
      · exact .inr hgone

/-- At the beginning no lock is taken. -/
theorem interlocked_fresh (requests : ℕ → Option Request) :
    Interlocked (World.fresh requests) fun _ => {} where
  sound := (excluded_fresh requests).sound
  born name k hlock := by cases hlock
  threads k _ := by
    refine ⟨fun name hlock => ?_, fun hsupervises => ?_⟩
    · cases hlock
    · cases hsupervises

/-- Every thread of every run keeps to the discipline of the locks. -/
theorem interlocked_of_reaches {env : Env} {requests : ℕ → Option Request}
    {s : Config Act Act.Response ThreadResult World}
    (h : (bridge env).Reaches (fun _ _ _ _ => True) (boot env requests) s) :
    Outlined Locks.discipline (fun _ => Idle false) Interlocked s := by
  have hidle : Idle false {} := ⟨rfl, fun h => by cases h⟩
  have hcovers : Covers (bridge env) Locks.discipline (fun _ => Idle false) Locks.fresh := by
    refine (Locks.upkeep env false).covers (Locks.upkeep env true) Locks.keeps_adoptRun
      (fun g hg => ⟨hg.status, fun h => by cases h⟩) (fun _ => ?_) fun _ _ _ _ _ => ⟨rfl, fun _ => rfl⟩
    unfold Locks.fresh
    split
    · exact ⟨rfl, fun h => by cases h⟩
    · exact hidle
  refine h.outline hcovers ⟨fun hJ hi _ hpre hact => ⟨trivial, hJ.act env hi hpre hact⟩,
    fun hJ hdisturb => hJ.disturb hdisturb⟩ ⟨fun _ => {}, interlocked_fresh requests, fun i => ?_⟩
  exact (Locks.upkeep env false).boot requests i hidle

/-! ## The holder of a lock -/

/-- Under the lock, an action that does not drop it is one of those that are left. -/
theorem inside_act {n : ℕ} (hpre : Locks.pre a g) (hg : Inside false name n g)
    (hkept : a ≠ .disk (.dropStatusLock name)) (r : a.Response) :
    ∃ m, n = m + 1 ∧ Inside false name m (Locks.post a g r) ∧
      (Locks.post a g r).supervises = g.supervises := by
  have hspare : g.Spare → ∃ m, n = m + 1 := fun h =>
    ⟨n - 1, by have := h name n hg.status; omega⟩
  have hheld : g.status ≠ none := by simp [hg.status]
  unfold Locks.pre at hpre
  split at hpre
  · exact absurd hpre hheld
  · obtain ⟨n', hstatus⟩ := hpre
    rw [hg.status] at hstatus
    cases hstatus
    exact absurd rfl hkept
  · obtain ⟨m, rfl⟩ := hspare hpre
    exact ⟨m, rfl, hg.spend, rfl⟩
  · obtain ⟨m, rfl⟩ := hspare hpre
    exact ⟨m, rfl, hg.spend, rfl⟩
  · obtain ⟨m, rfl⟩ := hspare hpre.2
    exact ⟨m, rfl, hg.spend, rfl⟩
  · obtain ⟨m, rfl⟩ := hspare hpre
    exact ⟨m, rfl, hg.spend, rfl⟩
  · exact absurd hpre hheld

/-- A thread that holds a lock uses up the actions that it has left. -/
theorem inside_leads {p q : Prog ThreadResult} {log : List Did} {n : ℕ} (hleads : p.Leads log q)
    (hp : p.Follows Locks.discipline (fun _ => Idle false) g) (hg : Inside false name n g)
    (hkept : ∀ e ∈ log, e.1 ≠ .disk (.dropStatusLock name)) :
    log.length ≤ n ∧ ∃ g' m, q.Follows Locks.discipline (fun _ => Idle false) g' ∧
      Inside false name m g' ∧ g'.supervises = g.supervises := by
  induction hleads generalizing g n with
  | refl p => exact ⟨Nat.zero_le n, g, n, hp, hg, rfl⟩
  | @act a next r log q _ ih =>
    obtain ⟨hpre, hnext⟩ := hp
    obtain ⟨m, rfl, hinside, hsame⟩ := inside_act hpre hg (hkept _ List.mem_cons_self) r
    obtain ⟨hlength, g', m', hq, hg', hsame'⟩ :=
      ih (hnext r trivial) hinside fun e he => hkept e (List.mem_cons_of_mem _ he)
    refine ⟨?_, g', m', hq, hg', hsame'.trans hsame⟩
    rw [List.length_cons]
    omega

/-- Under the lock, no action of a thread waits for anything. -/
theorem total_of_inside {n : ℕ} (hpre : Locks.pre a g) (hg : Inside false name n g)
    (hhost : g.supervises = true → ∃ pid, w.life k = .live (.supervisor pid)) (c : Choice) :
    (perform k a c w).isSome = true := by
  have hheld : g.status ≠ none := by simp [hg.status]
  unfold Locks.pre at hpre
  split at hpre
  · exact absurd hpre hheld
  · rfl
  · simp only [perform, performDisk]
    split <;> rfl
  · simp only [perform, performDisk]
    split <;> rfl
  · obtain ⟨pid, hlife⟩ := hhost hpre.1
    simp only [perform, performProcess, hostOf, hlife]
    rfl
  · rfl
  · exact absurd hpre hheld

/-- A thread that holds a lock can take its next step. -/
theorem step_of_inside {n : ℕ} {p : Prog ThreadResult}
    (hp : p.Follows Locks.discipline (fun _ => Idle false) g) (hg : Inside false name n g)
    (hhost : g.supervises = true → ∃ pid, w.life k = .live (.supervisor pid)) :
    ∃ a, p.head = some a ∧ ∀ c, (perform k a c w).isSome = true := by
  cases p with
  | done x =>
    have hidle : Idle false g := hp
    have hnone := hidle.status
    rw [hg.status] at hnone
    cases hnone
  | act a next => exact ⟨a, rfl, total_of_inside hp.1 hg hhost⟩

/-- The process of a thread that supervises. -/
theorem Locked.host (hg : Locked w k g) (hk : w.alive k = true) (hs : g.supervises = true) :
    ∃ pid, w.life k = .live (.supervisor pid) := by
  rcases hg.supervisor hs with hlive | hgone
  · exact hlive
  · simp [World.alive, hgone] at hk

/-- A thread stays in its process as long as it lives. -/
theorem life_of_reaches {env : Env} {ok : World → ℕ → Act → Choice → Prop}
    {s t : Config Act Act.Response ThreadResult World} (h : (bridge env).Reaches ok s t)
    (hs : s.world.life k ≠ .unborn) (ht : t.world.alive k = true) :
    t.world.life k = s.world.life k := by
  have hkept : t.world.life k = s.world.life k ∨ t.world.life k = .gone := by
    refine h.stable (I := fun w => w.life k = s.world.life k ∨ w.life k = .gone)
      (fun hw _ _ hact => ?_) (fun hw hdisturb => ?_) (.inl rfl)
    · rcases hw with hsame | hgone
      · rcases perform_life_born hact (hsame ▸ hs) with hkept | hended
        · exact .inl (hkept.trans hsame)
        · exact .inr hended
      · rcases perform_life_born hact (k := k) (by simp [hgone]) with hkept | hended
        · exact .inr (hkept.trans hgone)
        · exact .inr hended
    · rcases (disturb_handles hdisturb).2.2 k with hsame | ⟨-, hended⟩
      · rwa [hsame]
      · exact .inr hended
  rcases hkept with hsame | hgone
  · exact hsame
  · simp [World.alive, hgone] at ht

/-- Whoever holds a lock that another thread waits for can take its next step. -/
theorem waits_for_other {env : Env} {requests : ℕ → Option Request}
    {s : Config Act Act.Response ThreadResult World} {j : ℕ}
    (hreach : (bridge env).Reaches (fun _ _ _ _ => True) (boot env requests) s)
    (hk : s.world.alive k = true)
    (hhead : (s.thread k).head = some (.disk (.acquireStatusLock name)))
    (hj : s.world.alive j = true) (hlock : s.world.statusLock name = some j) :
    j ≠ k ∧ ∃ a, (s.thread j).head = some a ∧ ∀ c, (perform j a c s.world).isSome = true := by
  obtain ⟨γ, hJ, hfollows⟩ := interlocked_of_reaches hreach
  have hlocked := hJ.threads j hj
  obtain ⟨n, -, hstatus⟩ := hlocked.status name hlock
  constructor
  · rintro rfl
    have hnone : (γ j).status = none := (hfollows j).pre_head hhead
    rw [hstatus] at hnone
    cases hnone
  · exact step_of_inside (hfollows j) ⟨hstatus, fun h => by cases h⟩ fun hs => hlocked.host hj hs

end World

/-- **No deadlock.** In every run, whoever is killed: as long as a live thread holds
`status.lock`, it can take its next step, whatever the environment answers and whatever other
threads wait for, and it drops the lock with its fifth step at the latest. -/
theorem statusLock_released (env : Env) (requests : ℕ → Option Request)
    {s t : Config Act Act.Response ThreadResult World} {k : ℕ} {name : String} {log : List Did}
    (hreach : (bridge env).Reaches (fun _ _ _ _ => True) (boot env requests) s)
    (halive : s.world.alive k = true) (hlock : s.world.statusLock name = some k)
    (hrun : (bridge env).Traced (fun _ _ _ _ => True) k s log t) (halive' : t.world.alive k = true)
    (hkept : ∀ e ∈ log, e.1 ≠ .disk (.dropStatusLock name)) :
    log.length ≤ 4 ∧ ∃ a, (t.thread k).head = some a ∧
      ∀ c, ((bridge env).perform k a c t.world).isSome = true := by
  obtain ⟨γ, hJ, hfollows⟩ := interlocked_of_reaches hreach
  have hlocked := hJ.threads k halive
  obtain ⟨n, hn, hstatus⟩ := hlocked.status name hlock
  have hleads := hrun.leads fun halive h => launched_ne_self halive h
  obtain ⟨hlength, g, m, hnext, hg, hsame⟩ :=
    inside_leads hleads (hfollows k) ⟨hstatus, fun h => by cases h⟩ hkept
  refine ⟨hlength.trans hn, step_of_inside hnext hg fun hsupervises => ?_⟩
  rw [life_of_reaches hrun.reaches (alive_ne_unborn halive) halive']
  exact hlocked.host halive (hsame ▸ hsupervises)

/-- A stop has loaded the record of a Running session under its lock. -/
theorem statusLock_released_stopping :
    ∃ (s t : Config Act Act.Response ThreadResult World) (log : List Did),
      s.world.statusLock "demo" = some 1 ∧
      (bridge plainEnv).Traced (fun _ _ _ _ => True) 1 s log t ∧
      log.length = 1 ∧ ∃ a, (t.thread 1).head = some a ∧
        ∀ c, ((bridge plainEnv).perform 1 a c t.world).isSome = true := by
  have hrun : ((bridge plainEnv).exec System.unrestricted
      (steps 0 13 ++ [.run 0 { thread := 2 }] ++ steps 2 2 ++
        [.run 2 { pid := 7, startTime := 100 }] ++ steps 2 12 ++ steps 1 5)
      (boot plainEnv (served [startDemo true, stopDemo]))).any (fun s => s.world.alive 1 &&
        decide (s.world.statusLock "demo" = some 1) &&
        ((bridge plainEnv).trace System.unrestricted 1 (steps 1 1) s).any fun e =>
          e.2.world.alive 1 && decide (e.1.length = 1) && e.1.all fun did => did.1.unguarded) =
      true := by
    decide +kernel
  obtain ⟨s, hexec, hs⟩ := (Option.any_eq_true _ _).mp hrun
  simp only [Bool.and_eq_true, decide_eq_true_eq] at hs
  obtain ⟨⟨halive, hlock⟩, hlater⟩ := hs
  obtain ⟨⟨log, t⟩, htrace, ht⟩ := (Option.any_eq_true _ _).mp hlater
  simp only [Bool.and_eq_true, decide_eq_true_eq] at ht
  obtain ⟨⟨halive', hlength⟩, hunguarded⟩ := ht
  have hreach := (System.reaches_of_exec hexec).mono fun _ _ _ _ _ => trivial
  have htraced := (System.traced_of_trace htrace).mono fun _ _ _ _ _ => trivial
  have hkept : ∀ e ∈ log, e.1 ≠ .disk (.dropStatusLock "demo") := by
    intro e he hdrop
    have hcalm := List.all_eq_true.mp hunguarded e he
    rw [hdrop] at hcalm
    cases hcalm
  exact ⟨s, t, log, hlock, htraced, hlength,
    (statusLock_released plainEnv _ hreach halive hlock htraced halive' hkept).2⟩

end IgnibyteBridge
