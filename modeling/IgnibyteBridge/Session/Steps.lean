import IgnibyteBridge.Session.Protocol

/-!
# What a step can change

Actions on records leave processes and threads alone, and the other way round.
Processes only age, and a thread that cannot take a step never can again.
-/

namespace IgnibyteBridge

open Concurrency

namespace World

/-- Two worlds with the same records, locks, and history of saves and loads. -/
structure SameDisk (w w' : World) : Prop where
  metadata : w'.metadata = w.metadata
  directories : w'.directories = w.directories
  startLock : w'.startLock = w.startLock
  statusLock : w'.statusLock = w.statusLock
  inits : w'.inits = w.inits
  loadedAt : w'.loadedAt = w.loadedAt

/-- Two worlds with the same processes and threads. -/
structure SameMachine (w w' : World) : Prop where
  life : w'.life = w.life
  process : w'.process = w.process
  daemonUp : w'.daemonUp = w.daemonUp

/-- The same threads are alive. -/
theorem SameMachine.alive {w w' : World} (h : w.SameMachine w') (i : ℕ) :
    w'.alive i = w.alive i := by
  simp only [World.alive, hostAlive, h.life, h.process, h.daemonUp]

/-- Actions on records and locks change no process and no thread. -/
theorem performDisk_sameMachine {i : ℕ} {a : DiskAct} {c : Choice} {w w' : World}
    {r : a.Response} (h : performDisk i a c w = some (r, w')) : w.SameMachine w' := by
  cases a <;> simp only [performDisk] at h <;> (try split at h) <;> (try split at h) <;>
    cases h <;> exact ⟨rfl, rfl, rfl⟩

/-- Actions on records and locks change no FIFO, log, screen or PTY. -/
theorem performDisk_files {i : ℕ} {a : DiskAct} {c : Choice} {w w' : World}
    {r : a.Response} (h : performDisk i a c w = some (r, w')) : w'.files = w.files := by
  cases a <;> simp only [performDisk] at h <;> (try split at h) <;> (try split at h) <;>
    cases h <;> rfl

/-- Actions on processes change no record and no lock. -/
theorem performProcess_sameDisk {i : ℕ} {a : ProcessAct} {c : Choice} {w w' : World}
    {r : a.Response} (h : performProcess i a c w = some (r, w')) : w.SameDisk w' := by
  cases a <;> simp only [performProcess] at h <;> (try split at h) <;> (try split at h) <;>
    cases h <;> exact ⟨rfl, rfl, rfl, rfl, rfl, rfl⟩

/-- A save replaces the record, or changes nothing. -/
theorem performDisk_save {i : ℕ} {site : Site} {m : SessionMetadata} {c : Choice} {w w' : World}
    {r : Except String Unit} (h : performDisk i (.saveMetadata site m) c w = some (r, w')) :
    (∃ u, r = .ok u ∧ w' = w.save i site m) ∨ ∃ e, r = .error e ∧ w' = w := by
  simp only [performDisk] at h
  split at h <;> cases h
  · exact .inl ⟨(), rfl, rfl⟩
  · exact .inr ⟨_, rfl, rfl⟩

/-- The world after thread `i` loaded the record of a session. -/
def loaded (w : World) (i : ℕ) (name : String) : World :=
  { w with
    loadedAt := Function.update w.loadedAt i (some (w.inits name).length)
    unseen := Function.update w.unseen i ((w.unseen i).filter (· ≠ name)) }

/-- A load returns the record on disk, or fails. -/
theorem performDisk_load {i : ℕ} {name : String} {c : Choice} {w w' : World}
    {r : Except String SessionMetadata}
    (h : performDisk i (.loadMetadata name) c w = some (r, w')) :
    w' = w.loaded i name ∧
      ((w.metadata name = none ∧ ∃ e, r = .error e) ∨
        ∃ m, w.metadata name = some m ∧ (r = .ok m ∨ (c.ok = false ∧ ∃ e, r = .error e))) := by
  simp only [performDisk] at h
  split at h <;> cases h
  · next hnone => exact ⟨rfl, .inl ⟨hnone, _, rfl⟩⟩
  · next m hm =>
    refine ⟨rfl, .inr ⟨m, hm, ?_⟩⟩
    split
    · exact .inl rfl
    · next hok => exact .inr ⟨by simpa using hok, _, rfl⟩

/-- `start.lock` is taken when it is free, or not at all. -/
theorem performDisk_acquireStart {i : ℕ} {name : String} {c : Choice} {w w' : World} {r : Flock}
    (h : performDisk i (.acquireStartLock name) c w = some (r, w')) :
    (r = .held ∧ w.lockFree (w.startLock name) = true ∧
      w' = { w with startLock := Function.update w.startLock name (some i) }) ∨
    (r ≠ .held ∧ w' = w) := by
  simp only [performDisk] at h
  split at h <;> cases h
  · next hfree => exact .inl ⟨rfl, hfree, rfl⟩
  · next hheld _ _ _ =>
    refine .inr ⟨fun hr => ?_, rfl⟩
    cases hfree : w.lockFree (w.startLock name) <;> simp_all

/-- `status.lock` is taken when it is free, or not at all. -/
theorem performDisk_acquireStatus {i : ℕ} {name : String} {c : Choice} {w w' : World} {r : Flock}
    (h : performDisk i (.acquireStatusLock name) c w = some (r, w')) :
    (r = .held ∧ w.lockFree (w.statusLock name) = true ∧
      w' = { w with statusLock := Function.update w.statusLock name (some i) }) ∨
    (r ≠ .held ∧ w' = w) := by
  simp only [performDisk] at h
  split at h <;> cases h
  · next hfree => exact .inl ⟨rfl, hfree, rfl⟩
  · next hheld _ _ =>
    refine .inr ⟨fun hr => ?_, rfl⟩
    cases hfree : w.lockFree (w.statusLock name) <;> simp_all

/-- What holds of the threads and processes of every machine that runs the bridge. -/
structure Sound (w : World) : Prop where
  /-- The process that runs a thread exists. -/
  hosted : ∀ k p, w.life k = .live (.supervisor p) → w.process p ≠ .unborn
  /-- A thread that was not started owns nothing. -/
  unborn : ∀ k, w.life k = .unborn → w.owner k = none

/-- What every step keeps: processes only age, threads that cannot take a step
never will, and an owner keeps its session, its start, its generation and its child. -/
structure Ages (w w' : World) : Prop where
  process : ∀ p, w.process p ≠ .unborn → w'.process p = w.process p ∨ w'.process p = .dead
  alive : ∀ k, w.life k ≠ .unborn → w'.alive k = true → w.alive k = true
  born : ∀ k, w.life k ≠ .unborn → w'.life k ≠ .unborn
  owner : ∀ k o, w.owner k = some o →
    ∃ o', w'.owner k = some o' ∧ o'.name = o.name ∧ o'.start = o.start

/-- A world that is unchanged is no younger. -/
theorem Ages.refl (w : World) : w.Ages w :=
  ⟨fun _ _ => .inl rfl, fun _ _ => id, fun _ => id, fun _ o ho => ⟨o, ho, rfl, rfl⟩⟩

/-- A dead process stays dead. -/
theorem Ages.dead {w w' : World} (h : w.Ages w') {p : ℕ} (hp : w.process p = .dead) :
    w'.process p = .dead := by
  rcases h.process p (by simp [hp]) with hsame | hdead
  · rw [hsame, hp]
  · exact hdead

/-- A live thread was started. -/
theorem alive_ne_unborn {w : World} {i : ℕ} (h : w.alive i = true) : w.life i ≠ .unborn := by
  intro hunborn
  simp [World.alive, hunborn] at h

/-- A machine whose processes only age, and whose threads only end. -/
theorem ages_of_life {w w' : World} (howner : w'.owner = w.owner)
    (hlife : ∀ k, w'.life k = w.life k ∨ w'.life k = .gone)
    (hprocess : ∀ p, w'.process p = w.process p ∨ w'.process p = .dead)
    (hdaemon : w'.daemonUp = true → w.daemonUp = true) : w.Ages w' where
  process p _ := hprocess p
  alive k _ hk := by
    unfold World.alive at hk ⊢
    rcases hlife k with hsame | hgone
    · rw [hsame] at hk
      cases hlk : w.life k with
      | unborn => rw [hlk] at hk; cases hk
      | gone => rw [hlk] at hk; cases hk
      | live host =>
        rw [hlk] at hk
        cases host with
        | client => rfl
        | daemon => exact hdaemon hk
        | supervisor p =>
          simp only [hostAlive] at hk ⊢
          rcases hprocess p with hp | hp
          · rwa [hp] at hk
          · rw [hp] at hk
            cases hk
    · rw [hgone] at hk
      cases hk
  born k hk := by
    rcases hlife k with hsame | hgone
    · rwa [hsame]
    · rw [hgone]
      simp
  owner k o ho := ⟨o, by rw [howner]; exact ho, rfl, rfl⟩

/-- A signal kills one process or none. -/
theorem kill_cases (w : World) (pid p : ℕ) : w.kill pid p = w.process p ∨ w.kill pid p = .dead := by
  unfold kill
  split
  · by_cases hp : p = pid
    · subst hp
      exact .inr (Function.update_self ..)
    · exact .inl (Function.update_of_ne hp ..)
  · exact .inl rfl

/-- A signal starts no process. -/
theorem kill_ne_unborn (w : World) (pid : ℕ) {p : ℕ} (hp : w.process p ≠ .unborn) :
    w.kill pid p ≠ .unborn := by
  rcases kill_cases w pid p with hsame | hdead
  · rwa [hsame]
  · simp [hdead]

/-- A thread or a process came into being. -/
theorem ages_of_birth {w w' : World} (hsound : w.Sound) (hdaemon : w'.daemonUp = w.daemonUp)
    (hlife : ∀ k, w.life k ≠ .unborn → w'.life k = w.life k)
    (hprocess : ∀ p, w.process p ≠ .unborn → w'.process p = w.process p)
    (howner : ∀ k o, w.owner k = some o →
      ∃ o', w'.owner k = some o' ∧ o'.name = o.name ∧ o'.start = o.start) : w.Ages w' where
  process p hp := .inl (hprocess p hp)
  alive k hborn hk := by
    unfold World.alive at hk ⊢
    rw [hlife k hborn] at hk
    cases hlk : w.life k with
    | unborn => exact absurd hlk hborn
    | gone => rw [hlk] at hk; cases hk
    | live host =>
      rw [hlk] at hk
      cases host with
      | client => rfl
      | daemon => simpa only [hostAlive, hdaemon] using hk
      | supervisor p =>
        simpa only [hostAlive, hprocess p (hsound.hosted k p hlk)] using hk
  born k hk := by rwa [hlife k hk]
  owner := howner

/-- The owners after one of them learned or reached something. -/
theorem owner_map {w : World} {i : ℕ} {f : Ownership → Ownership}
    (hf : ∀ o, (f o).name = o.name ∧ (f o).start = o.start) (k : ℕ) (o : Ownership)
    (ho : w.owner k = some o) :
    ∃ o', Function.update w.owner i ((w.owner i).map f) k = some o' ∧ o'.name = o.name ∧
      o'.start = o.start := by
  by_cases hk : k = i
  · subst hk
    exact ⟨f o, by rw [Function.update_self, ho]; rfl, hf o⟩
  · exact ⟨o, by rw [Function.update_of_ne hk, ho], rfl, rfl⟩

/-- A thread that owns no run owns none later. -/
theorem owner_map_none {w : World} {i k : ℕ} (f : Ownership → Ownership) (ho : w.owner k = none) :
    Function.update w.owner i ((w.owner i).map f) k = none := by
  by_cases hk : k = i
  · subst hk
    rw [Function.update_self, ho]
    rfl
  · rwa [Function.update_of_ne hk]

/-- The owners after a thread that owned nothing was started as an owner. -/
theorem owner_birth {w : World} {j : ℕ} {o' : Option Ownership} (hsound : w.Sound)
    (hj : w.life j = .unborn) (k : ℕ) (o : Ownership) (ho : w.owner k = some o) :
    ∃ o'', Function.update w.owner j o' k = some o'' ∧ o''.name = o.name ∧
      o''.start = o.start := by
  have hk : k ≠ j := by
    rintro rfl
    rw [hsound.unborn k hj] at ho
    cases ho
  exact ⟨o, by rw [Function.update_of_ne hk, ho], rfl, rfl⟩

/-- Actions on records and locks only age a world. -/
theorem performDisk_ages {i : ℕ} {a : DiskAct} {c : Choice} {w w' : World} {r : a.Response}
    (h : performDisk i a c w = some (r, w')) : w.Ages w' := by
  have hmachine := performDisk_sameMachine h
  refine ⟨fun p _ => .inl (by rw [hmachine.process]), fun k _ hk => by rwa [hmachine.alive] at hk,
    fun k hk => by rwa [hmachine.life], fun k o ho => ?_⟩
  cases a
  case saveMetadata site m =>
    simp only [performDisk] at h
    split at h
    · cases h
      cases site
      case supervisor =>
        exact owner_map (f := fun o => { o with generation := some m.generation })
          (fun _ => ⟨rfl, rfl⟩) k o ho
      case promote =>
        exact owner_map (f := fun o => { o with promoted := true }) (fun _ => ⟨rfl, rfl⟩) k o ho
      all_goals exact ⟨o, ho, rfl, rfl⟩
    · cases h
      exact ⟨o, ho, rfl, rfl⟩
  all_goals
    simp only [performDisk] at h
    (try split at h) <;> cases h <;> exact ⟨o, ho, rfl, rfl⟩

/-- Actions on processes only age a world. -/
theorem performProcess_ages {i : ℕ} {a : ProcessAct} {c : Choice} {w w' : World} {r : a.Response}
    (hsound : w.Sound) (h : performProcess i a c w = some (r, w')) : w.Ages w' := by
  have hthread : ∀ {j : ℕ} {host : Host}, w.life j = .unborn → ∀ k, w.life k ≠ .unborn →
      w.spawnThread j host k = w.life k := by
    intro j host hj k hk
    refine Function.update_of_ne ?_ ..
    rintro rfl
    exact hk hj
  have hbirth : ∀ {pid t : ℕ}, w.process pid = .unborn → ∀ p, w.process p ≠ .unborn →
      Function.update w.process pid (.live t) p = w.process p := by
    intro pid t hpid p hp
    refine Function.update_of_ne ?_ ..
    rintro rfl
    exact hp hpid
  have hkill : ∀ {pid : ℕ}, w.Ages { w with process := w.kill pid } :=
    ages_of_life rfl (fun _ => .inl rfl) (kill_cases w _) id
  have hgone : ∀ {k : ℕ}, w.Ages { w with life := Function.update w.life k .gone } := by
    intro k
    refine ages_of_life rfl (fun j => ?_) (fun _ => .inl rfl) id
    by_cases hj : j = k
    · subst hj
      exact .inr (Function.update_self ..)
    · exact .inl (Function.update_of_ne hj ..)
  cases a
  case terminatePid pid =>
    simp only [performProcess] at h
    split at h <;> cases h
    · exact hkill
    · exact .refl w
  case childKill pid =>
    cases h
    split
    · exact ages_of_life rfl (fun _ => .inl rfl) (kill_cases w _) id
    · exact .refl w
  case spawnSupervisor name cwd cmd =>
    simp only [performProcess] at h
    split at h
    · split at h
      · next hfresh =>
        cases h
        exact ages_of_birth hsound rfl (hthread hfresh.1) (hbirth hfresh.2)
          (owner_birth hsound hfresh.1)
      · cases h
    · cases h
      exact .refl w
  case spawnOwner name cwd cmd clientPath generation =>
    simp only [performProcess] at h
    split at h
    · next hfresh =>
      cases h
      exact ages_of_birth hsound rfl (hthread hfresh) (fun _ _ => rfl) (owner_birth hsound hfresh)
    · cases h
  case spawnCommand command cwd path =>
    simp only [performProcess] at h
    split at h
    · split at h
      · next hfresh =>
        cases h
        exact ages_of_birth hsound rfl (fun _ _ => rfl) (hbirth hfresh)
          (owner_map fun _ => ⟨rfl, rfl⟩)
      · cases h
    · cases h
      exact .refl w
  case spawnCapture name pty rows cols =>
    simp only [performProcess] at h
    split at h
    · next hfresh =>
      cases h
      exact ages_of_birth hsound rfl (hthread hfresh) (fun _ _ => rfl)
        (fun k o ho => ⟨o, ho, rfl, rfl⟩)
    · cases h
  case spawnForward fifo pty =>
    simp only [performProcess] at h
    split at h
    · next hfresh =>
      cases h
      exact ages_of_birth hsound rfl (hthread hfresh) (fun _ _ => rfl)
        (fun k o ho => ⟨o, ho, rfl, rfl⟩)
    · cases h
  case leave =>
    cases h
    exact hgone
  case processExit =>
    simp only [performProcess] at h
    split at h <;> cases h
    · exact hgone
    · exact ages_of_life rfl (fun _ => .inl rfl) (fun _ => .inl rfl) (fun h => by cases h)
    · exact hkill
  all_goals
    simp only [performProcess] at h
    (try split at h) <;> cases h <;> exact .refl w

/-- The bytes of a FIFO are discarded only when no live thread reads it. -/
theorem disturb_discard {w w' : World} {fifo : ℕ} (h : w.disturb (.discard fifo) = some w') :
    w.hasReader fifo = false ∧
      w' = { w with files := { w.files with pipe := Function.update w.files.pipe fifo [] } } := by
  simp only [disturb] at h
  split at h <;> cases h
  next hreader => exact ⟨Bool.eq_false_iff.mpr hreader, rfl⟩

/-- Disturbances only age a world. -/
theorem disturb_ages {e : Disturbance} {w w' : World} (h : w.disturb e = some w') : w.Ages w' := by
  cases e with
  | clientKilled i =>
    simp only [disturb] at h
    split at h <;> cases h
    refine ages_of_life rfl (fun j => ?_) (fun _ => .inl rfl) id
    by_cases hj : j = i
    · subst hj
      exact .inr (Function.update_self ..)
    · exact .inl (Function.update_of_ne hj ..)
  | processDies pid =>
    cases h
    exact ages_of_life rfl (fun _ => .inl rfl) (kill_cases w _) id
  | print pty bytes =>
    cases h
    exact ages_of_life rfl (fun _ => .inl rfl) (fun _ => .inl rfl) id
  | discard fifo =>
    obtain ⟨-, rfl⟩ := disturb_discard h
    exact ages_of_life rfl (fun _ => .inl rfl) (fun _ => .inl rfl) id

/-- No disturbance revives a thread. -/
theorem disturb_alive {e : Disturbance} {w w' : World} (h : w.disturb e = some w') {k : ℕ}
    (hk : w'.alive k = true) : w.alive k = true := by
  refine (disturb_ages h).alive k (fun hunborn => ?_) hk
  have hlife : w'.life k = .unborn ∨ w'.life k = .gone := by
    cases e with
    | clientKilled i =>
      simp only [disturb] at h
      split at h <;> cases h
      by_cases hki : k = i
      · subst hki
        exact .inr (Function.update_self ..)
      · exact .inl ((Function.update_of_ne hki ..).trans hunborn)
    | processDies pid =>
      cases h
      exact .inl hunborn
    | print pty bytes =>
      cases h
      exact .inl hunborn
    | discard fifo =>
      obtain ⟨-, rfl⟩ := disturb_discard h
      exact .inl hunborn
  rcases hlife with hl | hl <;> simp [World.alive, hl] at hk

/-- No disturbance changes a record, a lock or an owner. -/
theorem disturb_sameDisk {e : Disturbance} {w w' : World} (h : w.disturb e = some w') :
    w.SameDisk w' ∧ w'.owner = w.owner := by
  cases e <;> simp only [disturb] at h <;> (try split at h) <;> cases h <;>
    exact ⟨⟨rfl, rfl, rfl, rfl, rfl, rfl⟩, rfl⟩

/-- Processes that age and threads that end keep a machine sound. -/
theorem Sound.of_life {w w' : World} (h : w.Sound)
    (hlife : ∀ k, w'.life k = w.life k ∨ w'.life k = .gone)
    (hprocess : ∀ p, w.process p ≠ .unborn → w'.process p ≠ .unborn)
    (howner : ∀ k, w.owner k = none → w'.owner k = none) : w'.Sound where
  hosted k p hk := by
    rcases hlife k with hsame | hgone
    · exact hprocess p (h.hosted k p (hsame ▸ hk))
    · rw [hgone] at hk
      cases hk
  unborn k hk := by
    rcases hlife k with hsame | hgone
    · exact howner k (h.unborn k (hsame ▸ hk))
    · rw [hgone] at hk
      cases hk

/-- A new thread of an existing process keeps a machine sound. -/
theorem Sound.of_spawn {w w' : World} (h : w.Sound) {j : ℕ} {host : Host}
    (hlife : w'.life = w.spawnThread j host)
    (hhost : ∀ p, host = .supervisor p → w'.process p ≠ .unborn)
    (hprocess : ∀ p, w.process p ≠ .unborn → w'.process p ≠ .unborn)
    (howner : ∀ k, k ≠ j → w.owner k = none → w'.owner k = none) : w'.Sound where
  hosted k p hk := by
    by_cases hj : k = j
    · subst hj
      rw [hlife, spawnThread, Function.update_self] at hk
      cases hk
      exact hhost p rfl
    · rw [hlife, spawnThread, Function.update_of_ne hj] at hk
      exact hprocess p (h.hosted k p hk)
  unborn k hk := by
    by_cases hj : k = j
    · subst hj
      rw [hlife, spawnThread, Function.update_self] at hk
      cases hk
    · rw [hlife, spawnThread, Function.update_of_ne hj] at hk
      exact howner k hj (h.unborn k hk)

/-- A supervisor's process was started. -/
theorem Sound.host {w : World} (h : w.Sound) {i p : ℕ} (hi : w.hostOf i = .supervisor p) :
    w.process p ≠ .unborn := by
  unfold hostOf at hi
  split at hi
  · next host hlife =>
    subst hi
    exact h.hosted i p hlife
  · cases hi

/-- Actions on processes keep a machine sound. -/
theorem performProcess_sound {i : ℕ} {a : ProcessAct} {c : Choice} {w w' : World} {r : a.Response}
    (hsound : w.Sound) (h : performProcess i a c w = some (r, w')) : w'.Sound := by
  have hkill : ∀ {pid : ℕ}, Sound { w with process := w.kill pid } := fun {pid} =>
    hsound.of_life (fun _ => .inl rfl) (fun _ => kill_ne_unborn w pid) fun _ => id
  have hgone : ∀ {k : ℕ}, Sound { w with life := Function.update w.life k .gone } := by
    intro k
    refine hsound.of_life (fun j => ?_) (fun _ => id) fun _ => id
    by_cases hj : j = k
    · subst hj
      exact .inr (Function.update_self ..)
    · exact .inl (Function.update_of_ne hj ..)
  have hborn : ∀ {pid t : ℕ} (p : ℕ), w.process p ≠ .unborn →
      Function.update w.process pid (.live t) p ≠ .unborn := by
    intro pid t p hp
    by_cases hpid : p = pid
    · subst hpid
      rw [Function.update_self]
      simp
    · rwa [Function.update_of_ne hpid]
  cases a
  case terminatePid pid =>
    simp only [performProcess] at h
    split at h <;> cases h
    · exact hkill
    · exact hsound
  case childKill pid =>
    cases h
    split
    · exact ⟨hkill.hosted, hsound.unborn⟩
    · exact hsound
  case spawnSupervisor name cwd cmd =>
    simp only [performProcess] at h
    split at h
    · split at h
      · cases h
        refine hsound.of_spawn rfl (fun p hp => ?_) hborn
          fun k hk ho => (Function.update_of_ne hk ..).trans ho
        cases hp
        simp
      · cases h
    · cases h
      exact hsound
  case spawnOwner name cwd cmd clientPath generation =>
    simp only [performProcess] at h
    split at h <;> cases h
    exact hsound.of_spawn rfl (fun p hp => hsound.host hp) (fun _ => id)
      fun k hk ho => (Function.update_of_ne hk ..).trans ho
  case spawnCommand command cwd path =>
    simp only [performProcess] at h
    split at h
    · split at h
      · cases h
        refine hsound.of_life (fun _ => .inl rfl) hborn fun k ho => ?_
        exact owner_map_none _ ho
      · cases h
    · cases h
      exact hsound
  case spawnCapture name pty rows cols =>
    simp only [performProcess] at h
    split at h <;> cases h
    exact hsound.of_spawn rfl (fun p hp => hsound.host hp) (fun _ => id) fun _ _ => id
  case spawnForward fifo pty =>
    simp only [performProcess] at h
    split at h <;> cases h
    exact hsound.of_spawn rfl (fun p hp => hsound.host hp) (fun _ => id) fun _ _ => id
  case leave =>
    cases h
    exact hgone
  case processExit =>
    simp only [performProcess] at h
    split at h <;> cases h
    · exact hgone
    · exact hsound.of_life (fun _ => .inl rfl) (fun _ => id) fun _ => id
    · exact hkill
  all_goals
    simp only [performProcess] at h
    (try split at h) <;> cases h <;> exact hsound

/-- Actions on records and locks keep a machine sound. -/
theorem performDisk_sound {i : ℕ} {a : DiskAct} {c : Choice} {w w' : World} {r : a.Response}
    (hsound : w.Sound) (h : performDisk i a c w = some (r, w')) : w'.Sound := by
  have hmachine := performDisk_sameMachine h
  refine hsound.of_life (fun k => .inl (by rw [hmachine.life]))
    (fun p hp => by rwa [hmachine.process]) fun k ho => ?_
  cases a
  case saveMetadata site m =>
    simp only [performDisk] at h
    split at h <;> cases h
    · cases site
      case supervisor => exact owner_map_none _ ho
      case promote => exact owner_map_none _ ho
      all_goals exact ho
    · exact ho
  all_goals
    simp only [performDisk] at h
    (try split at h) <;> cases h <;> exact ho

/-- Disturbances keep a machine sound. -/
theorem disturb_sound {e : Disturbance} {w w' : World} (hsound : w.Sound)
    (h : w.disturb e = some w') : w'.Sound := by
  cases e with
  | clientKilled i =>
    simp only [disturb] at h
    split at h <;> cases h
    refine hsound.of_life (fun j => ?_) (fun _ => id) fun _ => id
    by_cases hj : j = i
    · subst hj
      exact .inr (Function.update_self ..)
    · exact .inl (Function.update_of_ne hj ..)
  | processDies pid =>
    cases h
    exact hsound.of_life (fun _ => .inl rfl) (fun _ => kill_ne_unborn w pid) fun _ => id
  | print pty bytes =>
    cases h
    exact hsound.of_life (fun _ => .inl rfl) (fun _ => id) fun _ => id
  | discard fifo =>
    obtain ⟨-, rfl⟩ := disturb_discard h
    exact hsound.of_life (fun _ => .inl rfl) (fun _ => id) fun _ => id

/-- An action on FIFOs, logs, screens and PTYs changes nothing else. -/
theorem perform_file {i : ℕ} {a : FileAct} {c : Choice} {w w' : World} {r : a.Response}
    (h : perform i (.file a) c w = some (r, w')) :
    ∃ f, performFile i w a c w.files = some (r, f) ∧ w' = { w with files := f } := by
  simp only [perform, Option.map_eq_some_iff] at h
  obtain ⟨⟨r', f⟩, hperform, heq⟩ := h
  cases heq
  exact ⟨f, hperform, rfl⟩

/-- Files make a world no younger. -/
theorem ages_files (w : World) (f : Files) : w.Ages { w with files := f } :=
  ages_of_life rfl (fun _ => .inl rfl) (fun _ => .inl rfl) id

/-- Every action only ages a world. -/
theorem perform_ages {i : ℕ} {a : Act} {c : Choice} {w w' : World} {r : a.Response}
    (hsound : w.Sound) (h : perform i a c w = some (r, w')) : w.Ages w' := by
  cases a with
  | disk a => exact performDisk_ages h
  | process a => exact performProcess_ages hsound h
  | file a =>
    obtain ⟨f, -, rfl⟩ := perform_file h
    exact ages_files w f

/-- Every action keeps a machine sound. -/
theorem perform_sound {i : ℕ} {a : Act} {c : Choice} {w w' : World} {r : a.Response}
    (hsound : w.Sound) (h : perform i a c w = some (r, w')) : w'.Sound := by
  cases a with
  | disk a => exact performDisk_sound hsound h
  | process a => exact performProcess_sound hsound h
  | file a =>
    obtain ⟨f, -, rfl⟩ := perform_file h
    exact hsound.of_life (fun _ => .inl rfl) (fun _ => id) fun _ => id

/-- A thread that was started stays in its process until it ends. -/
theorem perform_life_born {i : ℕ} {a : Act} {c : Choice} {w w' : World} {r : a.Response}
    (h : perform i a c w = some (r, w')) {k : ℕ} (hk : w.life k ≠ .unborn) :
    w'.life k = w.life k ∨ w'.life k = .gone := by
  have hspawn : ∀ {j : ℕ} {host : Host}, w.life j = .unborn →
      w.spawnThread j host k = w.life k ∨ w.spawnThread j host k = .gone := by
    intro j host hj
    refine .inl (Function.update_of_ne ?_ ..)
    rintro rfl
    exact hk hj
  have hended : Function.update w.life i .gone k = w.life k ∨
      Function.update w.life i .gone k = .gone := by
    by_cases hki : k = i
    · subst hki
      exact .inr (Function.update_self ..)
    · exact .inl (Function.update_of_ne hki ..)
  cases a with
  | disk a => exact .inl (by rw [(performDisk_sameMachine h).life])
  | file a =>
    obtain ⟨f, -, rfl⟩ := perform_file h
    exact .inl rfl
  | process a =>
    cases a
    case spawnSupervisor name cwd cmd =>
      simp only [perform, performProcess] at h
      split at h
      · split at h <;> cases h
        next hfresh => exact hspawn hfresh.1
      · cases h
        exact .inl rfl
    case leave =>
      cases h
      exact hended
    case processExit =>
      simp only [perform, performProcess] at h
      split at h <;> cases h
      · exact hended
      · exact .inl rfl
      · exact .inl rfl
    case childKill pid =>
      cases h
      split <;> exact .inl rfl
    all_goals
      simp only [perform, performProcess] at h
      (try split at h) <;> (try split at h) <;> cases h <;>
        first | exact .inl rfl | (next hfresh => exact hspawn hfresh)

/-- A thread that comes into being was started by the action. -/
theorem perform_life {env : Env} {i : ℕ} {a : Act} {c : Choice} {w w' : World} {r : a.Response}
    (hi : w.alive i = true) (h : perform i a c w = some (r, w')) {k : ℕ} (hk : w.life k = .unborn)
    (hk' : w'.life k ≠ .unborn) : ∃ p, launched env a r = some (k, p) := by
  have hended : Function.update w.life i .gone k ≠ .unborn → w.life i = .unborn := by
    intro hne
    by_cases hki : k = i
    · rwa [← hki]
    · rw [Function.update_of_ne hki] at hne
      exact absurd hk hne
  have hspawn : ∀ {host : Host}, w.spawnThread c.thread host k ≠ .unborn → k = c.thread := by
    intro host hne
    by_contra hk''
    rw [spawnThread, Function.update_of_ne hk''] at hne
    exact hne hk
  cases a with
  | disk a => exact absurd hk (by rwa [(performDisk_sameMachine h).life] at hk')
  | file a =>
    obtain ⟨f, -, rfl⟩ := perform_file h
    exact absurd hk hk'
  | process a =>
    cases a
    case spawnSupervisor name cwd cmd =>
      simp only [perform, performProcess] at h
      split at h
      · split at h <;> cases h
        rw [hspawn hk']
        exact ⟨_, rfl⟩
      · cases h
        exact absurd hk hk'
    case spawnOwner name cwd cmd clientPath generation =>
      simp only [perform, performProcess] at h
      split at h <;> cases h
      rw [hspawn hk']
      exact ⟨_, rfl⟩
    case spawnCapture name pty rows cols =>
      simp only [perform, performProcess] at h
      split at h <;> cases h
      rw [hspawn hk']
      exact ⟨_, rfl⟩
    case spawnForward fifo pty =>
      simp only [perform, performProcess] at h
      split at h <;> cases h
      rw [hspawn hk']
      exact ⟨_, rfl⟩
    case leave =>
      cases h
      exact absurd (hended hk') (alive_ne_unborn hi)
    case processExit =>
      simp only [perform, performProcess] at h
      split at h <;> cases h
      · exact absurd (hended hk') (alive_ne_unborn hi)
      · exact absurd hk hk'
      · exact absurd hk hk'
    case childKill pid =>
      cases h
      split at hk' <;> exact absurd hk hk'
    all_goals
      simp only [perform, performProcess] at h
      (try split at h) <;> (try split at h) <;> cases h <;> exact absurd hk hk'

/-- A property of the live threads and of their ghost states. -/
def Threads {G : Type} (T : World → ℕ → G → Prop) (w : World) (γ : ℕ → G) : Prop :=
  ∀ k, w.alive k = true → T w k (γ k)

/-- A property of the live threads survives an action when the thread that acted
keeps it, the others keep it, and a new thread starts with it. -/
theorem threads_step (env : Env) {G : Type} {D : Discipline Act Act.Response G}
    {fresh : (a : Act) → G → a.Response → G} {T : World → ℕ → G → Prop} {w w' : World}
    {γ : ℕ → G} {i : ℕ} {a : Act} {c : Choice} {r : a.Response} (hsound : w.Sound)
    (hi : w.alive i = true) (h : perform i a c w = some (r, w')) (hT : Threads T w γ)
    (hself : T w i (γ i) → T w' i (D.post a (γ i) r))
    (hother : ∀ k, k ≠ i → w.alive k = true → T w k (γ k) → T w' k (γ k))
    (hfresh : ∀ k p, launched env a r = some (k, p) → T w' k (fresh a (γ i) r)) :
    Threads T w' (ghosts (bridge env) D fresh γ i a r) := by
  intro k hk
  rcases ghosts_cases (bridge env) D fresh γ i a r k with
    ⟨p, hlaunched, heq⟩ | ⟨rfl, heq⟩ | ⟨hne, heq⟩
  · rw [heq]
    exact hfresh k p hlaunched
  · rw [heq]
    exact hself (hT k hi)
  · rw [heq]
    by_cases hborn : w.life k = .unborn
    · obtain ⟨p, hlaunched⟩ := perform_life hi h hborn (alive_ne_unborn hk)
      rw [← heq, ghosts_launched (bridge env) D fresh γ i a r hlaunched]
      exact hfresh k p hlaunched
    · have halive := (perform_ages hsound h).alive k hborn hk
      exact hother k hne halive (hT k halive)

/-- What the live threads know survives an action, by what the thread that acted learns. -/
theorem threads_act (env : Env) {T : World → ℕ → Knowledge → Prop} {w w' : World}
    {γ : ℕ → Knowledge} {i : ℕ} {a : Act} {c : Choice} {r : a.Response} (hsound : w.Sound)
    (hi : w.alive i = true) (h : perform i a c w = some (r, w')) (hT : Threads T w γ)
    (hself : T w i (γ i) → T w' i (Knowledge.post a (γ i) r))
    (hother : ∀ k, k ≠ i → w.alive k = true → T w k (γ k) → T w' k (γ k))
    (hfresh : ∀ k p, launched env a r = some (k, p) → T w' k (Knowledge.fresh a (γ i) r)) :
    Threads T w' (ghosts (bridge env) Knowledge.protocol Knowledge.fresh γ i a r) :=
  threads_step env hsound hi h hT hself hother hfresh

/-- A property of the live threads survives a disturbance when every thread keeps it. -/
theorem threads_disturb {G : Type} {T : World → ℕ → G → Prop} {w w' : World} {γ : ℕ → G}
    {e : Disturbance} (h : w.disturb e = some w') (hT : Threads T w γ)
    (hkeep : ∀ k, w.alive k = true → T w k (γ k) → T w' k (γ k)) : Threads T w' γ := by
  intro k hk
  have halive := disturb_alive h hk
  exact hkeep k halive (hT k halive)

end World

end IgnibyteBridge
