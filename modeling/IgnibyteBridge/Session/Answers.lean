import IgnibyteBridge.Concurrency.Calls
import IgnibyteBridge.Session.Lifecycle
import IgnibyteBridge.Session.Cleanup
import IgnibyteBridge.Session.Delivery

/-!
# What starts and stops promise their callers

A start that reports success reports the run that it initialized itself, and a stop
that returned is final for every run that had been initialized when it was called.
Both are about runs in which no start saves its initial record between the load and
the save of an owner or a stop.
-/

namespace IgnibyteBridge

open Concurrency World Fallible

namespace World

variable {w w' : World} {γ : ℕ → Knowledge} {i k : ℕ} {a : Act} {c : Choice} {r : a.Response}

/-- No start saves its initial record between the load and the save of another writer. -/
def SavesFresh (w : World) (i : ℕ) (a : Act) (_ : Choice) : Prop := w.FreshSave i a

instance (w : World) (i : ℕ) (a : Act) (c : Choice) : Decidable (w.SavesFresh i a c) :=
  inferInstanceAs (Decidable (w.FreshSave i a))

/-- An action of a run of fresh saves, with what the protocol has established there. -/
def Lawful (w : World) (i : ℕ) (a : Act) (c : Choice) : Prop :=
  w.SavesFresh i a c ∧
    Licensed Knowledge.protocol (fun w γ => Excluded w γ ∧ Registered w γ ∧ w.Current) w i a

/-- In a run of fresh saves the record on disk is always of the last run. -/
theorem outlined_current {env : Env} {requests : ℕ → Option Request}
    {s : Config Act Act.Response ThreadResult World}
    (h : (bridge env).Reaches SavesFresh (boot env requests) s) :
    Outlined Knowledge.protocol Knowledge.Finished
      (fun w γ => Excluded w γ ∧ Registered w γ ∧ w.Current) s :=
  registered_of_reaches (X := fun w _ => w.Current)
    (fun hexcluded _ hJ hi hok hpre hperform => hJ.act hexcluded hi hok hpre hperform)
    (fun hJ hdisturb => hJ.disturb hdisturb) (current_fresh requests) h

/-- Nobody takes a `start.lock` from a thread that holds it. -/
theorem startLock_kept {n : String} (hexcluded : Excluded w γ) (hi : w.alive i = true)
    (hpre : Knowledge.pre a (γ i)) (h : perform i a c w = some (r, w')) (hk : k ≠ i)
    (halive : w.alive k = true) (hlock : w.startLock n = some k) : w'.startLock n = some k := by
  cases a with
  | process a =>
    rw [(performProcess_sameDisk h).startLock]
    exact hlock
  | file a =>
    obtain ⟨f, -, rfl⟩ := perform_file h
    exact hlock
  | disk a =>
    -- The thread is in the section of a start of `n`, whatever else it knows.
    let g : Knowledge := { start := some { name := n } }
    have hsection : InSection w k g := by
      refine ⟨fun _ _ hc => ?_, fun st hst _ => ?_, fun _ _ hc => ?_⟩
      · cases hc
      · cases hst
        exact hlock
      · cases hc
    have hexcluded' : Excluded w (Function.update γ k g) := by
      refine ⟨hexcluded.sound, hexcluded.filed, fun j hj => ?_⟩
      by_cases hjk : j = k
      · subst hjk
        rw [Function.update_self]
        exact hsection
      · rw [Function.update_of_ne hjk]
        exact hexcluded.threads j hj
    have hpre' : Knowledge.pre (.disk a) (Function.update γ k g i) := by
      rw [Function.update_of_ne (Ne.symm hk)]
      exact hpre
    have hkept := (hexcluded'.act_disk hi hpre' h).2.2.2 k hk halive
    rw [Function.update_self] at hkept
    exact (hkept hsection).start _ rfl rfl

/-- A start that may save an initial record is none of those that saved one. -/
theorem Registered.not_mem_inits (hJ : Registered w γ) {m : SessionMetadata}
    (h : (γ i).MayInitialize m) : i ∉ w.inits m.name := by
  obtain ⟨st, x, hst, -, -, -, -, huninitialized, -⟩ := h
  rw [hJ.inits]
  rintro ⟨st', hst', -, hinit⟩
  rw [hst] at hst'
  cases hst'
  exact hinit huninitialized

end World

/-! ## Starts -/

/-- `format_started_session`. -/
def formatStartedSession (metadata : SessionMetadata) : String :=
  let supervisor := (metadata.supervisorPid.map toString).getD "daemon"
  let child := (metadata.childPid.map toString).getD "unknown"
  s!"started session '{metadata.name}' (supervisor pid: {supervisor}, child pid: {child})\n"

/-- The line for a command that finished before it could be reported as running. -/
def ranToCompletion (name : String) (code : ℕ) : String :=
  s!"session '{name}' ran to completion (exit code {code})\n"

/-- `format_start_result`. -/
def formatStartResult (metadata : SessionMetadata) : String :=
  if metadata.status = .stopped then
    match metadata.exitCode with
    | some code => ranToCompletion metadata.name code
    | none => s!"session '{metadata.name}' finished\n"
  else formatStartedSession metadata

/-- The two start paths: the daemon's and the one of direct mode. -/
def startPath (env : Env) (viaDaemon : Bool) (name : String) (cwd : Option String) (cmd : String)
    (path : Option String) (rows cols : Option ℕ) : Result SessionMetadata :=
  if viaDaemon then startSessionInDaemon env name cwd cmd path rows cols
  else startSessionDetached env name cwd cmd rows cols

namespace Waiting

/-- The ghost state of a start's call: the session whose initial record it saved, until it
drops its `start.lock`. -/
def post : (a : Act) → Option String → a.Response → Option String
  | .disk (.saveMetadata .initial m), _, .ok _ => some m.name
  | .disk (.dropStartLock _), _, _ => none
  | _, g, _ => g

/-- What start `k` may rely on: the records that it then loads are of its own run. -/
def fact (k : ℕ) : (a : Act) → Option String → a.Response → Prop
  | .disk (.loadMetadata name), g, .ok m => m.name = name ∧ (g = some name → m.origin = k)
  | _, _, _ => True

/-- The discipline of a start's call. -/
def discipline (k : ℕ) : Discipline Act Act.Response (Option String) where
  pre _ _ := True
  fact := fact k
  post := post

/-- Start `k` initialized the latest run of its session, and holds `start.lock`. -/
def Latest (k : ℕ) (w : World) (g : Option String) : Prop :=
  ∀ n, g = some n → w.life k ≠ .unborn ∧
    (w.alive k = true → w.startLock n = some k ∧ (w.inits n).getLast? = some k)

variable {w w' : World} {k : ℕ}

/-- The actions that change neither what the call knows nor what that is about. -/
def aside : Act → Bool
  | .disk (.saveMetadata .initial _) => false
  | .disk (.dropStartLock _) => false
  | .disk (.acquireStartLock _) => false
  | _ => true

/-- An action aside of the discipline changes neither its notes nor what they speak of. -/
theorem aside_keeps {i : ℕ} {a : Act} {c : Choice} {r : a.Response} (ha : aside a = true)
    (h : perform i a c w = some (r, w')) :
    (∀ g, post a g r = g) ∧ w'.startLock = w.startLock ∧ w'.inits = w.inits := by
  cases a with
  | process a =>
    have hdisk := performProcess_sameDisk h
    exact ⟨fun _ => rfl, hdisk.startLock, hdisk.inits⟩
  | file a =>
    obtain ⟨f, -, rfl⟩ := perform_file h
    exact ⟨fun _ => rfl, rfl, rfl⟩
  | disk a =>
    cases a
    case acquireStartLock => cases ha
    case dropStartLock => cases ha
    case saveMetadata site m =>
      cases site
      case initial => cases ha
      all_goals
        rcases performDisk_save h with ⟨u, rfl, rfl⟩ | ⟨e, rfl, rfl⟩ <;>
          exact ⟨fun _ => rfl, rfl, rfl⟩
    all_goals
      simp only [World.perform, performDisk] at h
      (try split at h) <;> cases h <;> exact ⟨fun _ => rfl, rfl, rfl⟩

/-- Only the start that holds `start.lock` initializes a run. -/
theorem latest_kept {i : ℕ} {a : Act} {c : Choice} {r : a.Response} {g : Option String}
    {γ : ℕ → Knowledge} (hexcluded : Excluded w γ) (hi : w.alive i = true)
    (hpre : Knowledge.pre a (γ i)) (h : World.perform i a c w = some (r, w')) (hk : i ≠ k)
    (hJ : Latest k w g) : Latest k w' g := by
  intro n hg
  obtain ⟨hborn, hlatest⟩ := hJ n hg
  have hages := perform_ages hexcluded.sound h
  refine ⟨hages.born k hborn, fun halive' => ?_⟩
  have halive := hages.alive k hborn halive'
  obtain ⟨hlock, hlast⟩ := hlatest halive
  refine ⟨startLock_kept hexcluded hi hpre h (Ne.symm hk) halive hlock, ?_⟩
  rcases inits_cases hexcluded hi hpre h with hinits | ⟨m, -, hholder, -, rfl⟩
  · rw [hinits]
    exact hlast
  · have hn : n ≠ m.name := by
      rintro rfl
      rw [hlock] at hholder
      exact hk (Option.some.inj hholder).symm
    rw [show (w.save i .initial m).inits n = w.inits n from Function.update_of_ne hn ..]
    exact hlast

/-- The start's own actions keep what it relies on. -/
theorem latest_own {a : Act} {c : Choice} {r : a.Response} {g : Option String}
    {γ : ℕ → Knowledge} (hexcluded : Excluded w γ) (hk : w.alive k = true)
    (hpre : Knowledge.pre a (γ k)) (h : World.perform k a c w = some (r, w'))
    (hJ : Latest k w g) : Latest k w' (post a g r) := by
  have hborn' := (perform_ages hexcluded.sound h).born k (alive_ne_unborn hk)
  by_cases haside : aside a = true
  · obtain ⟨hpost, hlock, hinits⟩ := aside_keeps haside h
    rw [hpost]
    intro n hg
    refine ⟨hborn', fun _ => ?_⟩
    rw [hlock, hinits]
    exact (hJ n hg).2 hk
  · unfold aside at haside
    split at haside
    · next m =>
      rcases performDisk_save h with ⟨u, rfl, rfl⟩ | ⟨e, rfl, rfl⟩
      · intro n hg
        cases hg
        refine ⟨hborn', fun _ => ?_⟩
        obtain ⟨st, x, hst, hheld, hname, -⟩ : (γ k).MayInitialize m := by
          rcases hpre with ⟨-, -, hmay⟩ | ⟨c', -, hreplace⟩
          · exact hmay
          · exact hreplace.elim
        refine ⟨hname ▸ (hexcluded.threads k hk).start st hst hheld, ?_⟩
        change (Function.update w.inits m.name _ m.name).getLast? = some k
        rw [Function.update_self, List.getLast?_concat]
      · exact hJ
    · intro n hg
      cases hg
    · next name =>
      intro n hg
      refine ⟨hborn', fun _ => ?_⟩
      obtain ⟨hlock, hlast⟩ := (hJ n hg).2 hk
      rcases performDisk_acquireStart h with ⟨-, -, rfl⟩ | ⟨-, rfl⟩
      · refine ⟨?_, hlast⟩
        change Function.update w.startLock name (some k) n = some k
        by_cases hn : n = name
        · rw [hn, Function.update_self]
        · rw [Function.update_of_ne hn, hlock]
      · exact ⟨hlock, hlast⟩
    · exact absurd rfl haside

/-- A record that the start loads while it waits is of its own run. -/
theorem fact_holds {a : Act} {c : Choice} {r : a.Response} {g : Option String}
    (hfiled : w.Filed) (hcurrent : w.Current) (hk : w.alive k = true)
    (h : World.perform k a c w = some (r, w')) (hJ : Latest k w g) : fact k a g r := by
  unfold fact
  split
  · obtain ⟨-, ⟨-, e, hr⟩ | ⟨d, hd, hr | ⟨-, e, hr⟩⟩⟩ := performDisk_load h
    · cases hr
    · cases hr
      refine ⟨hfiled.name _ _ hd, fun hg => ?_⟩
      have hlast := ((hJ _ hg).2 hk).2
      rw [hcurrent _ _ hd] at hlast
      exact Option.some.inj hlast
    · cases hr
  · trivial

/-- What a start relies on holds in every run of fresh saves. -/
theorem upholds (env : Env) (k : ℕ) :
    System.Upholds (bridge env) Lawful k (discipline k) (Latest k) where
  own hJ hk hok _ h := by
    obtain ⟨-, γ, ⟨hexcluded, -, hcurrent⟩, hpre⟩ := hok
    exact ⟨fact_holds hexcluded.filed hcurrent hk h hJ, latest_own hexcluded hk hpre h hJ⟩
  other hJ hi halive hok h := by
    obtain ⟨-, γ, ⟨hexcluded, -, -⟩, hpre⟩ := hok
    exact latest_kept hexcluded halive hpre h hi hJ
  disturb hJ h := by
    obtain ⟨hdisk, -⟩ := disturb_sameDisk h
    intro n hg
    rw [hdisk.startLock, hdisk.inits]
    refine ⟨?_, fun halive => (hJ n hg).2 (disturb_alive h halive)⟩
    exact (disturb_ages h).born _ (hJ n hg).1

/-! ### The programs of a start -/

variable {α : Type} {g : Option String} {name : String}

/-- The record that a start of `name` reports. -/
structure Reported (k : ℕ) (name : String) (m : SessionMetadata) : Prop where
  name : m.name = name
  origin : m.origin = k
  outcome : m.status = .running ∨ m.status = .stopped ∧ m.exitCode = some 0

/-- A load that names the session the notes speak of is answered as they say. -/
theorem meets_loadMetadata {Q : SessionMetadata → Option String → Prop}
    {E : String → Option String → Prop}
    (hok : ∀ m, m.name = name → (g = some name → m.origin = k) → Q m g) (herror : ∀ e, E e g) :
    Meets (discipline k) Q E (loadMetadata name) g := by
  rw [loadMetadata, meets_bind]
  refine meets_sessionDir (fun _ => ?_) fun e _ => herror e
  rw [meets_bind, meets_disk]
  refine ⟨trivial, fun r hr => meets_try (fun m hm => ?_) fun e _ => herror e⟩
  subst hm
  exact hok m hr.1 hr.2

/-- A start may do anything that is not loading. -/
theorem meets_anything {p : Result α} (h : Performs (fun _ => True) p) :
    Meets (discipline k) (fun _ _ => True) (fun _ _ => True) p g :=
  h.meets (fun _ _ _ _ => trivial) (fun _ _ _ _ _ _ => trivial) trivial

/-- A polling start finds its own run. -/
theorem meets_pollRunning (n : ℕ) :
    Meets (discipline k) (fun x g' => g' = some name ∧ ∀ m, x = some m → Reported k name m)
      (fun _ _ => True) (pollRunning name n) (some name) := by
  induction n with
  | zero =>
    refine ⟨rfl, fun m hm => ?_⟩
    cases hm
  | succ n ih =>
    rw [pollRunning, meets_bind]
    refine meets_loadMetadata (fun m hname horigin => ?_) fun _ => trivial
    have hreported : (m.status = .running ∨ m.status = .stopped ∧ m.exitCode = some 0) →
        ∀ m', some m = some m' → Reported k name m' := by
      intro houtcome m' hm'
      cases hm'
      exact ⟨hname, horigin rfl, houtcome⟩
    split
    · next hstatus => exact ⟨rfl, hreported (.inl hstatus)⟩
    · next hstatus =>
      split
      · next hcode => exact ⟨rfl, hreported (.inr ⟨hstatus, hcode⟩)⟩
      · exact trivial
    · exact ih

/-- A start that waited reports its own run. -/
theorem meets_waitForRunningMetadata :
    Meets (discipline k) (fun m _ => Reported k name m) (fun _ _ => True)
      (waitForRunningMetadata name) (some name) := by
  rw [waitForRunningMetadata, meets_bind]
  refine Meets.mono (meets_pollRunning 50) (fun x g hx => ?_) fun _ _ => id
  obtain ⟨rfl, hreported⟩ := hx
  cases x with
  | some m => exact hreported m rfl
  | none =>
    simp only [meets_bind, meets_caught]
    refine meets_loadMetadata (fun m hname horigin => ?_) fun _ => trivial
    split
    · next hstatus => exact ⟨hname, horigin rfl, .inl hstatus⟩
    · next hstatus =>
      split
      · next hcode => exact ⟨hname, horigin rfl, .inr ⟨hstatus, hcode⟩⟩
      · exact trivial
    · rw [meets_bind]
      refine Meets.mono (meets_anything (outside_terminateRecorded (fun _ _ => trivial) _ _))
        (fun _ _ _ => ?_) fun _ _ => id
      rw [meets_bind]
      refine Meets.mono (meets_anything (outside_terminateRecorded (fun _ _ => trivial) _ _))
        (fun _ _ _ => ?_) fun _ _ => id
      rw [meets_bind, meets_caught]
      exact Meets.mono (meets_anything (performs_markStopped (fun _ _ => trivial) ..))
        (fun _ _ _ => trivial) fun _ _ _ => trivial

/-- A start that began its run waits for it. -/
theorem meets_beginRun (env : Env) (cwd cmd : String) (rows cols : Option ℕ) :
    Meets (discipline k) (fun _ g' => g' = some name) (fun _ _ => True)
      (beginRun env name cwd cmd rows cols) g := by
  rw [beginRun, meets_bind]
  refine Meets.mono (meets_anything (outside_bailIfRunning (fun _ _ => trivial) name))
    (fun _ g₁ _ => ?_) fun _ _ => id
  rw [initializeSessionFiles, meets_bind]
  refine Meets.mono (meets_anything (performs_sessionDir name)) (fun _ g₂ _ => ?_) fun _ _ => id
  rw [meets_bind]
  refine Meets.mono (meets_anything (performs_try _)) (fun command g₃ _ => ?_) fun _ _ => id
  rw [meets_bind]
  refine Meets.mono
    (meets_anything (performs_caught (performs_loadMetadata (fun _ _ => trivial) name)))
    (fun previous g₄ _ => ?_) fun _ _ => id
  simp only [meets_bind]
  refine Meets.mono (meets_anything (outside_createFiles (fun _ _ => trivial) env name))
    (fun _ g₅ _ => ?_) fun _ _ => id
  rw [saveMetadata, meets_bind]
  refine Meets.mono (meets_anything (performs_sessionDir _)) (fun _ g₆ _ => ?_) fun _ _ => id
  rw [meets_bind, meets_disk]
  refine ⟨trivial, fun r _ => meets_try (fun u hu => ?_) fun _ _ => trivial⟩
  subst hu
  rfl

/-- What a start's body reports is reported once the lock is dropped. -/
theorem meets_withStartLock {Q : α → Prop} {body : Result α}
    (hbody : ∀ g, Meets (discipline k) (fun x _ => Q x) (fun _ _ => True) body g) :
    Meets (discipline k) (fun x _ => Q x) (fun _ _ => True) (withStartLock name body) g := by
  rw [withStartLock, meets_bind, meets_disk]
  refine ⟨trivial, fun r _ => ?_⟩
  cases r with
  | held =>
    simp only [meets_bind, meets_caught]
    refine Meets.mono (hbody _) (fun x g' hx => ?_) fun e g' _ => ?_
    · refine ⟨trivial, fun _ _ => meets_try (fun y hy => ?_) fun _ _ => trivial⟩
      cases hy
      exact hx
    · refine ⟨trivial, fun _ _ => meets_try (fun y hy => ?_) fun _ _ => trivial⟩
      cases hy
  | _ => trivial

/-- What both start paths do before they take `start.lock`. -/
theorem meets_prepared {Q : α → Option String → Prop} {cwd : Option String}
    {body : String → Result α}
    (hbody : ∀ cwd g, Meets (discipline k) Q (fun _ _ => True) (body cwd) g) :
    Meets (discipline k) Q (fun _ _ => True) (do
      sessionDir name
      let cwd ← try_ (← proc (.resolveCwd cwd))
      try_ (← disk (.ensureBridgeDir name))
      body cwd) g := by
  rw [meets_bind]
  refine Meets.mono (meets_anything (performs_sessionDir name)) (fun _ g₁ _ => ?_) fun _ _ => id
  rw [meets_bind]
  refine Meets.mono (meets_anything (performs_proc trivial)) (fun _ g₂ _ => ?_) fun _ _ => id
  rw [meets_bind]
  refine Meets.mono (meets_anything (performs_try _)) (fun cwd g₃ _ => ?_) fun _ _ => id
  rw [meets_bind]
  refine Meets.mono (meets_anything (performs_disk trivial)) (fun _ g₄ _ => ?_) fun _ _ => id
  rw [meets_bind]
  exact Meets.mono (meets_anything (performs_try _)) (fun _ g₅ _ => hbody cwd g₅) fun _ _ => id

/-- Both start paths report the run that they initialized. -/
theorem meets_startPath (env : Env) (viaDaemon : Bool) (cwd : Option String) (cmd : String)
    (path : Option String) (rows cols : Option ℕ) :
    Meets (discipline k) (fun m _ => Reported k name m) (fun _ _ => True)
      (startPath env viaDaemon name cwd cmd path rows cols) g := by
  unfold startPath
  split
  · refine meets_prepared fun cwd g => meets_withStartLock fun g => ?_
    rw [meets_bind]
    refine Meets.mono (meets_beginRun env cwd cmd rows cols) (fun n g' hg' => ?_) fun _ _ => id
    subst hg'
    rw [meets_bind, meets_proc]
    exact ⟨trivial, fun _ _ => meets_waitForRunningMetadata⟩
  · refine meets_prepared fun cwd g => meets_withStartLock fun g => ?_
    rw [meets_bind]
    refine Meets.mono (meets_beginRun env cwd cmd rows cols) (fun n g' hg' => ?_) fun _ _ => id
    subst hg'
    rw [meets_bind, meets_proc]
    refine ⟨trivial, fun located _ => ?_⟩
    rw [meets_bind]
    refine meets_ensure (fun _ => ?_) fun _ => trivial
    rw [meets_bind, meets_proc]
    refine ⟨trivial, fun spawned _ => ?_⟩
    rw [meets_bind]
    exact meets_orThrow (fun _ _ => meets_waitForRunningMetadata) fun _ => trivial

end Waiting

/-- Calls of a run of fresh saves act lawfully. -/
theorem calls_lawful {env : Env} {requests : ℕ → Option Request}
    {s t : Config Act Act.Response ThreadResult World} {k : ℕ} {β : Type} {p : Prog β}
    {log : List Did} {x : β} (hreach : (bridge env).Reaches SavesFresh (boot env requests) s)
    (hcall : (bridge env).Calls SavesFresh k s p log x t) :
    (bridge env).Calls Lawful k s p log x t :=
  hcall.licensed fun _ hrun => outlined_current (hreach.trans hrun)

/-- **A start reports its own run.** In a run of fresh saves, the record that a start returns
is of the run that this very start initialized. It is Running, or Stopped with exit code 0, and
the reply is the line for the one or for the other. -/
theorem start_reports_own_run (env : Env) (requests : ℕ → Option Request)
    {s t : Config Act Act.Response ThreadResult World} {k : ℕ} {viaDaemon : Bool}
    {name cmd : String} {cwd path : Option String} {rows cols : Option ℕ} {log : List Did}
    {m : SessionMetadata} {after : Except String SessionMetadata → Prog ThreadResult}
    (hreach : (bridge env).Reaches SavesFresh (boot env requests) s)
    (hthread : s.thread k =
      (startPath env viaDaemon name cwd cmd path rows cols).run >>= after)
    (hcall : (bridge env).Calls SavesFresh k s
      (startPath env viaDaemon name cwd cmd path rows cols).run log (.ok m) t) :
    m.name = name ∧ m.origin = k ∧
      (m.status = .running ∧ formatStartResult m = formatStartedSession m ∨
        m.status = .stopped ∧ m.exitCode = some 0 ∧
          formatStartResult m = ranToCompletion name 0) := by
  have hfollows : (startPath env viaDaemon name cwd cmd path rows cols).run.Follows
      (Waiting.discipline k) (fun x _ => ∀ m, x = .ok m → Waiting.Reported k name m) none := by
    rw [follows_run]
    refine Meets.mono (Waiting.meets_startPath env viaDaemon cwd cmd path rows cols)
      (fun m _ hm m' hm' => ?_) fun e _ _ m' hm' => ?_
    · cases hm'
      exact hm
    · cases hm'
  have hstart : Waiting.Latest k s.world none := fun n hn => by cases hn
  obtain ⟨g, -, hreported⟩ := (calls_lawful hreach hcall).returns (Waiting.upholds env k)
    (fun halive h => launched_ne_self halive h) hthread hfollows hstart
  obtain ⟨hname, horigin, houtcome⟩ := hreported m rfl
  refine ⟨hname, horigin, ?_⟩
  rcases houtcome with hrunning | ⟨hstopped, hcode⟩
  · left
    refine ⟨hrunning, ?_⟩
    simp [formatStartResult, hrunning]
  · right
    refine ⟨hstopped, hcode, ?_⟩
    rw [formatStartResult, if_pos hstopped, hcode, hname]

/-- A request that was answered without an error is a call that returned a value. -/
theorem exists_calls_of_reply {env : Env} {ok : World → ℕ → Act → Choice → Prop} {k : ℕ} {α : Type}
    {p : Result α} {s t : Config Act Act.Response ThreadResult World} {log : List Did}
    (h : (bridge env).Traced ok k s log t) (hs : s.thread k = reply p)
    (ht : t.thread k = .done (.replied (.ok ()))) :
    ∃ first x u rest, (bridge env).Calls ok k s p.run first (.ok x) u ∧
      (bridge env).Traced ok k u rest t := by
  obtain ⟨first, rest, x, u, -, hcall, hrest, hleads⟩ :=
    h.returned (fun halive h => launched_ne_self halive h) hs (by rw [ht]; rfl)
  refine ⟨first, ?_⟩
  cases x with
  | ok x => exact ⟨x, u, rest, hcall, hrest⟩
  | error e =>
    rw [ht] at hleads
    cases hleads with
    | act hdone => cases hdone

/-- The reply of a start that is served by the daemon. -/
theorem start_reports_own_run_served :
    ∃ log m t, (bridge plainEnv).Calls SavesFresh 0 (boot plainEnv (served [startDemo true]))
        (startPath plainEnv true "demo" none "cat" none none none).run log (.ok m) t ∧
      m.name = "demo" ∧ m.origin = 0 ∧
      (m.status = .running ∧ formatStartResult m = formatStartedSession m ∨
        m.status = .stopped ∧ m.exitCode = some 0 ∧
          formatStartResult m = ranToCompletion "demo" 0) := by
  have hrun : ((bridge plainEnv).trace (fun w i a c => decide (w.SavesFresh i a c)) 0
      (steps 0 13 ++ [.run 0 { thread := 2 }] ++ steps 2 2 ++
        [.run 2 { pid := 7, startTime := 100 }] ++ steps 2 12 ++ steps 0 3)
      (boot plainEnv (served [startDemo true]))).any (fun e => repliedOk e.2 0) = true := by
    decide +kernel
  obtain ⟨⟨log, t⟩, htrace, hreplied⟩ := (Option.any_eq_true _ _).mp hrun
  have htraced : (bridge plainEnv).Traced SavesFresh 0 _ log t :=
    (System.traced_of_trace htrace).mono fun _ _ _ _ => of_decide_eq_true
  obtain ⟨first, m, u, rest, hcall, -⟩ := exists_calls_of_reply
    (p := startPath plainEnv true "demo" none "cat" none none none) htraced rfl
    (replied_of_test hreplied)
  exact ⟨first, m, u, hcall, start_reports_own_run plainEnv _ .refl rfl hcall⟩

/-! ## Stops -/

/-- No run of a list is recorded as anything but Stopped. -/
def World.Quelled (w : World) (n : String) (runs : List ℕ) : Prop :=
  ∀ d, w.metadata n = some d → d.origin ∈ runs → d.status = .stopped

/-- The ghost state of a stop's call. -/
structure Errand where
  /-- The generation that it found. -/
  found : Option ℕ := none
  /-- It saw that nothing is left to stop, or marked the run Stopped. -/
  settled : Bool := false

namespace Errand

/-- What a stop learns. -/
def post : (a : Act) → Errand → a.Response → Errand
  | .disk (.loadMetadata _), g, .ok m =>
    { found := some (g.found.getD m.generation)
      settled := g.settled || decide (m.status = .stopped) ||
        g.found.any (fun generation => m.generation ≠ generation) }
  | .disk (.saveMetadata _ _), g, .ok _ => { g with settled := true }
  | _, g, _ => g

/-- A stop touches one session, and saves only Stopped records. -/
def pre (n : String) : Act → Errand → Prop
  | .disk (.loadMetadata name), _ => name = n
  | .disk (.saveMetadata _ m), _ => m.name = n ∧ m.status = .stopped
  | _, _ => True

/-- What a stop may rely on. -/
def fact : (a : Act) → Errand → a.Response → Prop
  | .disk (.loadMetadata name), _, .ok m => m.name = name
  | _, _, _ => True

/-- The discipline of a stop's call. -/
def discipline (n : String) : Discipline Act Act.Response Errand where
  pre := pre n
  fact := fact
  post := post

/-- What a stop knows of the runs that had been initialized when it was called: while the
record on disk is of one of them, it has the generation that the stop found. -/
structure Sees (n : String) (runs : List ℕ) (w : World) (g : Errand) : Prop where
  initialized : runs <+: w.inits n
  found : ∀ generation, g.found = some generation →
    ∀ d, w.metadata n = some d → d.origin ∈ runs → d.generation = generation
  settled : g.settled = true → w.Quelled n runs

variable {w w' : World} {γ : ℕ → Knowledge} {i k : ℕ} {n : String} {runs : List ℕ} {g : Errand}

/-- The record on disk of one of the runs was there before, with the same generation, or
replaces one of the same run and generation that was. -/
theorem exists_before {a : Act} {c : Choice} {r : a.Response} (hexcluded : Excluded w γ)
    (hregistered : Registered w γ) (hi : w.alive i = true) (hfresh : w.FreshSave i a)
    (hpre : Knowledge.pre a (γ i)) (h : World.perform i a c w = some (r, w'))
    (hsub : runs <+: w.inits n) {d : SessionMetadata} (hd : w'.metadata n = some d)
    (hmem : d.origin ∈ runs) :
    ∃ d₀, w.metadata n = some d₀ ∧ d₀.origin = d.origin ∧ d₀.generation = d.generation ∧
      (d₀.status = .stopped → d.status = .stopped) := by
  rcases records_cases h with ⟨-, hmetadata, -⟩ | ⟨site, m, rfl, -, rfl⟩
  · exact ⟨d, hmetadata ▸ hd, rfl, rfl, id⟩
  · cases savedRecord hpre hd with
    | other before name => exact ⟨d, before, rfl, rfl, id⟩
    | initial first init origin name =>
      -- The start that saves it had initialized no run before.
      subst name
      rw [origin] at hmem
      exact absurd (hsub.subset hmem) (hregistered.not_mem_inits init)
    | replaced c' record later locked replace name =>
      subst record name
      obtain ⟨hname, -, hgeneration, horigin⟩ := replace.keeps
      exact ⟨c', hfresh.disk hexcluded hi later locked hname, horigin.symm, hgeneration.symm,
        replace.advances.stopped⟩

/-- No action revives a run. -/
theorem quelled_act {a : Act} {c : Choice} {r : a.Response} (hexcluded : Excluded w γ)
    (hregistered : Registered w γ) (hi : w.alive i = true) (hfresh : w.FreshSave i a)
    (hpre : Knowledge.pre a (γ i)) (h : World.perform i a c w = some (r, w'))
    (hsub : runs <+: w.inits n) (hJ : w.Quelled n runs) : w'.Quelled n runs := by
  intro d hd hmem
  obtain ⟨d₀, hd₀, horigin, -, hstopped⟩ :=
    exists_before hexcluded hregistered hi hfresh hpre h hsub hd hmem
  exact hstopped (hJ d₀ hd₀ (horigin ▸ hmem))

/-- What a stop knows stays true, whoever acts. -/
theorem sees_act {a : Act} {c : Choice} {r : a.Response} (hok : w.Lawful i a c)
    (hi : w.alive i = true) (h : World.perform i a c w = some (r, w')) (hJ : Sees n runs w g) :
    Sees n runs w' g := by
  obtain ⟨hfresh, γ, ⟨hexcluded, hregistered, -⟩, hpre⟩ := hok
  have hinits := perform_inits hexcluded hi hpre h n
  refine ⟨hJ.initialized.trans hinits, fun generation hfound d hd hmem => ?_, fun hsettled => ?_⟩
  · obtain ⟨d₀, hd₀, horigin, hgeneration, -⟩ :=
      exists_before hexcluded hregistered hi hfresh hpre h hJ.initialized hd hmem
    rw [← hgeneration]
    exact hJ.found generation hfound d₀ hd₀ (horigin ▸ hmem)
  · exact quelled_act hexcluded hregistered hi hfresh hpre h hJ.initialized (hJ.settled hsettled)

/-- A record that a stop loads tells it whether there is something left to stop. -/
theorem sees_load {m : SessionMetadata} {w' : World} (hm : w.metadata n = some m)
    (hmetadata : w'.metadata = w.metadata) (hinits : w'.inits = w.inits) (hJ : Sees n runs w g) :
    Sees n runs w' (post (.disk (.loadMetadata n)) g (.ok m)) := by
  refine ⟨hinits ▸ hJ.initialized, fun generation hfound d hd hmem => ?_, fun hsettled => ?_⟩
  · rw [hmetadata] at hd
    cases hg : g.found with
    | some generation' =>
      simp only [post, hg, Option.getD_some, Option.some.injEq] at hfound
      exact hfound ▸ hJ.found generation' hg d hd hmem
    | none =>
      simp only [post, hg, Option.getD_none, Option.some.injEq] at hfound
      rw [hm] at hd
      cases hd
      exact hfound
  · unfold World.Quelled
    rw [hmetadata]
    simp only [post, Bool.or_eq_true, decide_eq_true_eq] at hsettled
    rcases hsettled with (hsettled | hstopped) | hother
    · exact hJ.settled hsettled
    · intro d hd _
      rw [hm] at hd
      cases hd
      exact hstopped
    · -- A record of another generation is of a later run.
      obtain ⟨generation, hfound, hne⟩ := (Option.any_eq_true _ _).mp hother
      intro d hd hmem
      rw [hm] at hd
      cases hd
      exact absurd (hJ.found generation hfound m hm hmem) (of_decide_eq_true hne)

/-- A stop that marked the run Stopped has settled it. -/
theorem sees_save {site : Site} {m : SessionMetadata} (hname : m.name = n)
    (hstopped : m.status = .stopped) (hJ : Sees n runs (w.save k site m) g) :
    Sees n runs (w.save k site m) { g with settled := true } := by
  refine ⟨hJ.initialized, hJ.found, fun _ d hd _ => ?_⟩
  rw [← hname] at hd
  simp only [World.save, Function.update_self, Option.some.injEq] at hd
  rw [← hd]
  cases site <;> exact hstopped

/-- A stop's own actions keep what it knows, and add to it. -/
theorem sees_own {a : Act} {c : Choice} {r : a.Response} (hok : w.Lawful k a c)
    (hk : w.alive k = true) (hpre : pre n a g) (h : World.perform k a c w = some (r, w'))
    (hJ : Sees n runs w g) : Sees n runs w' (post a g r) := by
  have hkept := sees_act hok hk h hJ
  unfold post
  split
  · obtain ⟨rfl, ⟨-, e, hr⟩ | ⟨d, hd, hr | ⟨-, e, hr⟩⟩⟩ := performDisk_load h
    · cases hr
    · cases hr
      obtain rfl := hpre
      exact sees_load hd rfl rfl hJ
    · cases hr
  · rcases performDisk_save h with ⟨u, -, rfl⟩ | ⟨e, hr, -⟩
    · exact sees_save hpre.1 hpre.2 hkept
    · cases hr
  · exact hkept

/-- Every record lies under its name. -/
theorem fact_holds {a : Act} {c : Choice} {r : a.Response} (hfiled : w.Filed)
    (h : World.perform k a c w = some (r, w')) : fact a g r := by
  unfold fact
  split
  · obtain ⟨-, ⟨-, e, hr⟩ | ⟨d, hd, hr | ⟨-, e, hr⟩⟩⟩ := performDisk_load h
    · cases hr
    · cases hr
      exact hfiled.name _ _ hd
    · cases hr
  · trivial

/-- What a stop knows holds in every run of fresh saves. -/
theorem upholds (env : Env) (k : ℕ) (n : String) (runs : List ℕ) :
    System.Upholds (bridge env) Lawful k (discipline n) (Sees n runs) where
  own hJ hk hok hpre h := by
    obtain ⟨-, γ, ⟨hexcluded, -⟩, -⟩ := id hok
    exact ⟨fact_holds hexcluded.filed h, sees_own hok hk hpre h hJ⟩
  other hJ _ halive hok h := sees_act hok halive h hJ
  disturb hJ h := by
    obtain ⟨hdisk, -⟩ := disturb_sameDisk h
    refine ⟨hdisk.inits ▸ hJ.initialized, fun generation hfound => ?_, fun hsettled d hd => ?_⟩
    · rw [hdisk.metadata]
      exact hJ.found generation hfound
    · exact hJ.settled hsettled d (hdisk.metadata ▸ hd)

/-! ### The program of a stop -/

variable {α : Type}

/-- A load of the session's record is what the errand notes. -/
theorem meets_loadMetadata {Q : SessionMetadata → Errand → Prop}
    (hok : ∀ m, m.name = n → Q m (post (.disk (.loadMetadata n)) g (.ok m))) :
    Meets (discipline n) Q (fun _ _ => True) (loadMetadata n) g := by
  rw [loadMetadata, meets_bind]
  refine meets_sessionDir (fun _ => ?_) fun _ _ => trivial
  rw [meets_bind, meets_disk]
  refine ⟨rfl, fun r hr => meets_try (fun m hm => ?_) fun _ _ => trivial⟩
  subst hm
  exact hok m hr

/-- Signals teach a stop nothing of the record. -/
theorem meets_signalRecorded {kind : String} {pid startTime : Option ℕ}
    {Q : List String → Errand → Prop} (hQ : ∀ errors, Q errors g) :
    Meets (discipline n) Q (fun _ _ => True) (signalRecorded kind pid startTime) g := by
  unfold signalRecorded
  rw [meets_bind, meets_proc]
  refine ⟨trivial, fun ours _ => ?_⟩
  cases ours with
  | false => exact hQ []
  | true =>
    cases pid with
    | none => exact hQ []
    | some pid =>
      simp only [ite_true, meets_bind]
      rw [meets_proc]
      exact ⟨trivial, fun r _ => hQ _⟩

/-- Taking the lock around a body that settles the errand settles it. -/
theorem meets_withStatusLock {body : Result Unit}
    (hbody : Meets (discipline n) (fun _ g' => g'.settled = true) (fun _ _ => True) body g) :
    Meets (discipline n) (fun _ g' => g'.settled = true) (fun _ _ => True)
      (withStatusLock n body) g := by
  rw [withStatusLock, meets_bind, meets_disk]
  refine ⟨trivial, fun r _ => ?_⟩
  cases r with
  | held =>
    simp only [meets_bind, meets_caught]
    refine Meets.mono hbody (fun x g' hsettled => ⟨trivial, fun _ _ => ?_⟩)
      fun e g' _ => ⟨trivial, fun _ _ => ?_⟩
    · exact meets_try (fun _ _ => hsettled) fun _ _ => trivial
    · refine meets_try (fun y hy => ?_) fun _ _ => trivial
      cases hy
  | _ => trivial

/-- A stop that marks the run it found settles it, or finds it settled. -/
theorem meets_markStopped {exitStatus : Option String} {exitCode : Option ℕ} {generation : ℕ}
    {by_ : Stopper} (hfound : g.found = some generation) :
    Meets (discipline n) (fun _ g' => g'.settled = true) (fun _ _ => True)
      (markStopped n exitStatus exitCode (some generation) by_) g := by
  rw [markStopped, meets_bind]
  refine meets_sessionDir (fun _ => meets_withStatusLock ?_) fun _ _ => trivial
  rw [meets_bind]
  refine meets_loadMetadata fun m hname => ?_
  split
  · next hother =>
    rw [meets_pure]
    simp only [post, hfound, Bool.or_eq_true]
    exact .inr hother
  · split
    · next hstopped =>
      rw [meets_pure]
      simp [post, hstopped]
    · rw [saveMetadata, meets_bind]
      refine meets_sessionDir (fun _ => ?_) fun _ _ => trivial
      rw [meets_bind, meets_disk]
      refine ⟨⟨hname, rfl⟩, fun r _ => meets_try (fun u hu => ?_) fun _ _ => trivial⟩
      subst hu
      rfl

/-- A stop that succeeds has settled the run that it found. -/
theorem meets_stopSessionSilent :
    Meets (discipline n) (fun _ g' => g'.settled = true) (fun _ _ => True)
      (stopSessionSilent n) {} := by
  rw [stopSessionSilent, meets_bind]
  refine meets_sessionDir (fun _ => ?_) fun _ _ => trivial
  rw [meets_bind]
  refine meets_loadMetadata fun m _ => ?_
  split
  · next hstopped =>
    rw [meets_pure]
    simp [post, hstopped]
  · rw [meets_bind]
    refine meets_signalRecorded fun childErrors => ?_
    rw [meets_bind]
    refine meets_signalRecorded fun supervisorErrors => ?_
    split
    · exact meets_markStopped rfl
    · trivial

end Errand

/-- **A stop is final.** In a run of fresh saves, once a stop has returned without an error, no
run that had been initialized when it was called is ever recorded as anything but Stopped,
whatever owners, timeouts and other starts of the name are doing. -/
theorem stop_is_final (env : Env) (requests : ℕ → Option Request)
    {s t u : Config Act Act.Response ThreadResult World} {k : ℕ} {name : String}
    {log : List Did} {after : Except String Unit → Prog ThreadResult} {d : SessionMetadata}
    (hreach : (bridge env).Reaches SavesFresh (boot env requests) s)
    (hthread : s.thread k = (stopSessionSilent name).run >>= after)
    (hcall : (bridge env).Calls SavesFresh k s (stopSessionSilent name).run log (.ok ()) t)
    (hrun : (bridge env).Reaches SavesFresh t u) (hd : u.world.metadata name = some d)
    (hd' : d.origin ∈ s.world.inits name) : d.status = .stopped := by
  have hfollows : (stopSessionSilent name).run.Follows (Errand.discipline name)
      (fun x g => x = .ok () → g.settled = true) {} := by
    rw [follows_run]
    refine Meets.mono Errand.meets_stopSessionSilent (fun _ g hsettled _ => hsettled)
      fun e g _ he => ?_
    cases he
  have hstart : Errand.Sees name (s.world.inits name) s.world {} := by
    refine ⟨List.prefix_refl _, fun _ hfound => ?_, fun hsettled => ?_⟩
    · cases hfound
    · cases hsettled
  obtain ⟨g, hsees, hsettled⟩ := (calls_lawful hreach hcall).returns
    (Errand.upholds env k name (s.world.inits name)) (fun halive h => launched_ne_self halive h)
    hthread hfollows hstart
  have hlater := hrun.licensed fun v hv =>
    outlined_current (hreach.trans (hcall.traced.reaches.trans hv))
  have hfinal := hlater.stable (I := fun w => Errand.Sees name (s.world.inits name) w g)
    (fun hw halive hok h => Errand.sees_act hok halive h hw)
    (fun hw h => (Errand.upholds env k name _).disturb hw h) hsees
  exact hfinal.settled (hsettled rfl) d hd hd'

/-- A thread that did nothing is where it was. -/
theorem thread_of_traced_nil {env : Env} {ok : World → ℕ → Act → Choice → Prop} {k : ℕ}
    {s t : Config Act Act.Response ThreadResult World}
    (h : (bridge env).Traced ok k s [] t) : t.thread k = s.thread k := by
  have hleads := h.leads fun halive h => launched_ne_self halive h
  generalize s.thread k = p at hleads ⊢
  generalize t.thread k = q at hleads ⊢
  cases hleads
  rfl

/-- A stop of a session that is Running. -/
theorem stop_is_final_running :
    ∃ (s t u : Config Act Act.Response ThreadResult World) (log : List Did) (d : SessionMetadata),
      (bridge plainEnv).Calls SavesFresh 1 s (stopSessionSilent "demo").run log (.ok ()) t ∧
      (bridge plainEnv).Reaches SavesFresh t u ∧
      s.world.metadata "demo" ≠ u.world.metadata "demo" ∧
      u.world.metadata "demo" = some d ∧ d.origin ∈ s.world.inits "demo" ∧
      d.status = .stopped := by
  have hrun : ((bridge plainEnv).trace (fun w i a c => decide (w.SavesFresh i a c)) 1
      (steps 0 13 ++ [.run 0 { thread := 2 }] ++ steps 2 2 ++
        [.run 2 { pid := 7, startTime := 100 }] ++ steps 2 12)
      (boot plainEnv (served [startDemo true, stopDemo]))).any (fun e => e.1.isEmpty &&
        ((bridge plainEnv).trace (fun w i a c => decide (w.SavesFresh i a c)) 1 (steps 1 9) e.2).any
          fun e' => repliedOk e'.2 1 &&
            decide (e.2.world.metadata "demo" ≠ e'.2.world.metadata "demo") &&
            (e'.2.world.metadata "demo").any fun d => d.origin ∈ e.2.world.inits "demo") =
          true := by
    decide +kernel
  obtain ⟨⟨log, s⟩, htrace, hs⟩ := (Option.any_eq_true _ _).mp hrun
  obtain ⟨hlog, hs⟩ := (Bool.and_eq_true _ _).mp hs
  obtain ⟨⟨log', u⟩, htrace', hu⟩ := (Option.any_eq_true _ _).mp hs
  simp only [Bool.and_eq_true, decide_eq_true_eq] at hu
  obtain ⟨d, hd, horigin⟩ := (Option.any_eq_true _ _).mp hu.2
  obtain rfl : log = [] := List.isEmpty_iff.mp hlog
  have hbefore : (bridge plainEnv).Traced SavesFresh 1 _ [] s :=
    (System.traced_of_trace htrace).mono fun _ _ _ _ => of_decide_eq_true
  have hduring : (bridge plainEnv).Traced SavesFresh 1 s log' u :=
    (System.traced_of_trace htrace').mono fun _ _ _ _ => of_decide_eq_true
  have hthread := thread_of_traced_nil hbefore
  obtain ⟨first, _, t, rest, hcall, hrest⟩ := exists_calls_of_reply
    (p := stopSessionSilent "demo") hduring hthread (replied_of_test hu.1.1)
  have horigin' := of_decide_eq_true horigin
  exact ⟨s, t, u, first, d, hcall, hrest.reaches, hu.1.2, hd, horigin',
    stop_is_final plainEnv _ hbefore.reaches hthread hcall hrest.reaches hd horigin'⟩

end IgnibyteBridge
