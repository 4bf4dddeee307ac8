import IgnibyteBridge.Session.Repertoire

/-!
# What a shutdown knows

The discipline of a shutdown handler: it exits once every session it listed was
Stopped when the handler last looked at it, or was marked Stopped by it. Starts
lock only sessions of valid names whose directory they made sure of.
-/

namespace IgnibyteBridge

open Concurrency Program Fallible

/-- What a thread knows about the sessions of its daemon. -/
structure Closing where
  /-- The session directories it made sure of. -/
  ensured : List String := []
  /-- The session directories it listed. -/
  listed : Option (List String) := none
  /-- The records it loaded since. -/
  known : List SessionMetadata := []
  /-- The sessions it found or marked Stopped since. -/
  settled : List String := []
  /-- Its process is a supervisor. -/
  detached : Bool := false

namespace Closing

/-- What must be known to ask for the `start.lock` of a session. -/
def MayLock (g : Closing) (name : String) : Prop :=
  validateSessionName name = .ok () ∧ name ∈ g.ensured

/-- A session needs no stop any more, or there can be none of that name. -/
def Covers (g : Closing) (name : String) : Prop :=
  validateSessionName name = .ok () → name ∈ g.settled

/-- Every session that was listed needs no stop any more. -/
def Closed (g : Closing) : Prop :=
  ∃ entries, g.listed = some entries ∧ ∀ n ∈ entries, g.Covers n

/-- The obligation before an action. -/
def pre : Act → Closing → Prop
  | .disk (.saveMetadata (.stopped _) m), g => g.listed ≠ none → ∃ m' ∈ g.known, m'.name = m.name
  | .disk (.acquireStartLock name), g => g.MayLock name
  | .process .processExit, g => g.detached = true ∨ g.Closed
  | _, _ => True

/-- What may be relied on about a response: after a listing the thread's calls succeed. -/
def fact : (a : Act) → Closing → a.Response → Prop
  | .disk .readSessions, _, r => ∃ entries, r = .ok entries
  | .disk (.acquireStatusLock _), g, r => g.listed ≠ none → r = .held
  | .disk (.loadMetadata name), _, r => ∀ m, r = .ok m → m.name = name
  | .disk (.saveMetadata ..), g, r => g.listed ≠ none → r = .ok ()
  | .process (.terminatePid _), g, r => g.listed ≠ none → r = .ok ()
  | _, _, _ => True

/-- One more session that needs no stop. -/
def settle (g : Closing) (name : String) : Closing := { g with settled := name :: g.settled }

/-- A record of another generation was loaded before. -/
def restarted (g : Closing) (m : SessionMetadata) : Bool :=
  g.known.any fun m' => m'.name = m.name ∧ m'.generation ≠ m.generation

/-- One more record that was loaded. -/
def learn (g : Closing) (m : SessionMetadata) : Closing := { g with known := m :: g.known }

/-- What a thread knows after it loaded a record, or failed to. -/
def load (g : Closing) (name : String) : Except String SessionMetadata → Closing
  | .error _ => g.settle name
  | .ok m =>
    if m.status = .stopped ∨ g.restarted m = true then (g.learn m).settle name else g.learn m

/-- What a thread knows after an action. -/
def post : (a : Act) → Closing → a.Response → Closing
  | .disk (.ensureBridgeDir name), g, .ok _ => { g with ensured := name :: g.ensured }
  | .disk .readSessions, g, .ok entries =>
    { g with listed := some entries, known := [], settled := [] }
  | .disk (.loadMetadata name), g, r => g.load name r
  | .disk (.saveMetadata (.stopped _) m), g, .ok _ => g.settle m.name
  | _, g, _ => g

/-- What a thread knows when another thread starts it. -/
def fresh : (a : Act) → Closing → a.Response → Closing
  | .process (.spawnSupervisor ..), _, _ => { detached := true }
  | _, _, _ => {}

/-- The discipline of shutdowns. -/
def discipline : Discipline Act Act.Response Closing where
  pre := pre
  fact := fact
  post := post

/-- A thread that did more, and listed nothing meanwhile. -/
structure Continues (g g' : Closing) : Prop where
  ensured : ∀ n ∈ g.ensured, n ∈ g'.ensured
  listed : g'.listed = g.listed
  known : ∀ m ∈ g.known, m ∈ g'.known
  settled : ∀ n ∈ g.settled, n ∈ g'.settled
  detached : g'.detached = g.detached

/-- Doing nothing forgets nothing. -/
theorem Continues.refl (g : Closing) : g.Continues g :=
  ⟨fun _ => id, rfl, fun _ => id, fun _ => id, rfl⟩

/-- Two parts that forget nothing forget nothing together. -/
theorem Continues.trans {g g' g'' : Closing} (h : g.Continues g') (h' : g'.Continues g'') :
    g.Continues g'' where
  ensured n hn := h'.ensured n (h.ensured n hn)
  listed := h'.listed.trans h.listed
  known m hm := h'.known m (h.known m hm)
  settled n hn := h'.settled n (h.settled n hn)
  detached := h'.detached.trans h.detached

/-- A session that needs no stop needs none later. -/
theorem Continues.covers {g g' : Closing} (h : g.Continues g') {name : String}
    (hg : g.Covers name) : g'.Covers name := fun hvalid => h.settled name (hg hvalid)

/-- Settling a session forgets nothing. -/
theorem continues_settle (g : Closing) (name : String) : g.Continues (g.settle name) :=
  ⟨fun _ => id, rfl, fun _ => id, fun _ hn => List.mem_cons_of_mem _ hn, rfl⟩

/-- Learning of a record forgets nothing. -/
theorem continues_learn (g : Closing) (m : SessionMetadata) : g.Continues (g.learn m) :=
  ⟨fun _ => id, rfl, fun _ hm => List.mem_cons_of_mem _ hm, fun _ => id, rfl⟩

/-- A load forgets nothing, whatever its answer. -/
theorem continues_load (g : Closing) (name : String) (r : Except String SessionMetadata) :
    g.Continues (g.load name r) := by
  cases r with
  | error e => exact continues_settle g name
  | ok m =>
    simp only [load]
    split
    · exact (continues_learn g m).trans (continues_settle _ name)
    · exact continues_learn g m

/-- Only a listing makes a thread forget. -/
theorem continues_post {a : Act} (ha : a ≠ .disk .readSessions) (g : Closing) (r : a.Response) :
    g.Continues (post a g r) := by
  unfold post
  split
  · exact ⟨fun _ hn => List.mem_cons_of_mem _ hn, rfl, fun _ => id, fun _ => id, rfl⟩
  · exact absurd rfl ha
  · exact continues_load g _ _
  · exact continues_settle g _
  · exact .refl g

/-! ## Threads that list no sessions -/

/-- Actions that need nothing of a thread that listed no sessions. -/
def ordinary : Act → Bool
  | .disk .readSessions | .disk (.acquireStartLock _) | .process .processExit => false
  | _ => true

/-- What owners do is ordinary. -/
theorem ordinary_of_owns (a : Act) (h : a.owns = true) : ordinary a = true := by
  unfold ordinary
  split <;> first | rfl | cases h

/-- What starts and stops do is ordinary. -/
theorem ordinary_of_manages (a : Act) (h : a.manages = true) : ordinary a = true := by
  unfold ordinary
  split <;> first | rfl | cases h

/-- Sending input is ordinary. -/
theorem ordinary_of_sends (a : Act) (h : a.sends = true) : ordinary a = true := by
  unfold ordinary
  split <;> first | rfl | cases h

/-- Capturing output is ordinary. -/
theorem ordinary_of_captures (a : Act) (h : a.captures = true) : ordinary a = true := by
  unfold ordinary
  split <;> first | rfl | cases h

/-- Forwarding input is ordinary. -/
theorem ordinary_of_forwards (a : Act) (h : a.forwards = true) : ordinary a = true := by
  unfold ordinary
  split <;> first | rfl | cases h

/-- The end of a thread is ordinary. -/
theorem ordinary_of_leaves (a : Act) (h : a.leaves = true) : ordinary a = true := by
  unfold ordinary
  split <;> first | rfl | cases h

variable {g : Closing} {α : Type}

/-- Ordinary actions need nothing of a thread that listed no sessions. -/
theorem pre_of_ordinary {a : Act} (ha : ordinary a = true) (hg : g.listed = none) : pre a g := by
  unfold pre
  split
  · exact fun h => absurd hg h
  all_goals trivial

/-- Such a thread forgets nothing in an ordinary program. -/
theorem follows_of_only {S : α → Prop} {p : Prog α} (h : p.Only (fun a => ordinary a = true) S)
    (hg : g.listed = none) : p.Follows discipline (fun _ g' => g.Continues g') g :=
  (h.follows (fun a g' ha hg' => pre_of_ordinary ha (hg'.listed.trans hg))
    (fun a g' r ha hg' _ => hg'.trans (continues_post (by rintro rfl; cases ha) g' r))
    (.refl g)).mono fun _ _ h => h.2

/-- Such a thread forgets nothing in a function that performs ordinary actions. -/
theorem meets_of_performs {p : Result α} (h : Performs (fun a => ordinary a = true) p)
    (hg : g.listed = none) :
    Meets discipline (fun _ g' => g.Continues g') (fun _ g' => g.Continues g') p g :=
  (follows_run p _ g).mp (follows_of_only h.run hg)

/-- A thread's loop goes on only if it listed no sessions. -/
def Finished : ThreadResult → Closing → Prop
  | .capturing _, g => g.listed = none
  | .forwarding _ _, g => g.listed = none
  | _, _ => True

/-- A worker thread is ordinary. -/
theorem follows_worker {S : ThreadResult → Prop} {p : Prog ThreadResult}
    (h : p.Only (fun a => ordinary a = true) S) (hg : g.listed = none) :
    p.Follows discipline Finished g :=
  (follows_of_only h hg).mono fun result g' hg' => by
    cases result <;> first | trivial | exact hg'.listed.trans hg

/-- A thread may leave with any result that it may end with. -/
theorem follows_leave (result : ThreadResult) (hresult : Finished result g) :
    (leave result).Follows discipline Finished g :=
  ⟨trivial, fun _ _ => hresult⟩

/-- A function that may do what it does is replied to. -/
theorem follows_reply {p : Result α}
    (h : Meets discipline (fun _ _ => True) (fun _ _ => True) p g) :
    (reply p).Follows discipline Finished g := by
  rw [reply, follows_bind, follows_run]
  exact Meets.mono h (fun _ _ _ => follows_leave _ trivial) fun _ _ _ => follows_leave _ trivial

/-- A function that performs ordinary actions is replied to. -/
theorem follows_reply_of_performs {p : Result α} (h : Performs (fun a => ordinary a = true) p)
    (hg : g.listed = none) : (reply p).Follows discipline Finished g :=
  follows_reply <| Meets.mono (meets_of_performs h hg) (fun _ _ _ => trivial) fun _ _ _ => trivial

/-! ## Starts -/

/-- The `start.lock` is asked for with a checked name and a directory that exists. -/
theorem meets_withStartLock {name : String} {body : Result α} (hlock : g.MayLock name)
    (hbody : Meets discipline (fun _ _ => True) (fun _ _ => True) body g) :
    Meets discipline (fun _ _ => True) (fun _ _ => True) (withStartLock name body) g := by
  rw [withStartLock, meets_bind, meets_disk]
  refine ⟨hlock, fun r _ => ?_⟩
  cases r with
  | held =>
    simp only [meets_bind, meets_caught]
    refine Meets.mono hbody (fun x g' _ => ?_) (fun e g' _ => ?_)
    all_goals exact ⟨trivial, fun _ _ => meets_try (fun _ _ => trivial) (fun _ _ => trivial)⟩
  | _ => exact trivial

/-- Both start paths: the session's directory is there when its lock is asked for. -/
theorem meets_starting {name : String} {cwd : Option String} {body : String → Result α}
    (hg : g.listed = none)
    (hbody : ∀ cwd g', g'.listed = none →
      Meets discipline (fun _ _ => True) (fun _ _ => True) (body cwd) g') :
    Meets discipline (fun _ _ => True) (fun _ _ => True) (do
      sessionDir name
      let cwd ← try_ (← proc (.resolveCwd cwd))
      try_ (← disk (.ensureBridgeDir name))
      withStartLock name (body cwd)) g := by
  rw [meets_bind]
  refine meets_sessionDir (fun hvalid => ?_) fun _ _ => trivial
  rw [meets_bind, meets_proc]
  refine ⟨trivial, fun r _ => ?_⟩
  rw [meets_bind]
  refine meets_try (fun cwd _ => ?_) fun _ _ => trivial
  rw [meets_bind, meets_disk]
  refine ⟨trivial, fun r _ => ?_⟩
  rw [meets_bind]
  refine meets_try (fun u hr => ?_) fun _ _ => trivial
  subst hr
  exact meets_withStartLock ⟨hvalid, List.mem_cons_self⟩ (hbody cwd _ hg)

/-- A direct start makes the directory before it asks for the lock. -/
theorem meets_startSessionDetached (env : Env) (name : String) (cwd : Option String) (cmd : String)
    (rows cols : Option ℕ) (hg : g.listed = none) :
    Meets discipline (fun _ _ => True) (fun _ _ => True)
      (startSessionDetached env name cwd cmd rows cols) g := by
  refine meets_starting hg fun cwd g₁ hg₁ => ?_
  rw [meets_bind]
  refine Meets.mono (meets_of_performs (performs_beginRun ordinary_of_manages ..) hg₁)
    (fun _ g₂ h₂ => ?_) fun _ _ _ => trivial
  rw [meets_bind, meets_proc]
  refine ⟨trivial, fun located _ => ?_⟩
  rw [meets_bind]
  refine meets_ensure (fun _ => ?_) fun _ => trivial
  rw [meets_bind, meets_proc]
  refine ⟨trivial, fun r _ => ?_⟩
  rw [meets_bind]
  refine meets_orThrow (fun _ _ => ?_) fun _ => trivial
  exact Meets.mono (meets_of_performs (performs_waitForRunningMetadata ordinary_of_manages name)
    (h₂.listed.trans hg₁)) (fun _ _ _ => trivial) fun _ _ _ => trivial

/-- A start in the daemon makes the directory before it asks for the lock. -/
theorem meets_startSessionInDaemon (env : Env) (name : String) (cwd : Option String) (cmd : String)
    (clientPath : Option String) (rows cols : Option ℕ) (hg : g.listed = none) :
    Meets discipline (fun _ _ => True) (fun _ _ => True)
      (startSessionInDaemon env name cwd cmd clientPath rows cols) g := by
  refine meets_starting hg fun cwd g₁ hg₁ => ?_
  rw [meets_bind]
  refine Meets.mono (meets_of_performs (performs_beginRun ordinary_of_manages ..) hg₁)
    (fun _ g₂ h₂ => ?_) fun _ _ _ => trivial
  rw [meets_bind, meets_proc]
  refine ⟨trivial, fun r _ => ?_⟩
  exact Meets.mono (meets_of_performs (performs_waitForRunningMetadata ordinary_of_manages name)
    (h₂.listed.trans hg₁)) (fun _ _ _ => trivial) fun _ _ _ => trivial

/-! ## The handler -/

/-- What a thread that listed the sessions keeps while it works on one of them. -/
def Settles (g : Closing) (name : String) (g' : Closing) : Prop :=
  g.Continues g' ∧ g'.Covers name

/-- A session that was settled needs no stop any more. -/
theorem covers_settle (g : Closing) (name : String) : (g.settle name).Covers name :=
  fun _ => List.mem_cons_self

/-- A load that fails settles the session. -/
theorem settles_error (g : Closing) (name : String) (e : String) :
    g.Settles name (g.load name (.error e)) :=
  ⟨continues_load g name _, covers_settle g name⟩

/-- A load of a Stopped record, or of a newer run's, settles the session. -/
theorem settles_load {name : String} {m : SessionMetadata}
    (h : m.status = .stopped ∨ g.restarted m = true) : g.Settles name (g.load name (.ok m)) := by
  refine ⟨continues_load g name _, ?_⟩
  rw [load, if_pos h]
  exact covers_settle _ name

/-- A session that is settled later is settled by the whole. -/
theorem Continues.settles {g₁ g₂ : Closing} {name : String} (h : g.Continues g₁)
    (h' : g₁.Settles name g₂) : g.Settles name g₂ :=
  ⟨h.trans h'.1, h'.2⟩

/-- There is no session of an invalid name. -/
theorem settles_invalid {name e : String} (h : validateSessionName name = .error e) :
    g.Settles name g :=
  ⟨.refl g, fun hvalid => by rw [h] at hvalid; cases hvalid⟩

/-- A record that was loaded is known. -/
theorem mem_known_load (g : Closing) (name : String) (m : SessionMetadata) :
    m ∈ (g.load name (.ok m)).known := by
  simp only [load]
  split <;> exact List.mem_cons_self

/-- A record that was not restarted has the generation of those loaded before. -/
theorem restarted_of_ne {m m' : SessionMetadata} (hm : m' ∈ g.known) (hname : m'.name = m.name)
    (hgeneration : m'.generation ≠ m.generation) : g.restarted m = true :=
  List.any_eq_true.mpr ⟨m', hm, by simp [hname, hgeneration]⟩

/-- A load tells the thread of the record, or settles the session. -/
theorem meets_loadMetadata {name : String} {Q : SessionMetadata → Closing → Prop}
    {E : String → Closing → Prop} (hok : ∀ m, m.name = name → Q m (g.load name (.ok m)))
    (herror : ∀ e g', g.Settles name g' → E e g') :
    Meets discipline Q E (loadMetadata name) g := by
  rw [loadMetadata, meets_bind]
  refine meets_sessionDir (fun _ => ?_) fun e he => herror e g (settles_invalid he)
  rw [meets_bind, meets_disk]
  refine ⟨trivial, fun r hr => ?_⟩
  cases r with
  | ok m => exact meets_try (fun a ha => by cases ha; exact hok m (hr m rfl)) fun e he => by cases he
  | error e =>
    exact meets_try (fun a ha => by cases ha) fun e' _ => herror e' _ (settles_error g name e)

/-- Signals of a thread that listed the sessions do not fail. -/
theorem meets_signalRecorded {kind : String} {pid startTime : Option ℕ}
    {Q : List String → Closing → Prop} {E : String → Closing → Prop} (hg : g.listed ≠ none)
    (hQ : Q [] g) : Meets discipline Q E (signalRecorded kind pid startTime) g := by
  unfold signalRecorded
  rw [meets_bind, meets_proc]
  refine ⟨trivial, fun ours _ => ?_⟩
  cases ours with
  | false => exact hQ
  | true =>
    cases pid with
    | none => exact hQ
    | some p =>
      simp only [ite_true, meets_bind]
      rw [meets_proc]
      refine ⟨trivial, fun r hr => ?_⟩
      obtain rfl := hr hg
      exact hQ

/-- The lock is there for a thread that listed the sessions. -/
theorem meets_withStatusLock {name : String} {body : Result α} {Q : α → Closing → Prop}
    {E : String → Closing → Prop} (hg : g.listed ≠ none) (hbody : Meets discipline Q E body g) :
    Meets discipline Q E (withStatusLock name body) g := by
  rw [withStatusLock, meets_bind, meets_disk]
  refine ⟨trivial, fun r hr => ?_⟩
  obtain rfl := hr hg
  simp only [meets_bind, meets_caught]
  refine Meets.mono hbody (fun x g' h => ⟨trivial, fun _ _ => ?_⟩)
    fun e g' h => ⟨trivial, fun _ _ => ?_⟩
  · exact meets_try (fun a ha => by cases ha; exact h) fun e he => by cases he
  · exact meets_try (fun a ha => by cases ha) fun e' he => by cases he; exact h

/-- A handler marks the run it loaded, or finds that it needs no stop. -/
theorem meets_markStopped {name : String} {exitStatus : Option String} {exitCode : Option ℕ}
    {m snapshot : SessionMetadata} (hg : g.listed ≠ none) (hm : m ∈ g.known)
    (hname : m.name = name) :
    Meets discipline (fun _ g' => g.Settles name g') (fun _ g' => g.Settles name g')
      (markStopped name exitStatus exitCode (some m.generation) (.stop snapshot)) g := by
  rw [markStopped, meets_bind]
  refine meets_sessionDir (fun _ => meets_withStatusLock hg ?_) fun e he => settles_invalid he
  rw [meets_bind]
  refine meets_loadMetadata (fun m' hname' => ?_) fun _ _ h => h
  split
  · next hgeneration =>
    exact settles_load (.inr (restarted_of_ne hm (hname.trans hname'.symm)
      (by simpa using Ne.symm (by simpa using hgeneration))))
  · split
    · next hstatus => exact settles_load (.inl hstatus)
    · have hcontinues := continues_load g name (.ok m')
      rw [saveMetadata, meets_bind]
      refine meets_sessionDir (fun _ => ?_) fun e he => ?_
      · rw [meets_bind, meets_disk]
        refine ⟨fun _ => ⟨m', mem_known_load g name m', rfl⟩, fun r hr => ?_⟩
        obtain rfl := hr (hcontinues.listed ▸ hg)
        refine meets_try (fun _ _ => ?_) fun e he => by cases he
        exact ⟨hcontinues.trans (continues_settle _ _), hname' ▸ covers_settle _ m'.name⟩
      · exact hcontinues.settles (hname' ▸ settles_invalid he)

/-- A stop by a shutdown settles its session, also when it fails. -/
theorem meets_stopSessionSilent {name : String} (hg : g.listed ≠ none) :
    Meets discipline (fun _ g' => g.Settles name g') (fun _ g' => g.Settles name g')
      (stopSessionSilent name) g := by
  rw [stopSessionSilent, meets_bind]
  refine meets_sessionDir (fun _ => ?_) fun e he => settles_invalid he
  rw [meets_bind]
  refine meets_loadMetadata (fun m hname => ?_) fun _ _ h => h
  split
  · next hstatus => exact settles_load (.inl hstatus)
  · have hcontinues := continues_load g name (.ok m)
    have hg' : (g.load name (.ok m)).listed ≠ none := hcontinues.listed ▸ hg
    rw [meets_bind]
    refine meets_signalRecorded hg' ?_
    rw [meets_bind]
    refine meets_signalRecorded hg' ?_
    exact Meets.mono (meets_markStopped hg' (mem_known_load g name m) hname)
      (fun _ _ h => hcontinues.settles h) fun _ _ h => hcontinues.settles h

/-- Every listed session is found to need no stop, or is active. -/
theorem meets_activeSessions {names : List String} (hg : g.listed ≠ none) :
    Meets discipline
      (fun sessions g' => g.Continues g' ∧ ∀ n ∈ names, n ∈ sessions ∨ g'.Covers n)
      (fun _ _ => False) (activeSessions names) g := by
  induction names generalizing g with
  | nil => exact ⟨.refl g, fun n hn => by cases hn⟩
  | cons name names ih =>
    -- The rest of the listing keeps what is known about the first entry.
    have hrest : ∀ g₁ (f : List String → List String), g.Continues g₁ →
        (∀ sessions, ∀ n ∈ sessions, n ∈ f sessions) →
        (∀ sessions g₂, g₁.Continues g₂ → name ∈ f sessions ∨ g₂.Covers name) →
        Meets discipline
          (fun sessions g' => g.Continues g' ∧ ∀ n ∈ name :: names, n ∈ f sessions ∨ g'.Covers n)
          (fun _ _ => False) (activeSessions names) g₁ := by
      intro g₁ f h₁ hf hname
      refine Meets.mono (ih (h₁.listed ▸ hg)) (fun sessions g₂ h₂ => ?_) fun _ _ => id
      refine ⟨h₁.trans h₂.1, fun n hn => ?_⟩
      rcases List.mem_cons.mp hn with rfl | hn
      · exact hname sessions g₂ h₂.1
      · exact (h₂.2 n hn).imp_left (hf sessions n)
    rw [activeSessions, meets_bind, meets_caught]
    refine meets_loadMetadata (fun m hname => ?_) fun e g₁ h₁ => ?_
    · rw [meets_bind]
      by_cases hstatus : m.status = .stopped
      · simp only [hstatus, if_true]
        have hsettles : g.Settles name (g.load name (.ok m)) := settles_load (.inl hstatus)
        exact hrest _ id hsettles.1 (fun _ _ => id) fun _ g₂ h₂ => .inr (h₂.covers hsettles.2)
      · simp only [hstatus, if_false]
        refine hrest _ (m.name :: ·) (continues_load g name _)
          (fun _ _ => List.mem_cons_of_mem _) fun _ _ _ => .inl ?_
        rw [hname]
        exact List.mem_cons_self
    · rw [meets_bind]
      exact hrest g₁ id h₁.1 (fun _ _ => id) fun _ g₂ h₂ => .inr (h₂.covers h₁.2)

/-- The stops settle all sessions of the list, one after the other. -/
theorem meets_stopAll {names : List String} (hg : g.listed ≠ none) :
    Meets discipline (fun _ g' => g.Continues g' ∧ ∀ n ∈ names, g'.Covers n)
      (fun _ _ => False) (stopAll names) g := by
  induction names generalizing g with
  | nil => exact ⟨.refl g, fun n hn => by cases hn⟩
  | cons name names ih =>
    have hrest : ∀ g₁, g.Settles name g₁ → Meets discipline
        (fun _ g' => g.Continues g' ∧ ∀ n ∈ name :: names, g'.Covers n)
        (fun _ _ => False) (stopAll names) g₁ := by
      intro g₁ h₁
      refine Meets.mono (ih (h₁.1.listed ▸ hg)) (fun _ g₂ h₂ => ?_) fun _ _ => id
      refine ⟨h₁.1.trans h₂.1, fun n hn => ?_⟩
      rcases List.mem_cons.mp hn with rfl | hn
      · exact h₂.1.covers h₁.2
      · exact h₂.2 n hn
    rw [stopAll, meets_bind, meets_caught]
    refine Meets.mono (meets_stopSessionSilent hg) (fun _ g₁ h₁ => ?_) fun _ g₁ h₁ => ?_
    all_goals
      rw [meets_bind]
      exact hrest g₁ h₁

/-- A shutdown settles every session that it listed. -/
theorem meets_shutdownSessionsForDaemon (env : Env) :
    Meets discipline (fun _ g' => g'.Closed) (fun _ g' => g'.Closed)
      (shutdownSessionsForDaemon env) g := by
  rw [shutdownSessionsForDaemon, meets_bind, meets_disk]
  refine ⟨trivial, fun r hr => ?_⟩
  obtain ⟨entries, rfl⟩ := hr
  have hlisted : (post (.disk .readSessions) g (.ok entries)).listed ≠ none := by
    simp [post]
  rw [meets_bind]
  refine Meets.mono (meets_activeSessions hlisted) (fun sessions g₁ h₁ => ?_) fun _ _ => False.elim
  rw [meets_bind]
  refine Meets.mono (meets_stopAll (h₁.1.listed ▸ hlisted)) (fun errors g₂ h₂ => ?_)
    fun _ _ => False.elim
  have hclosed : g₂.Closed := by
    refine ⟨entries, h₂.1.listed.trans h₁.1.listed, fun n hn => ?_⟩
    rcases h₁.2 n hn with hactive | hcovers
    · exact h₂.2 n ((List.mem_insertionSort _).mpr hactive)
    · exact h₂.1.covers hcovers
  cases errors <;> exact hclosed

/-- The handler exits the daemon once every listed session is settled. -/
theorem follows_handleShutdown (env : Env) :
    (handleShutdown env).Follows discipline Finished g := by
  rw [handleShutdown, follows_bind]
  refine ⟨trivial, fun acknowledged _ => ?_⟩
  cases acknowledged with
  | false => exact follows_leave _ trivial
  | true =>
    change ((shutdownSessionsForDaemon env).run >>= fun _ =>
      Prog.proc .processExit >>= fun _ => pure .finished).Follows discipline Finished g
    rw [follows_bind, follows_run]
    refine Meets.mono (meets_shutdownSessionsForDaemon env) (fun _ g' h => ?_) fun _ g' h => ?_
    all_goals exact ⟨.inr h, fun _ _ => trivial⟩

/-! ## Every thread -/

/-- Every request is served as the discipline asks. -/
theorem follows_program (env : Env) (request : Request) (hg : g.listed = none) :
    (request.program env).Follows discipline Finished g := by
  unfold Request.program
  split
  · split
    · exact follows_reply (meets_startSessionInDaemon env _ _ _ _ _ _ hg)
    · exact follows_reply (meets_startSessionDetached env _ _ _ _ _ hg)
  · exact follows_reply_of_performs (performs_sendInputSilent ordinary_of_sends ..) hg
  · exact follows_reply_of_performs (performs_sendKeysSilent ordinary_of_sends ..) hg
  · exact follows_reply_of_performs (performs_stopSessionSilent ordinary_of_manages _) hg
  · split
    · exact follows_handleShutdown env
    · exact follows_leave _ trivial

/-- Every thread that another one starts follows the discipline. -/
theorem follows_launched {env : Env} {a : Act} {r : a.Response} {j : ℕ} {p : Prog ThreadResult}
    (h : launched env a r = some (j, p)) : p.Follows discipline Finished (fresh a g r) := by
  unfold launched at h
  split at h <;> cases h
  · -- A supervisor may end its process.
    rw [supervisorMain, follows_bind]
    refine (follows_of_only (performs_runSupervisor ordinary_of_owns ..).run rfl).mono
      fun _ g' hg' => ⟨.inl hg'.detached, fun _ _ => trivial⟩
  · rw [ownerThread, follows_bind]
    exact (follows_of_only (performs_superviseAndMark ordinary_of_owns ..).run rfl).mono
      fun _ g' _ => follows_leave _ trivial
  · exact follows_worker (only_captureOutput ordinary_of_leaves ordinary_of_captures ..) rfl
  · exact rfl

/-- The programs of the system follow the discipline. -/
theorem covers (env : Env) :
    Concurrency.Covers (bridge env) discipline Finished Closing.fresh where
  launched h _ _ := follows_launched h
  again {x g p} hx h := by
    cases x with
    | finished => cases h
    | replied r => cases h
    | capturing state =>
      cases h
      exact follows_worker (only_captureStep ordinary_of_leaves ordinary_of_captures env state) hx
    | forwarding fifo pty =>
      cases h
      exact follows_worker (only_forwardStep ordinary_of_leaves ordinary_of_forwards env fifo pty) hx

/-- The threads at the beginning follow the discipline. -/
theorem follows_boot (env : Env) (requests : ℕ → Option Request) (i : ℕ) :
    ((boot env requests).thread i).Follows discipline Finished {} := by
  unfold boot
  dsimp only
  split
  · exact follows_program env _ rfl
  · exact trivial

end Closing

end IgnibyteBridge
