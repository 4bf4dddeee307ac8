import IgnibyteBridge.Concurrency.Trace
import IgnibyteBridge.Session.Repertoire
import IgnibyteBridge.Session.Starts

/-!
# What a supervised run leaves behind

`supervise_pty` starts a child and two worker threads, and may fail at any step in
between. What it has released when it returns is read off the log of its call: the
child that it waited for, the flags that it set and the threads that it joined.
-/

namespace IgnibyteBridge

/-! ## Flags and threads -/

namespace World

variable {w w' : World} {i : ℕ} {c : Choice}

/-- A stop flag stays set. -/
theorem perform_stop {a : Act} {r : a.Response} (h : perform i a c w = some (r, w'))
    {worker : Worker} {pty : ℕ} (hset : w.files.stop worker pty = true) :
    w'.files.stop worker pty = true := by
  cases a with
  | disk a => rwa [performDisk_files h]
  | process a =>
    cases a <;> simp only [perform, performProcess] at h <;> (try split at h) <;>
      (try split at h) <;> cases h <;> exact hset
  | file a =>
    obtain ⟨f, hperform, rfl⟩ := perform_file h
    cases a
    case storeStop worker' pty' =>
      cases hperform
      by_cases hworker : worker = worker'
      · subst hworker
        by_cases hpty : pty = pty'
        · subst hpty
          simp
        · simpa [hpty] using hset
      · simpa [hworker] using hset
    all_goals
      simp only [performFile, createLog] at hperform
      (try split at hperform) <;> (try split at hperform) <;> (try split at hperform) <;>
        cases hperform <;> exact hset

/-- A stop flag that was set is set. -/
theorem perform_storeStop {worker : Worker} {pty : ℕ} {r : Unit}
    (h : perform i (.file (.storeStop worker pty)) c w = some (r, w')) :
    w'.files.stop worker pty = true := by
  cases h
  simp

/-- A stop flag that was set stays set. -/
theorem disturb_stop {e : Disturbance} (h : w.disturb e = some w') {worker : Worker} {pty : ℕ}
    (hset : w.files.stop worker pty = true) : w'.files.stop worker pty = true := by
  cases e <;> simp only [World.disturb] at h <;> (try split at h) <;> cases h <;> exact hset

/-- A thread that has ended stays so. -/
theorem perform_gone {a : Act} {r : a.Response} (h : perform i a c w = some (r, w')) {j : ℕ}
    (hgone : w.life j = .gone) : w'.life j = .gone := by
  have hborn : w.life j ≠ .unborn := by
    rw [hgone]
    exact Life.noConfusion
  rcases perform_life_born h hborn with hsame | hgone'
  · rw [hsame, hgone]
  · exact hgone'

/-- A thread that was joined has ended. -/
theorem perform_join {j : ℕ} {r : Unit} (h : perform i (.process (.join j)) c w = some (r, w')) :
    w'.life j = .gone := by
  simp only [perform, performProcess] at h
  split at h <;> cases h
  assumption

/-- A thread that has ended has ended. -/
theorem disturb_gone {e : Disturbance} (h : w.disturb e = some w') {j : ℕ}
    (hgone : w.life j = .gone) : w'.life j = .gone := by
  cases e with
  | clientKilled i =>
    simp only [World.disturb] at h
    split at h <;> cases h
    by_cases hj : j = i
    · subst hj
      exact Function.update_self ..
    · exact (Function.update_of_ne hj ..).trans hgone
  | processDies pid =>
    cases h
    exact hgone
  | print pty bytes =>
    cases h
    exact hgone
  | discard fifo =>
    obtain ⟨-, rfl⟩ := disturb_discard h
    exact hgone

end World

open Concurrency Program Fallible World

/-! ## The log of a call -/

/-- An action of a thread, and its response. -/
abbrev Did := Event Act Act.Response

/-- Whether the first `child.wait()` of a log succeeded. -/
def firstWait : List Did → Option Bool
  | [] => none
  | ⟨.process (.childWait _), status⟩ :: _ => some status.isSome
  | _ :: log => firstWait log

/-- What a call of `supervise_pty` releases: a child is waited for, and both worker threads
are told to stop and have ended. -/
structure CleanedUp (log : List Did) (w : World) : Prop where
  child : ∀ {command cwd path child},
    ⟨.process (.spawnCommand command cwd path), some child⟩ ∈ log →
      ∃ status, ⟨.process (.childWait child), some status⟩ ∈ log
  output : ∀ {name pty rows cols thread},
    ⟨.process (.spawnCapture name pty rows cols), thread⟩ ∈ log →
      w.files.stop .output pty = true ∧ ⟨.file (.storeStop .output pty), ()⟩ ∈ log ∧
        w.life thread = .gone
  input : ∀ {fifo pty thread}, ⟨.process (.spawnForward fifo pty), thread⟩ ∈ log →
    w.files.stop .input pty = true ∧ ⟨.file (.storeStop .input pty), ()⟩ ∈ log ∧
      w.life thread = .gone

/-! ## The ways a call can go -/

/-- Events that neither start nor release anything. -/
def quiet : Did → Bool
  | ⟨.process (.spawnCommand ..), child⟩ => child.isNone
  | ⟨.process (.childWait _), _⟩ => false
  | ⟨.process (.spawnCapture ..), _⟩ => false
  | ⟨.process (.spawnForward ..), _⟩ => false
  | ⟨.file (.storeStop ..), _⟩ => false
  | _ => true

/-- Nothing in a log starts or releases anything. -/
def Quiet (log : List Did) : Prop := ∀ e ∈ log, quiet e = true

/-- Both workers are started. -/
def started (name : String) (pty fifo rows cols output input : ℕ) : List Did :=
  [⟨.process (.spawnCapture name pty rows cols), output⟩,
    ⟨.process (.spawnForward fifo pty), input⟩]

/-- The child was waited for, and both workers are released. -/
def released (pty child output input : ℕ) (status : String × ℕ) : List Did :=
  [⟨.process (.childWait child), some status⟩, ⟨.file (.storeStop .input pty), ()⟩,
    ⟨.process (.join input), ()⟩, ⟨.process (.drain output), ()⟩,
    ⟨.file (.storeStop .output pty), ()⟩, ⟨.process (.join output), ()⟩]

/-- The clean-up after an error. -/
def reaped (child : ℕ) (killed : Bool) (status : Option (String × ℕ)) : List Did :=
  [⟨.process (.childKill child), killed⟩, ⟨.process (.childWait child), status⟩]

/-- What follows the steps before the workers, once there is a child. -/
inductive Outcome (child : ℕ) : List Did → Prop
  | served {name pty fifo rows cols output input status} :
    Outcome child (started name pty fifo rows cols output input ++
      released pty child output input status)
  /-- The wait for the child failed. -/
  | abandoned {name pty fifo rows cols output input killed status} :
    Outcome child (started name pty fifo rows cols output input ++
      ⟨.process (.childWait child), none⟩ :: reaped child killed status)
  /-- A step before the workers failed. -/
  | refused {killed status} : Outcome child (reaped child killed status)

/-- The logs of `supervise_pty`. -/
inductive Course : List Did → Prop
  | childless {log} (quiet : Quiet log) : Course log
  | spawned {before command cwd path child after rest} (before_quiet : Quiet before)
    (after_quiet : Quiet after) (outcome : Outcome child rest) :
    Course (before ++ [⟨.process (.spawnCommand command cwd path), some child⟩] ++ (after ++ rest))

section Programs

variable {before : List Did}

/-- Actions of an owner on its record are quiet. -/
theorem quiet_of_records {added : List Did} (h : ∀ e ∈ added, e.1.records = true) :
    Quiet added := by
  intro e he
  obtain ⟨a, r⟩ := e
  have ha := h _ he
  cases a with
  | disk a => rfl
  | process a => cases a <;> first | rfl | cases ha
  | file a => cases a <;> first | rfl | cases ha

/-- Two quiet parts are quiet. -/
theorem Quiet.append {log log' : List Did} (h : Quiet log) (h' : Quiet log') :
    Quiet (log ++ log') := by
  intro e he
  rcases List.mem_append.mp he with he | he
  · exact h e he
  · exact h' e he

/-- One quiet action is quiet. -/
theorem quiet_singleton {e : Did} (h : quiet e = true) : Quiet [e] := by
  intro e' he'
  obtain rfl := List.mem_singleton.mp he'
  exact h

/-- The log of a program that only works on its record. -/
theorem meets_recording_of_performs {α : Type} {p : Result α}
    {Q : α → List Did → Prop} {E : String → List Did → Prop}
    (h : Performs (fun a => a.records = true) p)
    (hok : ∀ x added, Quiet added → Q x (before ++ added))
    (herror : ∀ e added, Quiet added → E e (before ++ added)) : Meets recording Q E p before := by
  refine Meets.mono (h.recorded before) ?_ ?_
  · rintro x log ⟨added, rfl, hadded⟩
    exact hok x added (quiet_of_records hadded)
  · rintro e log ⟨added, rfl, hadded⟩
    exact herror e added (quiet_of_records hadded)

/-- One event is added to the log. -/
theorem meets_recording_proc {a : ProcessAct} {E : String → List Did → Prop}
    {Q : a.Response → List Did → Prop} (h : ∀ r, Q r (before ++ [⟨.process a, r⟩])) :
    Meets recording Q E (proc a) before :=
  (meets_proc a Q).mpr ⟨trivial, fun r _ => h r⟩

/-- An action on files is recorded. -/
theorem meets_recording_file {a : FileAct} {E : String → List Did → Prop}
    {Q : a.Response → List Did → Prop} (h : ∀ r, Q r (before ++ [⟨.file a, r⟩])) :
    Meets recording Q E (file a) before :=
  (meets_file a Q).mpr ⟨trivial, fun r _ => h r⟩

/-- What an owner did with its worker threads, whether or not the wait failed. -/
theorem recording_serveChild {name : String} {pty child fifo rows cols : ℕ}
    {Q : String × Option ℕ → List Did → Prop} {E : String → List Did → Prop}
    (hok : ∀ x output input status, Q x (before ++ (started name pty fifo rows cols output input ++
      released pty child output input status)))
    (herror : ∀ e output input, E e (before ++ (started name pty fifo rows cols output input ++
      [⟨.process (.childWait child), none⟩]))) :
    Meets recording Q E (serveChild name pty child fifo rows cols) before := by
  rw [serveChild, meets_bind]
  refine meets_recording_proc fun output => ?_
  rw [meets_bind]
  refine meets_recording_proc fun input => ?_
  rw [meets_bind]
  refine meets_recording_proc fun status => ?_
  rw [meets_bind]
  cases status with
  | none =>
    have h := herror "failed while waiting for child" output input
    refine meets_orThrow (fun x hx => by cases hx) fun _ => ?_
    simpa [started] using h
  | some status =>
    have h := hok (status.1, some status.2) output input status
    refine meets_orThrow (fun x hx => ?_) fun hx => by cases hx
    cases hx
    rw [meets_bind]
    refine meets_recording_file fun _ => ?_
    rw [meets_bind]
    refine meets_recording_proc fun _ => ?_
    rw [meets_bind]
    refine meets_recording_proc fun _ => ?_
    rw [meets_bind]
    refine meets_recording_file fun _ => ?_
    rw [meets_bind]
    refine meets_recording_proc fun _ => ?_
    simpa [started, released] using h

/-- Up to the workers an owner is quiet; an error leaves the child to be reaped. -/
theorem recording_superviseChild {env : Env} {name : String} {generation pty child rows cols : ℕ}
    {command : List String} {Q : String × Option ℕ → List Did → Prop}
    {E : String → List Did → Prop}
    (hok : ∀ x added rest, Quiet added → Outcome child rest → Q x (before ++ (added ++ rest)))
    (herror : ∀ e added rest, Quiet added →
      (∀ killed status, Outcome child (rest ++ reaped child killed status)) →
        E e (before ++ (added ++ rest))) :
    Meets recording Q E (superviseChild env name generation pty child rows cols command) before := by
  have hrefused : ∀ e added, Quiet added → E e (before ++ added) := by
    intro e added hadded
    have h := herror e added [] hadded fun _ _ => .refused
    rwa [List.append_nil] at h
  rw [superviseChild, meets_bind]
  refine meets_recording_of_performs (performs_recordChild (fun _ => id) ..) ?_ hrefused
  intro _ recorded hrecorded
  rw [meets_bind]
  refine meets_recording_file fun fifo => ?_
  rw [List.append_assoc]
  have hopened : Quiet (recorded ++ [⟨.file (.openFifo name), fifo⟩]) :=
    hrecorded.append (quiet_singleton rfl)
  rw [meets_bind]
  refine meets_orThrow (fun fifo' _ => ?_) fun _ => hrefused _ _ hopened
  rw [meets_bind, meets_caught]
  refine meets_recording_of_performs (performs_publish (fun _ => id) ..) ?_ ?_
  · intro _ published hpublished
    rw [List.append_assoc]
    have hquiet := hopened.append hpublished
    refine recording_serveChild (fun x output input status => ?_) fun e output input => ?_
    · rw [List.append_assoc]
      exact hok x _ _ hquiet .served
    · rw [List.append_assoc]
      refine herror e _ _ hquiet fun killed status => ?_
      rw [List.append_assoc]
      exact .abandoned
  · intro e published hpublished
    rw [List.append_assoc, meets_bind]
    refine meets_recording_file fun _ => ?_
    rw [List.append_assoc]
    exact hrefused e _ ((hopened.append hpublished).append (quiet_singleton rfl))

/-- A call of `supervise_pty` takes one of the courses. -/
theorem recording_supervisePty (env : Env) (name cwd cmd : String) (clientPath : Option String)
    (generation : ℕ) :
    Meets recording (fun _ log => Course log) (fun _ log => Course log)
      (supervisePty env name cwd cmd clientPath generation) [] := by
  have hquiet : Quiet [] := by
    intro e he
    cases he
  rw [supervisePty, meets_bind]
  refine meets_try (fun command _ => ?_) fun _ _ => .childless hquiet
  rw [meets_bind]
  refine meets_sessionDir (fun _ => ?_) fun _ _ => .childless hquiet
  have hload : Performs (fun a => a.records = true) (loadMetadata name) :=
    performs_loadMetadata (manages_of_records fun _ => id) name
  rw [meets_bind, meets_caught]
  refine meets_recording_of_performs hload (fun m loaded hloaded => ?_) fun e loaded hloaded => ?_
  -- What follows is the same for every geometry.
  all_goals
    dsimp only
    rw [List.nil_append, meets_bind]
    refine meets_recording_proc fun pty => ?_
    have hopened : ∀ rows cols, Quiet (loaded ++ [⟨.process (.openPty rows cols), pty⟩]) :=
      fun rows cols => hloaded.append (quiet_singleton rfl)
    rw [meets_bind]
    refine meets_orThrow (fun pty' _ => ?_) fun _ => .childless (hopened _ _)
    rw [meets_bind]
    refine meets_recording_proc fun child => ?_
    rw [meets_bind]
    cases child with
    | none =>
      refine meets_orThrow (fun _ hc => by cases hc) fun _ => .childless ?_
      exact (hopened _ _).append (quiet_singleton rfl)
    | some child =>
      refine meets_orThrow (fun child' hc => ?_) fun hc => by cases hc
      cases hc
      rw [meets_bind, meets_caught]
      refine recording_superviseChild (fun x added rest hadded hrest => ?_)
        fun e added rest hadded hrest => ?_
      · exact .spawned (hopened _ _) hadded hrest
      · rw [meets_bind]
        refine meets_recording_proc fun killed => ?_
        rw [meets_bind]
        refine meets_recording_proc fun status => ?_
        have hlog : ∀ log : List Did, log ++ (added ++ rest) ++
            [⟨.process (.childKill child), killed⟩] ++ [⟨.process (.childWait child), status⟩] =
              log ++ (added ++ (rest ++ reaped child killed status)) := by
          intro log
          simp [reaped]
        rw [hlog]
        exact .spawned (hopened _ _) hadded (hrest killed status)

end Programs

/-! ## What a course releases -/

section Courses

variable {log before after rest : List Did} {child : ℕ} {e : Did}

/-- A quiet action waits for no child. -/
theorem firstWait_cons_of_quiet (h : quiet e = true) : firstWait (e :: log) = firstWait log := by
  obtain ⟨a, r⟩ := e
  cases a with
  | disk a => rfl
  | process a => cases a <;> first | rfl | cases h
  | file a => rfl

/-- Quiet actions wait for no child. -/
theorem firstWait_append_of_quiet (h : Quiet before) :
    firstWait (before ++ log) = firstWait log := by
  induction before with
  | nil => rfl
  | cons e before ih =>
    have he := h e List.mem_cons_self
    have hbefore := ih fun e' he' => h e' (List.mem_cons_of_mem _ he')
    rw [List.cons_append, firstWait_cons_of_quiet he, hbefore]

/-- The first wait is in what follows the child's start. -/
theorem firstWait_course {command : List String} {cwd : String} {path : Option String}
    (hbefore : Quiet before) (hafter : Quiet after) :
    firstWait (before ++ [⟨.process (.spawnCommand command cwd path), some child⟩] ++
      (after ++ rest)) = firstWait rest := by
  rw [List.append_assoc, firstWait_append_of_quiet hbefore]
  exact firstWait_append_of_quiet hafter

/-- An event that starts or releases something is not among the quiet ones. -/
theorem mem_of_loud {s : Did} (hbefore : Quiet before) (hafter : Quiet after)
    (he : quiet e = false) (hmem : e ∈ before ++ [s] ++ (after ++ rest)) : e = s ∨ e ∈ rest := by
  have hloud : ∀ {log : List Did}, Quiet log → e ∉ log := by
    intro log hlog hmem
    rw [hlog e hmem] at he
    cases he
  rcases List.mem_append.mp hmem with hmem | hmem
  · rcases List.mem_append.mp hmem with hmem | hmem
    · exact absurd hmem (hloud hbefore)
    · exact .inl (List.mem_singleton.mp hmem)
  · rcases List.mem_append.mp hmem with hmem | hmem
    · exact absurd hmem (hloud hafter)
    · exact .inr hmem

/-- What a log says is released. -/
structure Releases (child : ℕ) (log : List Did) : Prop where
  waited : ∃ status, ⟨.process (.childWait child), some status⟩ ∈ log
  output : ∀ {name pty rows cols thread},
    ⟨.process (.spawnCapture name pty rows cols), thread⟩ ∈ log →
      ⟨.file (.storeStop .output pty), ()⟩ ∈ log ∧ ⟨.process (.join thread), ()⟩ ∈ log
  input : ∀ {fifo pty thread}, ⟨.process (.spawnForward fifo pty), thread⟩ ∈ log →
    ⟨.file (.storeStop .input pty), ()⟩ ∈ log ∧ ⟨.process (.join thread), ()⟩ ∈ log

/-- No second child is started. -/
theorem Outcome.not_spawned {command : List String} {cwd : String} {path : Option String}
    {child' : Option ℕ} (h : Outcome child rest) :
    ⟨.process (.spawnCommand command cwd path), child'⟩ ∉ rest := by
  cases h <;> simp [started, released, reaped]

/-- Everything is released unless the first wait fails. -/
theorem Outcome.releases (h : Outcome child rest) (hwait : firstWait rest ≠ some false) :
    Releases child rest := by
  cases h with
  | @served name pty fifo rows cols output input status =>
    refine ⟨⟨status, by simp [started, released]⟩, fun {n p r c thread} hmem => ?_,
      fun {f p thread} hmem => ?_⟩
    · obtain ⟨⟨-, rfl, -, -⟩, rfl⟩ :
          (n = name ∧ p = pty ∧ r = rows ∧ c = cols) ∧ thread = output := by
        simpa [started, released] using hmem
      simp [started, released]
    · obtain ⟨⟨-, rfl⟩, rfl⟩ : (f = fifo ∧ p = pty) ∧ thread = input := by
        simpa [started, released] using hmem
      simp [started, released]
  | abandoned => exact absurd rfl hwait
  | @refused killed status =>
    refine ⟨?_, fun hmem => ?_, fun hmem => ?_⟩
    · cases status with
      | none => exact absurd rfl hwait
      | some status => exact ⟨status, by simp [reaped]⟩
    · simp [reaped] at hmem
    · simp [reaped] at hmem

/-- After a first wait that failed, the child was never waited for, or the input forwarder
was not told to stop. -/
theorem Outcome.unreleased (h : Outcome child rest) (hwait : firstWait rest = some false) :
    (∀ status, ⟨.process (.childWait child), some status⟩ ∉ rest) ∨
      ∃ fifo pty thread, ⟨.process (.spawnForward fifo pty), thread⟩ ∈ rest ∧
        ⟨.file (.storeStop .input pty), ()⟩ ∉ rest := by
  cases h with
  | served => cases hwait
  | @abandoned name pty fifo rows cols output input killed status =>
    exact .inr ⟨fifo, pty, input, by simp [started], by simp [started, reaped]⟩
  | @refused killed status =>
    cases status with
    | none => exact .inl fun status => by simp [reaped]
    | some status => cases hwait

/-- Unless the first wait failed, nothing is left. -/
theorem Course.cleanedUp {w : World} (h : Course log) (hwait : firstWait log ≠ some false)
    (hstop : ∀ worker pty, ⟨.file (.storeStop worker pty), ()⟩ ∈ log →
      w.files.stop worker pty = true)
    (hjoin : ∀ thread, ⟨.process (.join thread), ()⟩ ∈ log → w.life thread = .gone) :
    CleanedUp log w := by
  cases h with
  | childless hquiet =>
    have hloud : ∀ {e : Did}, quiet e = false → e ∉ log := by
      intro e he hmem
      rw [hquiet e hmem] at he
      cases he
    exact ⟨fun hmem => absurd hmem (hloud rfl), fun hmem => absurd hmem (hloud rfl),
      fun hmem => absurd hmem (hloud rfl)⟩
  | @spawned before command cwd path child after rest hbefore hafter houtcome =>
    have hrest : ∀ {e : Did}, e ∈ rest → e ∈ before ++ [⟨.process (.spawnCommand command cwd path),
        some child⟩] ++ (after ++ rest) := fun hmem =>
      List.mem_append_right _ (List.mem_append_right _ hmem)
    rw [firstWait_course hbefore hafter] at hwait
    have hreleases := houtcome.releases hwait
    refine ⟨fun hmem => ?_, fun hmem => ?_, fun hmem => ?_⟩
    · obtain ⟨status, hstatus⟩ := hreleases.waited
      rcases mem_of_loud hbefore hafter rfl hmem with heq | hmem
      · cases heq
        exact ⟨status, hrest hstatus⟩
      · exact absurd hmem houtcome.not_spawned
    · rcases mem_of_loud hbefore hafter rfl hmem with heq | hmem
      · cases heq
      · obtain ⟨hstored, hjoined⟩ := hreleases.output hmem
        exact ⟨hstop _ _ (hrest hstored), hrest hstored, hjoin _ (hrest hjoined)⟩
    · rcases mem_of_loud hbefore hafter rfl hmem with heq | hmem
      · cases heq
      · obtain ⟨hstored, hjoined⟩ := hreleases.input hmem
        exact ⟨hstop _ _ (hrest hstored), hrest hstored, hjoin _ (hrest hjoined)⟩

/-- If it failed, the worker threads are. -/
theorem Course.not_cleanedUp {w : World} (h : Course log) (hwait : firstWait log = some false) :
    ¬CleanedUp log w := by
  cases h with
  | childless hquiet =>
    rw [← List.append_nil log, firstWait_append_of_quiet hquiet] at hwait
    cases hwait
  | @spawned before command cwd path child after rest hbefore hafter houtcome =>
    rw [firstWait_course hbefore hafter] at hwait
    intro hclean
    have hchild : (⟨.process (.spawnCommand command cwd path), some child⟩ : Did) ∈
        before ++ [⟨.process (.spawnCommand command cwd path), some child⟩] ++ (after ++ rest) := by
      simp
    rcases houtcome.unreleased hwait with hnone | ⟨fifo, pty, thread, hmem, hnone⟩
    · obtain ⟨status, hstatus⟩ := hclean.child hchild
      rcases mem_of_loud hbefore hafter rfl hstatus with heq | hmem
      · cases heq
      · exact hnone status hmem
    · have hforward := List.mem_append_right
        (before ++ [⟨.process (.spawnCommand command cwd path), some child⟩])
        (List.mem_append_right after hmem)
      obtain ⟨-, hstored, -⟩ := hclean.input hforward
      rcases mem_of_loud hbefore hafter rfl hstored with heq | hmem
      · cases heq
      · exact hnone hmem

end Courses

/-- A thread cannot start itself. -/
theorem launched_ne_self {env : Env} {k : ℕ} {w w' : World} {a : Act} {c : Choice} {r : a.Response}
    {q : Prog ThreadResult} (halive : w.alive k = true)
    (h : World.perform k a c w = some (r, w')) :
    launched env a r ≠ some (k, q) :=
  fun hlaunched => alive_ne_unborn halive (launched_unborn h hlaunched)

/-- **Supervision is cleaned up.** However the steps after `spawn_command` end and whatever the
workers have done, a call of `supervise_pty` leaves its child waited for, both stop flags set
and both workers ended, exactly if the first wait for the child does not fail. -/
theorem supervisePty_cleanedUp (env : Env) {ok : World → ℕ → Act → Choice → Prop} {k : ℕ}
    {name cwd cmd : String} {clientPath : Option String} {generation : ℕ} {log : List Did}
    {outcome : Except String (String × Option ℕ)} {s t : Config Act Act.Response ThreadResult World}
    (h : (bridge env).Calls ok k s (supervisePty env name cwd cmd clientPath generation).run log
      outcome t) :
    CleanedUp log t.world ↔ firstWait log ≠ some false := by
  have hcourse : Course log := by
    have hrecorded := (follows_run _ (fun _ log => Course log) []).mpr
      (recording_supervisePty env name cwd cmd clientPath generation)
    exact hrecorded.of_runs h.runs
  constructor
  · exact fun hclean hwait => hcourse.not_cleanedUp hwait hclean
  · intro hwait
    refine hcourse.cleanedUp hwait (fun worker pty hmem => ?_) fun thread hmem => ?_
    · exact h.traced.stable (I := fun w => w.files.stop worker pty = true) hmem
        (fun {w c w'} hperform => perform_storeStop (i := k) (c := c) hperform)
        (fun hset _ _ hperform => perform_stop hperform hset)
        fun hset hdisturb => disturb_stop hdisturb hset
    · exact h.traced.stable (I := fun w => w.life thread = .gone) hmem
        (fun {w c w'} hperform => perform_join (i := k) (c := c) hperform)
        (fun hgone _ _ hperform => perform_gone hperform hgone)
        fun hgone hdisturb => disturb_gone hdisturb hgone

/-- An event started an input forwarder that still runs. -/
def forwards (w : World) : Did → Bool
  | ⟨.process (.spawnForward ..), thread⟩ => w.life thread == .live .daemon
  | _ => false

/-- The end of a thread that does nothing but supervise. -/
def supervised (outcome : Except String (String × Option ℕ)) : ThreadResult :=
  .replied (outcome.map fun _ => ())

/-- A session "demo" that was initialized, and a thread of the daemon that calls
`supervise_pty` for it. -/
def supervising : Config Act Act.Response ThreadResult World where
  world := { World.fresh fun _ => none with
    metadata := fun name => if name = "demo" then
      some (initialMetadata "demo" "/tmp" ["cat"] 1 none none) else none
    life := fun i => if i = 0 then .live .daemon else .unborn
    files := { (World.fresh fun _ => none).files with
      fifo := fun name => if name = "demo" then some 0 else none
      nextInode := 1 } }
  thread i := if i = 0 then
      (supervisePty plainEnv "demo" "/tmp" "cat" none 1).run >>= fun outcome =>
        .done (supervised outcome)
    else .done .finished

/-- A call of `supervise_pty` in a run from there. -/
def DemoCall (log : List Did) (outcome : Except String (String × Option ℕ))
    (t : Config Act Act.Response ThreadResult World) : Prop :=
  (bridge plainEnv).Calls (fun _ _ _ _ => True) 0 supervising
    (supervisePty plainEnv "demo" "/tmp" "cat" none 1).run log outcome t

/-- A call that was run is a call. -/
theorem exists_demoCall (ms : List (Move Choice World.Disturbance))
    (check : List Did → Config Act Act.Response ThreadResult World → Bool)
    (h : (((bridge plainEnv).trace System.unrestricted 0 ms supervising).any fun (log, t) =>
      (t.thread 0).head.isNone && check log t) = true) :
    ∃ log outcome t, DemoCall log outcome t ∧ check log t = true :=
  System.exists_calls_of_trace (f := supervised) (bridge plainEnv) System.unrestricted 0 ms
    launched_ne_self rfl check (fun _ _ _ _ _ => trivial) h

/-- The call up to the point where both workers run, after which the child exits. -/
def superviseDemo : List (Move Choice World.Disturbance) :=
  steps 0 2 ++ [.run 0 { pid := 7, startTime := 100 }] ++ steps 0 12 ++
    [.run 0 { thread := 1 }, .run 0 { thread := 2 }, .disturb (.processDies 7)]

/-- The wait succeeds, and each worker ends when it sees its flag. -/
theorem supervisePty_cleanedUp_served :
    ∃ log outcome t, DemoCall log outcome t ∧ firstWait log = some true ∧
      (CleanedUp log t.world ↔ firstWait log ≠ some false) := by
  obtain ⟨log, outcome, t, hcall, hwait⟩ := exists_demoCall
    (superviseDemo ++ steps 0 2 ++ [.loop 2] ++ steps 2 4 ++ steps 0 3 ++ steps 1 2 ++ [.loop 1] ++
      steps 1 2 ++ steps 0 1)
    (fun log _ => decide (firstWait log = some true)) (by decide +kernel)
  exact ⟨log, outcome, t, hcall, of_decide_eq_true hwait, supervisePty_cleanedUp plainEnv hcall⟩

/-- When the wait for the child fails, the call returns while the input forwarder runs on. -/
theorem supervisePty_leaks_forwarder :
    ∃ log outcome t, DemoCall log outcome t ∧ ¬CleanedUp log t.world := by
  obtain ⟨log, outcome, t, hcall, hforwards⟩ := exists_demoCall
    (superviseDemo ++ [.run 0 { ok := false }] ++ steps 0 1 ++ [.run 0 { ok := false }])
    (fun log t => log.any (forwards t.world)) (by decide +kernel)
  refine ⟨log, outcome, t, hcall, fun hclean => ?_⟩
  obtain ⟨e, hmem, hforward⟩ := List.any_eq_true.mp hforwards
  unfold forwards at hforward
  split at hforward
  · have hgone := (hclean.input hmem).2.2
    rw [hgone] at hforward
    exact absurd hforward (by decide)
  · cases hforward

end IgnibyteBridge
