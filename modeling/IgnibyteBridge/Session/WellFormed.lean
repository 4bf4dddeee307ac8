import IgnibyteBridge.Session.Sections
import IgnibyteBridge.Session.Upkeep

/-!
# Well-formed records

What every record on disk satisfies at every moment of every run, and so what every
reader of a record may rely on. Each save starts from a record that was loaded, or is an
initial one, and no interleaving can mix two of them.
-/

namespace IgnibyteBridge

open Concurrency Program Fallible World

/-- What the program promises about a record, whatever its session went through. -/
structure SessionMetadata.WellFormed (m : SessionMetadata) : Prop where
  name : validateSessionName m.name = .ok ()
  command : m.command ≠ []
  generation : m.generation < 2 ^ 64
  rows : 0 < m.rows
  cols : 0 < m.cols
  /-- A child is recorded with its start time, or not at all. -/
  child : m.childPid.isSome = m.childStartTime.isSome
  supervisor : m.supervisorPid = none → m.supervisorStartTime = none
  /-- Only a Stopped record has exit information. -/
  live : m.status ≠ .stopped → m.exitStatus = none ∧ m.exitCode = none
  /-- A Stopped record says why. -/
  stopped : m.status = .stopped → m.exitStatus ≠ none

namespace SessionMetadata.WellFormed

variable {m : SessionMetadata}

/-- A size that is asked for is used if it is positive. -/
theorem positive_size (asked : Option ℕ) {size : ℕ} (h : 0 < size) :
    0 < (asked.filter (0 < ·)).getD size := by
  cases hasked : asked.filter (0 < ·) with
  | none => exact h
  | some n =>
    have hpositive := (Option.filter_eq_some_iff.mp hasked).2
    simpa using hpositive

/-- An initial record is well formed. -/
theorem initial {name : String} {command : List String} (cwd : String)
    (previous : Option SessionMetadata) (rows cols : Option ℕ)
    (hname : validateSessionName name = .ok ()) (hcommand : command ≠ []) :
    (initialMetadata name cwd command (nextGeneration previous) rows cols).WellFormed where
  name := hname
  command := hcommand
  generation := by
    unfold initialMetadata nextGeneration
    split
    · exact Nat.one_lt_two_pow (by omega)
    · exact Nat.mod_lt _ (Nat.two_pow_pos 64)
  rows := positive_size rows (by decide)
  cols := positive_size cols (by decide)
  child := rfl
  supervisor _ := rfl
  live _ := ⟨rfl, rfl⟩
  stopped h := by cases h

/-- A record stays so when a supervisor is recorded. -/
theorem withSupervisor (h : m.WellFormed) (pid : ℕ) (startTime : Option ℕ) :
    (m.withSupervisor pid startTime).WellFormed :=
  { h with supervisor := fun hnone => by cases hnone }

/-- A record stays well formed when a child is recorded. -/
theorem withChild (h : m.WellFormed) (pid : ℕ) (startTime : Option ℕ) {command : List String}
    (hcommand : command ≠ []) : (m.withChild pid startTime command).WellFormed :=
  { h with
    command := hcommand
    child := by cases startTime <;> rfl }

/-- A record stays well formed when its run is promoted. -/
theorem promoted (h : m.WellFormed) (hlive : m.status ≠ .stopped) : m.promoted.WellFormed :=
  { h with
    live := fun _ => h.live hlive
    stopped := fun hstopped => by cases hstopped }

/-- A record stays well formed when its run is marked Stopped. -/
theorem markedStopped (h : m.WellFormed) (exitStatus : String) (exitCode : Option ℕ) :
    (m.markedStopped (some exitStatus) exitCode).WellFormed :=
  { h with
    live := fun hlive => absurd rfl hlive
    stopped := fun _ => Option.some_ne_none exitStatus }

/-- The run that a record belongs to does not matter. -/
theorem stamp (h : m.WellFormed) (i : ℕ) (site : Site) : (World.stamp i site m).WellFormed := by
  cases site with
  | initial => exact { h with }
  | _ => exact h

end SessionMetadata.WellFormed

namespace Records

/-- Only well-formed records are saved. -/
def pre : Act → Unit → Prop
  | .disk (.saveMetadata _ m), _ => m.WellFormed
  | _, _ => True

/-- Only well-formed records are loaded. -/
def fact : (a : Act) → Unit → a.Response → Prop
  | .disk (.loadMetadata _), _, .ok m => m.WellFormed
  | _, _, _ => True

/-- The discipline of the records. -/
def discipline : Discipline Act Act.Response Unit where
  pre := pre
  fact := fact
  post _ _ _ := ()

/-- A program that saves only well-formed records. -/
abbrev Sound {α : Type} (p : Result α) : Prop := Keeps discipline (fun _ => True) p

variable {α : Type}

/-- A record that is loaded is well formed. -/
theorem sound_load {name : String} {f : SessionMetadata → Result α}
    (h : ∀ m, m.WellFormed → Sound (f m)) : Sound (loadMetadata name >>= f) := by
  constructor
  intro g _
  rw [meets_bind, loadMetadata, meets_bind]
  refine meets_sessionDir (fun _ => ?_) fun _ _ => trivial
  rw [meets_bind, meets_disk]
  refine ⟨trivial, fun r hr => meets_try (fun m hm => ?_) fun _ _ => trivial⟩
  subst hm
  exact (h m hr).meets _ trivial

/-- The name of a record that is saved was checked. -/
theorem sound_save {site : Site} {m : SessionMetadata}
    (h : validateSessionName m.name = .ok () → m.WellFormed) : Sound (saveMetadata site m) := by
  constructor
  intro g _
  rw [saveMetadata, meets_bind]
  refine meets_sessionDir (fun hname => ?_) fun _ _ => trivial
  rw [meets_bind, meets_disk]
  exact ⟨h hname, fun r _ => meets_try (fun _ _ => trivial) fun _ _ => trivial⟩

/-- An action on processes saves nothing. -/
theorem sound_proc {a : ProcessAct} : Sound (proc a) := by
  constructor
  intro g _
  rw [meets_proc]
  exact ⟨trivial, fun _ _ => trivial⟩

/-- Taking or dropping the lock saves nothing. -/
theorem sound_withStatusLock {name : String} {body : Result α} (h : Sound body) :
    Sound (withStatusLock name body) := by
  have hlock : ∀ a : DiskAct, (∀ site m, a ≠ .saveMetadata site m) → Sound (disk a) := by
    intro a ha
    constructor
    intro g _
    rw [meets_disk]
    refine ⟨?_, fun _ _ => trivial⟩
    cases a with
    | saveMetadata site m => exact absurd rfl (ha site m)
    | _ => trivial
  refine (hlock _ fun _ _ h => by cases h).bind fun r => ?_
  cases r with
  | held =>
    refine (keeps_caught h).bind fun x => ?_
    exact (hlock _ fun _ _ h => by cases h).bind fun _ => keeps_try x
  | _ => exact keeps_throw _

/-- A run is marked Stopped in a well-formed record. -/
theorem sound_markStopped (name exitStatus : String) (exitCode generation : Option ℕ)
    (by_ : Stopper) : Sound (markStopped name (some exitStatus) exitCode generation by_) := by
  refine (keeps_sessionDir name).bind fun _ => sound_withStatusLock (sound_load fun m hm => ?_)
  refine (keeps_pure ()).ite ((keeps_pure ()).ite ?_)
  exact sound_save fun _ => hm.markedStopped exitStatus exitCode

/-- Owners save well-formed records. -/
theorem upkeep (env : Env) : Upkeep env discipline fun _ => True where
  allowed {a g} ha _ := by
    unfold discipline pre
    dsimp only
    split
    · cases ha
    · trivial
  unguarded _ _ _ := trivial
  initial name cwd cmd command previous rows cols hcommand :=
    sound_save fun hname => .initial cwd previous rows cols hname (ne_nil_of_parseCommand hcommand)
  recordChild name generation child command hcommand := by
    refine sound_withStatusLock (sound_load fun m hm => keeps_try_bind fun _ _ => ?_)
    exact sound_proc.bind fun t => sound_save fun _ => hm.withChild child t hcommand
  promote name generation := by
    refine sound_withStatusLock (sound_load fun m hm => keeps_try_bind fun _ hlive => ?_)
    exact sound_save fun _ => hm.promoted (checkRunLive_eq_ok hlive).2
  markUnfinished _ _ _ _ := sound_markStopped ..
  markFinished _ _ _ _ := sound_markStopped ..

/-- A supervisor that adopts a run saves well-formed records. -/
theorem sound_adoptRun (name : String) : Sound (adoptRun name) := by
  refine sound_withStatusLock (sound_load fun m hm => sound_proc.bind fun pid => ?_)
  refine sound_proc.bind fun t => ?_
  exact (sound_save fun _ => hm.withSupervisor pid t).bind fun _ => keeps_pure _

end Records

namespace World

/-- Every record on disk lies under its name and is well formed. -/
def Proper (w : World) : Prop := ∀ n m, w.metadata n = some m → m.name = n ∧ m.WellFormed

variable {w w' : World} {i : ℕ} {a : Act} {c : Choice} {r : a.Response}

/-- Every record on disk stays well formed. -/
theorem Proper.act (hJ : w.Proper) (hpre : Records.pre a ())
    (h : perform i a c w = some (r, w')) : Records.fact a () r ∧ w'.Proper := by
  constructor
  · unfold Records.fact
    split
    · obtain ⟨-, ⟨-, e, hr⟩ | ⟨d, hd, hr | ⟨-, e, hr⟩⟩⟩ := performDisk_load h
      · cases hr
      · cases hr
        exact (hJ _ _ hd).2
      · cases hr
    · trivial
  · intro n d hd
    rcases records_cases h with ⟨-, hmetadata, -⟩ | ⟨site, m, rfl, -, rfl⟩
    · exact hJ n d (hmetadata ▸ hd)
    · by_cases hn : n = m.name
      · subst hn
        simp only [World.save, Function.update_self, Option.some.injEq] at hd
        rw [← hd]
        exact ⟨by cases site <;> rfl, SessionMetadata.WellFormed.stamp hpre i site⟩
      · exact hJ n d ((Function.update_of_ne hn ..).symm.trans hd)

end World

/-- **Records are well formed.** In every state of every run, whichever processes are killed
and however starts, owners and stops of a name interleave, the record on disk of a session
is under its name and well formed. -/
theorem record_wellFormed (env : Env) (requests : ℕ → Option Request)
    {s : Config Act Act.Response ThreadResult World} {n : String} {m : SessionMetadata}
    (h : (bridge env).Reaches (fun _ _ _ _ => True) (boot env requests) s)
    (hm : s.world.metadata n = some m) : m.name = n ∧ m.WellFormed := by
  have hcovers : Covers (bridge env) Records.discipline (fun _ _ => True) fun _ _ _ => () :=
    (Records.upkeep env).covers (Records.upkeep env) Records.sound_adoptRun (fun _ => id)
      (fun _ => trivial) fun _ _ _ _ _ => trivial
  have hpreserves : Preserves (bridge env) Records.discipline (fun _ _ _ => ())
      (fun _ _ _ _ => True) fun w _ => w.Proper :=
    { act := fun hJ _ _ hpre hact => hJ.act hpre hact
      disturb := fun hJ hdisturb n d hd => hJ n d ((disturb_sameDisk hdisturb).1.metadata ▸ hd) }
  have hboot : Outlined Records.discipline (fun _ _ => True) (fun w _ => w.Proper)
      (boot env requests) := by
    have hproper : (World.fresh requests).Proper := by
      intro n d hd
      cases hd
    exact ⟨fun _ => (), hproper, fun i => (Records.upkeep env).boot requests i trivial⟩
  obtain ⟨-, hJ, -⟩ := h.outline hcovers hpreserves hboot
  exact hJ n m hm

/-- A session was started, and stopped while it was Running. -/
theorem record_wellFormed_stopped :
    ∃ (s : Config Act Act.Response ThreadResult World) (m : SessionMetadata),
      (bridge plainEnv).Reaches (fun _ _ _ _ => True)
        (boot plainEnv (served [startDemo true, stopDemo])) s ∧
      s.world.metadata "demo" = some m ∧ m.status = .stopped ∧ m.name = "demo" ∧ m.WellFormed := by
  obtain ⟨s, hreach, hs⟩ := System.exists_reaches_of_exec (bridge plainEnv) System.unrestricted
    (steps 0 13 ++ [.run 0 { thread := 2 }] ++ steps 2 2 ++
      [.run 2 { pid := 7, startTime := 100 }] ++ steps 2 12 ++ steps 1 9)
    (boot plainEnv (served [startDemo true, stopDemo]))
    (fun s => (s.world.metadata "demo").any fun m => m.status = .stopped)
    (fun _ _ _ _ _ => trivial) (by decide +kernel)
  obtain ⟨m, hm, hstopped⟩ := (Option.any_eq_true _ _).mp hs
  exact ⟨s, m, hreach, hm, of_decide_eq_true hstopped,
    record_wellFormed plainEnv _ hreach hm⟩

end IgnibyteBridge
