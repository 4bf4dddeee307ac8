import IgnibyteBridge.Session.Sections

/-!
# A Stopped record is final

Once a Stopped record is on disk, only the initial record of another start can
change its status, its generation or its exit information.
-/

namespace IgnibyteBridge

open Concurrency World

namespace World

/-- The record of a session is Stopped, with the outcome of `d`. -/
def Settled (w : World) (n : String) (d : SessionMetadata) : Prop :=
  ∃ d', w.metadata n = some d' ∧ d'.status = .stopped ∧ d'.generation = d.generation ∧
    d'.exitStatus = d.exitStatus ∧ d'.exitCode = d.exitCode

/-- No start saves an initial record of the session. -/
def NoInitialSave (n : String) (_ : World) (_ : ℕ) (a : Act) (c : Choice) : Prop :=
  ∀ x ∈ a.saves, x.1 = .initial → c.ok = true → x.2.name ≠ n

instance (n : String) (w : World) (i : ℕ) (a : Act) (c : Choice) :
    Decidable (NoInitialSave n w i a c) :=
  inferInstanceAs (Decidable (∀ x ∈ a.saves, _))

/-- A record that replaces a Stopped one has its outcome: only a supervisor that
records its PID saves without a check of the status. -/
theorem settled_of_mayReplace {g : Knowledge} {c m : SessionMetadata} {site : Site}
    (h : g.MayReplace c m site) (hstopped : c.status = .stopped) :
    m.status = .stopped ∧ m.exitStatus = c.exitStatus ∧ m.exitCode = c.exitCode := by
  cases site with
  | initial => exact h.elim
  | supervisor =>
    obtain ⟨o, pid, t, -, -, -, rfl⟩ := h
    exact ⟨hstopped, rfl, rfl⟩
  | child =>
    obtain ⟨o, pid, t, command, -, -, -, -, hlive, -⟩ := h
    exact absurd hstopped hlive
  | promote =>
    obtain ⟨o, -, -, -, -, hlive, -⟩ := h
    exact absurd hstopped hlive
  | stopped by_ => exact absurd hstopped h.1

/-- No save but an initial one unsettles a record. -/
theorem Settled.save {w : World} {γ : ℕ → Knowledge} {i : ℕ} {site : Site} {m : SessionMetadata}
    {n : String} {d : SessionMetadata} (h : w.Settled n d) (hJ : Excluded w γ)
    (hi : w.alive i = true) (hpre : Knowledge.pre (.disk (.saveMetadata site m)) (γ i))
    (hinitial : site = .initial → m.name ≠ n) : (w.save i site m).Settled n d := by
  obtain ⟨d', hd', hstopped, hgeneration, hstatus, hcode⟩ := h
  by_cases hn : n = m.name
  · subst hn
    rcases hpre with ⟨hsite, -⟩ | ⟨c, hlocked, hreplace⟩
    · exact absurd rfl (hinitial hsite)
    -- The copy that is replaced is the Stopped record itself: no start intervened.
    obtain ⟨hname, hsite, hgen, -⟩ := hreplace.keeps
    have hpending := ((hJ.threads i hi).copy _ _ hlocked).2
    rw [← hname] at hpending
    have hc : c = d' := hpending.eq hd' (by simp [hstopped])
    subst hc
    obtain ⟨hm, hexit, hexitCode⟩ := settled_of_mayReplace hreplace hstopped
    refine ⟨m, ?_, hm, hgen.trans hgeneration, hexit.trans hstatus, hexitCode.trans hcode⟩
    simp only [World.save, Function.update_self]
    cases site <;> first | rfl | exact absurd rfl hsite
  · exact ⟨d', (Function.update_of_ne hn ..).trans hd', hstopped, hgeneration, hstatus, hcode⟩

/-- A settled record stays settled while no record is saved. -/
theorem Settled.of_metadata {w w' : World} {n : String} {d : SessionMetadata} (h : w.Settled n d)
    (hmetadata : w'.metadata = w.metadata) : w'.Settled n d := by
  unfold Settled
  rw [hmetadata]
  exact h

/-- No action unsettles a record without an initial save. -/
theorem Settled.act {w w' : World} {γ : ℕ → Knowledge} {i : ℕ} {a : Act} {c : Choice}
    {r : a.Response} {n : String} {d : SessionMetadata} (h : w.Settled n d) (hJ : Excluded w γ)
    (hi : w.alive i = true) (hok : NoInitialSave n w i a c) (hpre : Knowledge.pre a (γ i))
    (hperform : perform i a c w = some (r, w')) : w'.Settled n d := by
  rcases records_cases hperform with ⟨-, hmetadata, -⟩ | ⟨site, m, rfl, hc, rfl⟩
  · exact h.of_metadata hmetadata
  · exact h.save hJ hi hpre fun hsite => hok _ rfl hsite hc

end World

/-- **A Stopped record is final.** From any reachable state with a Stopped record
on disk, its status, generation and exit information stay what they are until a
start saves an initial record of that session. -/
theorem stopped_record_final (env : Env) (requests : ℕ → Option Request)
    {s s' : Config Act Act.Response ThreadResult World} {n : String} {d : SessionMetadata}
    (hreach : (bridge env).Reaches (fun _ _ _ _ => True) (boot env requests) s)
    (hd : s.world.metadata n = some d) (hstopped : d.status = .stopped)
    (hrun : (bridge env).Reaches (NoInitialSave n) s s') :
    ∃ d', s'.world.metadata n = some d' ∧ d'.status = .stopped ∧
      d'.generation = d.generation ∧ d'.exitStatus = d.exitStatus ∧
      d'.exitCode = d.exitCode := by
  have houtlined : Outlined Knowledge.protocol Knowledge.Finished
      (fun w γ => Excluded w γ ∧ True) s :=
    outlined_of_reaches (fun _ _ _ _ _ _ _ => trivial) (fun _ _ _ => trivial) trivial hreach
  obtain ⟨γ, ⟨hexcluded, -⟩, hfollows⟩ := houtlined
  have hsettled : s.world.Settled n d := ⟨d, hd, hstopped, rfl, rfl, rfl⟩
  have hpreserves : Preserves (bridge env) Knowledge.protocol Knowledge.fresh (NoInitialSave n)
      fun w γ => Excluded w γ ∧ w.Settled n d := by
    constructor
    · intro w γ i a c r w' hJ hi hok hpre hperform
      obtain ⟨hfact, hJ'⟩ := hJ.1.act hi hpre hperform
      exact ⟨hfact, hJ', hJ.2.act hJ.1 hi hok hpre hperform⟩
    · intro w γ e w' hJ hdisturb
      exact ⟨hJ.1.disturb hdisturb,
        hJ.2.of_metadata (disturb_sameDisk hdisturb).1.metadata⟩
  obtain ⟨γ', ⟨-, hfinal⟩, -⟩ := System.Reaches.outline (Knowledge.protocol_covers env) hpreserves
    hrun ⟨γ, ⟨hexcluded, hsettled⟩, hfollows⟩
  exact hfinal

/-- A session whose PTY cannot be opened is Stopped, and stays so while its start
still waits for it and another client stops it. -/
theorem stopped_record_final_unopened :
    ∃ (s s' : Config Act Act.Response ThreadResult World) (d d' : SessionMetadata),
      s.world.metadata "demo" = some d ∧ d.status = .stopped ∧
      (bridge plainEnv).Reaches (NoInitialSave "demo") s s' ∧
      s'.world.life 0 = .gone ∧ s'.world.life 1 = .gone ∧
      s'.world.metadata "demo" = some d' ∧ d'.status = .stopped ∧
      d'.generation = d.generation ∧ d'.exitStatus = d.exitStatus ∧
      d'.exitCode = d.exitCode := by
  obtain ⟨s, hreach, hs⟩ := System.exists_reaches_of_exec (bridge plainEnv) System.unrestricted
    (steps 0 13 ++ [.run 0 { thread := 2 }] ++ steps 2 1 ++ [.run 2 { ok := false }] ++ steps 2 3)
    (boot plainEnv (served [startDemo true, stopDemo]))
    (fun s => (s.world.metadata "demo").any (·.status = .stopped) &&
      ((bridge plainEnv).exec (fun w i a c => NoInitialSave "demo" w i a c)
        (steps 2 2 ++ steps 1 2 ++ steps 0 3) s).any
          fun s' => s'.world.life 0 = .gone && s'.world.life 1 = .gone)
    (fun _ _ _ _ _ => trivial) (by decide +kernel)
  obtain ⟨hstopped, hrest⟩ := (Bool.and_eq_true _ _).mp hs
  obtain ⟨d, hd, hd'⟩ := (Option.any_eq_true _ _).mp hstopped
  obtain ⟨s', hrun, hs'⟩ := System.exists_reaches_of_exec _ _ _ _ _
    (fun _ _ _ _ h => of_decide_eq_true h) hrest
  obtain ⟨hgone, hgone'⟩ := (Bool.and_eq_true _ _).mp hs'
  have hstatus : d.status = .stopped := of_decide_eq_true hd'
  obtain ⟨d', hfinal⟩ := stopped_record_final plainEnv _ hreach hd hstatus hrun
  exact ⟨s, s', d, d', hd, hstatus, hrun, of_decide_eq_true hgone, of_decide_eq_true hgone', hfinal⟩

end IgnibyteBridge
