import IgnibyteBridge.Session.Adoption

/-!
# The life of a run

A start can save its initial record between the load and the save of an owner or
a stop, and that save then brings an earlier run's record back. Even so the
records of one run are saved one after the other, each made from the last: what
a run was started with stays, its status only moves on, and its outcome is final.
-/

namespace IgnibyteBridge

open Concurrency World

/-- How far a session has come. -/
def SessionStatus.stage : SessionStatus → ℕ
  | .starting => 0
  | .running => 1
  | .stopped => 2

/-- `m'` is `m`, or a later record of the same run. -/
structure SessionMetadata.Advances (m m' : SessionMetadata) : Prop where
  origin : m'.origin = m.origin
  name : m'.name = m.name
  cwd : m'.cwd = m.cwd
  generation : m'.generation = m.generation
  geometry : m'.rows = m.rows ∧ m'.cols = m.cols
  status : m.status.stage ≤ m'.status.stage
  /-- After the end only a supervisor's PID is still recorded. -/
  outcome : m.status = .stopped → m'.exitStatus = m.exitStatus ∧ m'.exitCode = m.exitCode ∧
    m'.command = m.command ∧ m'.childPid = m.childPid ∧ m'.childStartTime = m.childStartTime

namespace SessionMetadata

variable {m m' m'' : SessionMetadata}

/-- A record follows itself. -/
theorem Advances.refl (m : SessionMetadata) : m.Advances m :=
  ⟨rfl, rfl, rfl, rfl, ⟨rfl, rfl⟩, le_rfl, fun _ => ⟨rfl, rfl, rfl, rfl, rfl⟩⟩

/-- After a Stopped record of the same run there is a Stopped one only. -/
theorem Advances.stopped (h : m.Advances m') (hstopped : m.status = .stopped) :
    m'.status = .stopped := by
  have hstage := h.status
  rw [hstopped] at hstage
  cases hstatus : m'.status with
  | stopped => rfl
  | starting => simp [hstatus, SessionStatus.stage] at hstage
  | running => simp [hstatus, SessionStatus.stage] at hstage

/-- What follows a record that follows another follows that one. -/
theorem Advances.trans (h : m.Advances m') (h' : m'.Advances m'') : m.Advances m'' where
  origin := h'.origin.trans h.origin
  name := h'.name.trans h.name
  cwd := h'.cwd.trans h.cwd
  generation := h'.generation.trans h.generation
  geometry := ⟨h'.geometry.1.trans h.geometry.1, h'.geometry.2.trans h.geometry.2⟩
  status := h.status.trans h'.status
  outcome hstopped := by
    obtain ⟨hexit, hcode, hcommand, hpid, htoken⟩ := h.outcome hstopped
    obtain ⟨hexit', hcode', hcommand', hpid', htoken'⟩ := h'.outcome (h.stopped hstopped)
    exact ⟨hexit'.trans hexit, hcode'.trans hcode, hcommand'.trans hcommand, hpid'.trans hpid,
      htoken'.trans htoken⟩

end SessionMetadata

/-- A record that replaces another one is a later record of its run. -/
theorem Knowledge.MayReplace.advances {g : Knowledge} {c m : SessionMetadata} {site : Site}
    (h : g.MayReplace c m site) : c.Advances m := by
  cases site with
  | initial => exact h.elim
  | supervisor =>
    obtain ⟨o, pid, t, -, -, -, rfl⟩ := h
    exact ⟨rfl, rfl, rfl, rfl, ⟨rfl, rfl⟩, le_rfl, fun _ => ⟨rfl, rfl, rfl, rfl, rfl⟩⟩
  | child =>
    obtain ⟨o, pid, t, command, -, -, -, -, hlive, rfl, -⟩ := h
    exact ⟨rfl, rfl, rfl, rfl, ⟨rfl, rfl⟩, le_rfl, fun hstopped => absurd hstopped hlive⟩
  | promote =>
    obtain ⟨o, -, -, -, -, hlive, rfl⟩ := h
    refine ⟨rfl, rfl, rfl, rfl, ⟨rfl, rfl⟩, ?_, fun hstopped => absurd hstopped hlive⟩
    change c.status.stage ≤ 1
    cases hstatus : c.status with
    | stopped => exact absurd hstatus hlive
    | starting => exact Nat.zero_le 1
    | running => exact le_rfl
  | stopped by_ =>
    obtain ⟨hlive, -, es, ec, rfl⟩ := h
    refine ⟨rfl, rfl, rfl, rfl, ⟨rfl, rfl⟩, ?_, fun hstopped => absurd hstopped hlive⟩
    change c.status.stage ≤ 2
    cases c.status <;> decide

namespace World

/-- The record that a thread loaded is of a run initialized by then, and still on
disk, unless a record of a later run is. -/
def Dated (w : World) (i : ℕ) (g : Knowledge) : Prop :=
  ∀ n c, g.locked = some (n, some c) → ∃ k, w.loadedAt i = some k ∧ k ≤ (w.inits n).length ∧
    c.origin ∈ (w.inits n).take k ∧
      (w.metadata n = some c ∨ ∃ d, w.metadata n = some d ∧ d.origin ∈ (w.inits n).drop k)

/-- The records on disk and in critical sections are of initialized runs. -/
structure Chronicle (w : World) (γ : ℕ → Knowledge) : Prop where
  disk : ∀ n d, w.metadata n = some d → d.origin ∈ w.inits n
  threads : Threads Dated w γ

/-- Every record of the run of `m` is a later one than `m`. -/
structure Succeeds (n : String) (m : SessionMetadata) (w : World) (γ : ℕ → Knowledge) : Prop where
  initialized : m.origin ∈ w.inits n
  disk : ∀ d, w.metadata n = some d → d.origin = m.origin → m.Advances d
  threads : Threads (fun _ _ g => ∀ c, g.locked = some (n, some c) → c.origin = m.origin →
    m.Advances c) w γ

variable {w w' : World} {γ : ℕ → Knowledge} {i : ℕ} {a : Act} {c : Choice} {r : a.Response}

/-- What a thread has loaded is as dated while no record is saved. -/
theorem Dated.of_sameDisk {g : Knowledge} (h : Dated w i g) (hmetadata : w'.metadata = w.metadata)
    (hinits : w'.inits = w.inits) (hloaded : w'.loadedAt i = w.loadedAt i) : Dated w' i g := by
  unfold Dated
  rw [hmetadata, hinits, hloaded]
  exact h

/-- An initial record is of a run later than all that were loaded. -/
theorem Dated.save_initial {k : ℕ} {g : Knowledge} {m : SessionMetadata} (h : Dated w k g) :
    Dated (w.save i .initial m) k g := by
  intro n c hlocked
  obtain ⟨at_, hloaded, hle, hbefore, hafter⟩ := h n c hlocked
  by_cases hn : n = m.name
  · subst hn
    have hinits : (w.save i .initial m).inits m.name = w.inits m.name ++ [i] := Function.update_self ..
    rw [hinits]
    refine ⟨at_, hloaded, ?_, ?_, .inr ⟨_, Function.update_self .., ?_⟩⟩
    · rw [List.length_append]
      omega
    · rw [List.take_append]
      exact List.mem_append_left _ hbefore
    · change i ∈ _
      rw [List.drop_append_of_le_length hle]
      exact List.mem_append_right _ (List.mem_singleton_self i)
  · have hinits : (w.save i .initial m).inits n = w.inits n := Function.update_of_ne hn ..
    have hmetadata : (w.save i .initial m).metadata n = w.metadata n := Function.update_of_ne hn ..
    rw [hinits, hmetadata]
    exact ⟨at_, hloaded, hle, hbefore, hafter⟩

/-- A save under `status.lock` concerns no record that another thread loaded. -/
theorem Dated.save_other {k : ℕ} {g : Knowledge} {site : Site} {m : SessionMetadata}
    (h : Dated w k g) (hsite : site ≠ .initial) (hother : ∀ c, g.locked ≠ some (m.name, c)) :
    Dated (w.save i site m) k g := by
  intro n c hlocked
  have hn : n ≠ m.name := by
    rintro rfl
    exact hother _ hlocked
  have hinits : (w.save i site m).inits = w.inits := by
    cases site <;> first | rfl | exact absurd rfl hsite
  have hmetadata : (w.save i site m).metadata n = w.metadata n := Function.update_of_ne hn ..
  rw [hinits, hmetadata]
  exact h n c hlocked

/-- A thread that saved under `status.lock` has given its copy up. -/
theorem dated_saved {site : Site} {g : Knowledge} {m : SessionMetadata} (hsite : site ≠ .initial) :
    Dated w i (g.save site m) := by
  intro n c hlocked
  cases site
  case initial => exact absurd rfl hsite
  all_goals cases hlocked

/-- The record on disk after a save is of an initialized run. -/
theorem Chronicle.disk_save {site : Site} {m : SessionMetadata} (hJ : Chronicle w γ)
    (hi : w.alive i = true) (hpre : Knowledge.pre (.disk (.saveMetadata site m)) (γ i))
    (n : String) (d : SessionMetadata) (hd : (w.save i site m).metadata n = some d) :
    d.origin ∈ (w.save i site m).inits n := by
  rcases hpre with ⟨rfl, -⟩ | ⟨c', hlocked, hreplace⟩
  · by_cases hn : n = m.name
    · subst hn
      simp only [World.save, Function.update_self, Option.some.injEq] at hd
      subst hd
      change i ∈ Function.update w.inits m.name _ m.name
      rw [Function.update_self]
      exact List.mem_append_right _ (List.mem_singleton_self i)
    · rw [show (w.save i .initial m).inits n = w.inits n from Function.update_of_ne hn ..]
      exact hJ.disk n d ((Function.update_of_ne hn ..).symm.trans hd)
  · obtain ⟨hname, hsite, -, horigin⟩ := hreplace.keeps
    have hinits : (w.save i site m).inits = w.inits := by
      cases site <;> first | rfl | exact absurd rfl hsite
    rw [hinits]
    by_cases hn : n = m.name
    · subst hn
      have hdm : d = m := by
        simp only [World.save, Function.update_self, Option.some.injEq] at hd
        rw [← hd]
        cases site <;> first | rfl | exact absurd rfl hsite
      obtain ⟨k, -, -, hmem, -⟩ := hJ.threads i hi _ _ hlocked
      rw [hdm, horigin, hname]
      exact List.mem_of_mem_take hmem
    · exact hJ.disk n d ((Function.update_of_ne hn ..).symm.trans hd)

/-- A record that was just loaded is on disk. -/
theorem dated_load {n : String} {c : Choice} {r : Except String SessionMetadata}
    (hJ : Chronicle w γ) (hpre : Knowledge.pre (.disk (.loadMetadata n)) (γ i))
    (h : performDisk i (.loadMetadata n) c w = some (r, w')) :
    Dated w' i ((γ i).load r.toOption) := by
  obtain ⟨rfl, hr⟩ := performDisk_load h
  intro n' c' hlocked
  obtain ⟨⟨n₀, x⟩, hx, heq⟩ := Option.map_eq_some_iff.mp hlocked
  obtain ⟨rfl, -⟩ := hpre.1 n₀ x hx
  rcases hr with ⟨-, e, rfl⟩ | ⟨m, hm, rfl | ⟨-, e, rfl⟩⟩ <;> cases heq
  refine ⟨_, Function.update_self .., le_rfl, ?_, .inl hm⟩
  change c'.origin ∈ List.take (w.inits n₀).length (w.inits n₀)
  rw [List.take_length]
  exact hJ.disk n₀ c' hm

/-- Every action keeps the chronicle. -/
theorem Chronicle.act (env : Env) (hJ : Chronicle w γ) (hexcluded : Excluded w γ)
    (hi : w.alive i = true) (hpre : Knowledge.pre a (γ i)) (h : perform i a c w = some (r, w')) :
    Chronicle w' (ghosts (bridge env) Knowledge.protocol Knowledge.fresh γ i a r) where
  disk n d hd := by
    rcases records_cases h with ⟨-, hmetadata, hinits⟩ | ⟨site, m, rfl, -, rfl⟩
    · rw [hinits]
      exact hJ.disk n d (hmetadata ▸ hd)
    · exact hJ.disk_save hi hpre n d hd
  threads := by
    refine threads_act env hexcluded.sound hi h hJ.threads (fun hT => ?_) (fun k hk halive hT => ?_)
      fun k p _ => ?_
    · cases hload : a.loads with
      | some n =>
        obtain rfl := eq_of_loads hload
        exact dated_load hJ hpre h
      | none =>
        have hkept : Dated w i (Knowledge.post a (γ i) r) := fun n m hlocked =>
          hT n m (post_locked hload hlocked)
        rcases records_cases h with ⟨-, hmetadata, hinits⟩ | ⟨site, m, rfl, hc, rfl⟩
        · exact hkept.of_sameDisk hmetadata hinits (perform_loadedAt h (.inl hload))
        · obtain ⟨rfl, -⟩ := perform_saved h hc
          rcases hpre with ⟨rfl, -⟩ | ⟨c', -, hreplace⟩
          · exact hkept.save_initial
          · exact dated_saved hreplace.keeps.2.1
    · rcases records_cases h with ⟨-, hmetadata, hinits⟩ | ⟨site, m, rfl, -, rfl⟩
      · exact hT.of_sameDisk hmetadata hinits (perform_loadedAt h (.inr hk))
      · rcases hpre with ⟨rfl, -⟩ | ⟨c', hlocked, hreplace⟩
        · exact hT.save_initial
        · -- The saving thread holds the lock that the other one would have to hold.
          obtain ⟨hname, hsite, -⟩ := hreplace.keeps
          refine hT.save_other hsite fun x hx => hk ?_
          have hmine := (hexcluded.threads i hi).status _ _ hlocked
          have hother := (hexcluded.threads k halive).status _ _ hx
          rw [hname, hmine] at hother
          exact (Option.some.inj hother).symm
    · intro n m hlocked
      unfold Knowledge.fresh at hlocked
      split at hlocked <;> cases hlocked

/-- What happens outside the bridge saves no record. -/
theorem Chronicle.disturb {e : Disturbance} (hJ : Chronicle w γ) (h : w.disturb e = some w') :
    Chronicle w' γ := by
  obtain ⟨hdisk, -⟩ := disturb_sameDisk h
  refine ⟨fun n d hd => ?_, threads_disturb h hJ.threads fun k _ hT =>
    hT.of_sameDisk hdisk.metadata hdisk.inits (congrFun hdisk.loadedAt k)⟩
  rw [hdisk.inits]
  exact hJ.disk n d (hdisk.metadata ▸ hd)

/-- Before the first action no record was saved. -/
theorem chronicle_fresh (requests : ℕ → Option Request) :
    Chronicle (World.fresh requests) fun _ => {} :=
  ⟨fun n d hd => (by cases hd), fun k _ n c hc => (by cases hc)⟩

/-- A thread that loaded a record of the run whose record is on disk loaded that one. -/
theorem Dated.eq {g : Knowledge} {n : String} {m c : SessionMetadata} (h : Dated w i g)
    (hnodup : (w.inits n).Nodup) (hm : w.metadata n = some m)
    (hlocked : g.locked = some (n, some c)) (horigin : c.origin = m.origin) : c = m := by
  obtain ⟨k, -, -, hbefore, hc | ⟨d, hd, hafter⟩⟩ := h n c hlocked
  · rw [hc] at hm
    exact Option.some.inj hm
  · rw [hd] at hm
    cases hm
    rw [horigin] at hbefore
    rw [← List.take_append_drop k (w.inits n)] at hnodup
    exact absurd hafter ((List.disjoint_of_nodup_append hnodup) hbefore)

/-- A record on disk is the last one of its run. -/
theorem succeeds_self {n : String} {m : SessionMetadata} (hchronicle : Chronicle w γ)
    (hregistered : Registered w γ) (hm : w.metadata n = some m) : Succeeds n m w γ where
  initialized := hchronicle.disk n m hm
  disk d hd _ := by
    rw [hm] at hd
    cases hd
    exact .refl m
  threads k hk c hlocked horigin := by
    rw [(hchronicle.threads k hk).eq (hregistered.nodup n) hm hlocked horigin]
    exact .refl m

/-- The record on disk after a save is a later one of its run. -/
theorem Succeeds.disk_save {n : String} {m m' d : SessionMetadata} {site : Site}
    (hJ : Succeeds n m w γ) (hregistered : Registered w γ) (hi : w.alive i = true)
    (hpre : Knowledge.pre (.disk (.saveMetadata site m')) (γ i))
    (hd : (w.save i site m').metadata n = some d) (horigin : d.origin = m.origin) :
    m.Advances d := by
  by_cases hn : n = m'.name
  · subst hn
    simp only [World.save, Function.update_self, Option.some.injEq] at hd
    rcases hpre with ⟨rfl, -, st, x, hst, -, -, -, -, huninitialized, -⟩ | ⟨c', hlocked, hreplace⟩
    · -- A start that saves its initial record has saved none before.
      have hnew : i ∉ w.inits m'.name := by
        rw [hregistered.inits]
        rintro ⟨st', hst', -, hinit⟩
        rw [hst] at hst'
        cases hst'
        exact hinit huninitialized
      have hi' : i = m.origin := by rw [← horigin, ← hd]; rfl
      exact absurd (hi' ▸ hJ.initialized) hnew
    · obtain ⟨hname, hsite, -, horigin'⟩ := hreplace.keeps
      have hdm : m' = d := by
        rw [← hd]
        cases site <;> first | rfl | exact absurd rfl hsite
      subst hdm
      rw [hname] at hJ
      exact (hJ.threads i hi c' hlocked (horigin'.symm.trans horigin)).trans hreplace.advances
  · exact hJ.disk d ((Function.update_of_ne hn ..).symm.trans hd) horigin

/-- Every action keeps the order of a run's records. -/
theorem Succeeds.act (env : Env) {n : String} {m : SessionMetadata} (hJ : Succeeds n m w γ)
    (hexcluded : Excluded w γ) (hregistered : Registered w γ) (hi : w.alive i = true)
    (hpre : Knowledge.pre a (γ i)) (h : perform i a c w = some (r, w')) :
    Succeeds n m w' (ghosts (bridge env) Knowledge.protocol Knowledge.fresh γ i a r) where
  initialized := (perform_inits hexcluded hi hpre h n).subset hJ.initialized
  disk d hd horigin := by
    rcases records_cases h with ⟨-, hmetadata, -⟩ | ⟨site, m', rfl, -, rfl⟩
    · exact hJ.disk d (hmetadata ▸ hd) horigin
    · exact hJ.disk_save hregistered hi hpre hd horigin
  threads := by
    refine threads_act env hexcluded.sound hi h hJ.threads (fun hT c' hlocked => ?_)
      (fun k hk halive hT => hT) fun k p _ c' hlocked => ?_
    · cases hload : a.loads with
      | some name =>
        obtain rfl := eq_of_loads hload
        obtain ⟨-, hr⟩ := performDisk_load h
        obtain ⟨⟨n₀, x⟩, hx, heq⟩ := Option.map_eq_some_iff.mp hlocked
        obtain ⟨rfl, -⟩ := hpre.1 n₀ x hx
        rcases hr with ⟨-, e, rfl⟩ | ⟨d, hd, rfl | ⟨-, e, rfl⟩⟩ <;> cases heq
        exact hJ.disk _ hd
      | none => exact hT c' (post_locked hload hlocked)
    · unfold Knowledge.fresh at hlocked
      split at hlocked <;> cases hlocked

/-- What happens outside the bridge leaves the record a successor of the first. -/
theorem Succeeds.disturb {n : String} {m : SessionMetadata} {e : Disturbance}
    (hJ : Succeeds n m w γ) (h : w.disturb e = some w') : Succeeds n m w' γ := by
  obtain ⟨hdisk, -⟩ := disturb_sameDisk h
  refine ⟨hdisk.inits ▸ hJ.initialized, fun d hd => hJ.disk d (hdisk.metadata ▸ hd),
    threads_disturb h hJ.threads fun _ _ => id⟩

end World

/-- **A run only moves on.** In any run of the system, from any reachable state on, a
record on disk that is of the same run as an earlier one has its name, working directory,
generation and geometry, its status is not an earlier one, and once that was Stopped, its
outcome is the same. Other runs' records may have been on disk in between. -/
theorem run_moves_on (env : Env) (requests : ℕ → Option Request)
    {s s' : Config Act Act.Response ThreadResult World} {n : String} {m m' : SessionMetadata}
    (hreach : (bridge env).Reaches (fun _ _ _ _ => True) (boot env requests) s)
    (hrun : (bridge env).Reaches (fun _ _ _ _ => True) s s') (hm : s.world.metadata n = some m)
    (hm' : s'.world.metadata n = some m') (horigin : m'.origin = m.origin) : m.Advances m' := by
  obtain ⟨γ, ⟨hexcluded, hregistered, hchronicle⟩, hfollows⟩ := registered_of_reaches
    (fun hexcluded _ hJ hi _ hpre hperform => hJ.act env hexcluded hi hpre hperform)
    (fun hJ hdisturb => hJ.disturb hdisturb) (chronicle_fresh requests) hreach
  have hsucceeds : Succeeds n m s.world γ := succeeds_self hchronicle hregistered hm
  have hpreserves : Preserves (bridge env) Knowledge.protocol Knowledge.fresh
      (fun _ _ _ _ => True) fun w γ => Excluded w γ ∧ Registered w γ ∧ Succeeds n m w γ := by
    constructor
    · intro w γ i a c r w' hJ hi _ hpre hperform
      obtain ⟨hfact, hexcluded'⟩ := hJ.1.act hi hpre hperform
      exact ⟨hfact, hexcluded', hJ.2.1.act env hJ.1.sound hi hpre hperform,
        hJ.2.2.act env hJ.1 hJ.2.1 hi hpre hperform⟩
    · intro w γ e w' hJ hdisturb
      exact ⟨hJ.1.disturb hdisturb, hJ.2.1.disturb hdisturb, hJ.2.2.disturb hdisturb⟩
  obtain ⟨γ', ⟨-, -, hfinal⟩, -⟩ := System.Reaches.outline (Knowledge.protocol_covers env)
    hpreserves hrun ⟨γ, ⟨hexcluded, hregistered, hsucceeds⟩, hfollows⟩
  exact hfinal.disk m' hm' horigin

/-- The record of a run whose owner marks it Stopped after a restart's initial record was
saved: another run's record was on disk in between. -/
theorem run_moves_on_restart :
    ∃ (s s' s'' : Config Act Act.Response ThreadResult World) (m m' m'' : SessionMetadata),
      s.world.metadata "demo" = some m ∧ m.status = .running ∧
      (bridge plainEnv).Reaches (fun _ _ _ _ => True) s s' ∧
      s'.world.metadata "demo" = some m' ∧ m'.origin ≠ m.origin ∧
      (bridge plainEnv).Reaches (fun _ _ _ _ => True) s' s'' ∧
      s''.world.metadata "demo" = some m'' ∧ m''.status = .stopped ∧ m.Advances m'' := by
  obtain ⟨s, hreach, hs⟩ := System.exists_reaches_of_exec (bridge plainEnv) System.unrestricted
    (steps 0 13 ++ [.run 0 { thread := 2 }] ++ steps 2 2 ++
      [.run 2 { pid := 7, startTime := 100 }] ++ steps 2 12)
    (boot plainEnv (served [startDemo true, startDemo true]))
    (fun s => (s.world.metadata "demo").any (fun m => m.status = .running && m.origin = 0) &&
      ((bridge plainEnv).exec System.unrestricted
        ([.run 2 { thread := 4 }, .run 2 { thread := 5 }] ++ steps 0 3 ++
          [.disturb (.processDies 7)] ++ steps 2 2 ++ [.loop 5] ++ steps 5 4 ++ steps 2 3 ++
          steps 4 2 ++ [.loop 4] ++ steps 4 2 ++ steps 2 3 ++ steps 1 16) s).any fun s' =>
          (s'.world.metadata "demo").any (fun m' => m'.origin = 1) &&
            ((bridge plainEnv).exec System.unrestricted (steps 2 1) s').any fun s'' =>
              (s''.world.metadata "demo").any fun m'' => m''.status = .stopped && m''.origin = 0)
    (fun _ _ _ _ _ => trivial) (by decide +kernel)
  obtain ⟨hfirst, hrest⟩ := (Bool.and_eq_true _ _).mp hs
  obtain ⟨m, hm, hrunning⟩ := (Option.any_eq_true _ _).mp hfirst
  obtain ⟨s', hrun, hs'⟩ := System.exists_reaches_of_exec (bridge plainEnv) _ _ _ _
    (fun _ _ _ _ _ => trivial) hrest
  obtain ⟨hsecond, hlast⟩ := (Bool.and_eq_true _ _).mp hs'
  obtain ⟨m', hm', horigin'⟩ := (Option.any_eq_true _ _).mp hsecond
  obtain ⟨s'', hrun', hs''⟩ := System.exists_reaches_of_exec (bridge plainEnv) _ _ _ _
    (fun _ _ _ _ _ => trivial) hlast
  obtain ⟨m'', hm'', hstopped⟩ := (Option.any_eq_true _ _).mp hs''
  simp only [Bool.and_eq_true, decide_eq_true_eq] at hrunning horigin' hstopped
  refine ⟨s, s', s'', m, m', m'', hm, hrunning.1, hrun, hm', ?_, hrun', hm'', hstopped.1,
    run_moves_on plainEnv _ hreach (hrun.trans hrun') hm hm'' (hstopped.2.trans hrunning.2.symm)⟩
  rw [horigin', hrunning.2]
  decide

end IgnibyteBridge
