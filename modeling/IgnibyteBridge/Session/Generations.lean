import IgnibyteBridge.Session.Starts

/-!
# Generations

The owners and stops of a session save under `status.lock`, its starts under
`start.lock`. When no initial record is saved between the load and the save of
an owner or a stop, the record on disk is always one of the run that was
initialized last, and its generation counts the initialized runs.
-/

namespace IgnibyteBridge

open Concurrency World

namespace World

/-- A record that replaces another one is saved before any start saves an
initial record of the session. -/
def FreshSave (w : World) (i : ℕ) (a : Act) : Prop :=
  ∀ x ∈ a.saves, x.1 ≠ .initial → w.loadedAt i = some (w.inits x.2.name).length

/-- A start can read the record that it counts its generation from. -/
def GenerationRead (w : World) (i : ℕ) (a : Act) (c : Choice) : Prop :=
  ∀ n ∈ a.loads, w.startLock n = some i → i ∉ w.inits n → w.loadedAt i ≠ none → c.ok = true

/-- A session is started fewer than `2 ^ 64` times. -/
def Countable (w : World) (a : Act) : Prop :=
  ∀ x ∈ a.saves, x.1 = .initial → (w.inits x.2.name).length + 1 < 2 ^ 64

/-- No start saves its initial record between the load and the save of an owner
or a stop, and starts can count. -/
def Untangled (w : World) (i : ℕ) (a : Act) (c : Choice) : Prop :=
  w.FreshSave i a ∧ w.GenerationRead i a c ∧ w.Countable a

instance (w : World) (i : ℕ) (a : Act) : Decidable (w.FreshSave i a) :=
  inferInstanceAs (Decidable (∀ x ∈ a.saves, _))

instance (w : World) (i : ℕ) (a : Act) (c : Choice) : Decidable (w.GenerationRead i a c) :=
  inferInstanceAs (Decidable (∀ n ∈ a.loads, _))

instance (w : World) (a : Act) : Decidable (w.Countable a) :=
  inferInstanceAs (Decidable (∀ x ∈ a.saves, _))

instance (w : World) (i : ℕ) (a : Act) (c : Choice) : Decidable (w.Untangled i a c) :=
  inferInstanceAs (Decidable (_ ∧ _ ∧ _))

/-- What a start that is yet to save its initial record knows of its generation. -/
def Counts (w : World) (i : ℕ) (g : Knowledge) : Prop :=
  ∀ st, g.start = some st → (st.window ≠ none → w.loadedAt i ≠ none) ∧
    (st.held = true → st.initialized = none → ∀ n, st.next = some n →
      n = ((w.inits st.name).length + 1) % 2 ^ 64)

/-- The record on disk is of the run initialized last. -/
structure Lineage (w : World) (γ : ℕ → Knowledge) : Prop where
  latest : ∀ n m, w.metadata n = some m →
    m.generation = (w.inits n).length ∧ (w.inits n).getLast? = some m.origin
  counts : Threads Counts w γ

variable {w w' : World} {γ : ℕ → Knowledge} {i : ℕ}

/-- Without a load, what a thread's start knows stays, or nothing is known yet. -/
theorem post_start_unread {a : Act} {g : Knowledge} {r : a.Response} (hload : a.loads = none)
    {st' : StartGhost} (hst' : (Knowledge.post a g r).start = some st') :
    (st'.name ∈ a.startLocks ∧ st'.window = none ∧ st'.next = none) ∨
      ∃ st, g.start = some st ∧ st'.name = st.name ∧
      (st'.held = true → st.held = true) ∧ (st'.initialized = none → st.initialized = none) ∧
      st'.window = st.window ∧ st'.next = st.next := by
  have hsame : ∀ {st'}, g.start = some st' → ∃ st, g.start = some st ∧ st'.name = st.name ∧
      (st'.held = true → st.held = true) ∧ (st'.initialized = none → st.initialized = none) ∧
      st'.window = st.window ∧ st'.next = st.next :=
    fun {st'} h => ⟨st', h, rfl, id, id, rfl, rfl⟩
  have hbury : ∀ (p : ℕ) (b : Bool), (if b then g.bury p else g).start = some st' →
      g.start = some st' := by
    intro p b
    cases b <;> exact id
  cases a with
  | file a => exact .inr (hsame hst')
  | disk a =>
    cases a
    case acquireStartLock name =>
      cases r with
      | held =>
        cases hst'
        exact .inl ⟨rfl, rfl, rfl⟩
      | _ => exact .inr (hsame hst')
    case acquireStatusLock name => cases r <;> exact .inr (hsame hst')
    case dropStartLock name =>
      obtain ⟨st, hst, rfl⟩ := Option.map_eq_some_iff.mp hst'
      exact .inr ⟨st, hst, rfl, fun h => (by cases h), id, rfl, rfl⟩
    case loadMetadata name => cases hload
    case saveMetadata site m =>
      cases r with
      | error e => exact .inr (hsame hst')
      | ok u =>
        cases site
        case initial =>
          obtain ⟨st, hst, rfl⟩ := Option.map_eq_some_iff.mp hst'
          exact .inr ⟨st, hst, rfl, id, fun h => (by cases h), rfl, rfl⟩
        all_goals exact .inr (hsame hst')
    all_goals exact .inr (hsame hst')
  | process a =>
    cases a
    case processStartTime p =>
      cases r with
      | none => exact .inr (hsame (hbury p _ hst'))
      | some t => exact .inr (hsame hst')
    case pidIsOurs p startTime =>
      cases p with
      | none => exact .inr (hsame hst')
      | some p =>
        cases r with
        | true => exact .inr (hsame hst')
        | false => exact .inr (hsame (hbury p _ hst'))
    case terminatePid p =>
      cases r with
      | error e => exact .inr (hsame hst')
      | ok u => exact .inr (hsame (hbury p _ hst'))
    case spawnSupervisor =>
      cases r with
      | none => exact .inr (hsame hst')
      | some j =>
        obtain ⟨st, hst, rfl⟩ := Option.map_eq_some_iff.mp hst'
        exact .inr ⟨st, hst, rfl, id, id, rfl, rfl⟩
    case spawnOwner =>
      obtain ⟨st, hst, rfl⟩ := Option.map_eq_some_iff.mp hst'
      exact .inr ⟨st, hst, rfl, id, id, rfl, rfl⟩
    case spawnCommand => cases r <;> exact .inr (hsame hst')
    all_goals exact .inr (hsame hst')

/-- Only a load changes what a thread last loaded. -/
theorem perform_loadedAt {a : Act} {c : Choice} {r : a.Response}
    (h : perform i a c w = some (r, w')) {k : ℕ} (hk : a.loads = none ∨ k ≠ i) :
    w'.loadedAt k = w.loadedAt k := by
  cases a with
  | file a =>
    obtain ⟨f, -, rfl⟩ := perform_file h
    rfl
  | process a => exact congrFun (performProcess_sameDisk h).loadedAt k
  | disk a =>
    cases a
    case loadMetadata name =>
      obtain ⟨rfl, -⟩ := performDisk_load h
      rcases hk with hload | hne
      · cases hload
      · exact Function.update_of_ne hne ..
    all_goals
      simp only [perform, performDisk] at h
      (try split at h) <;> cases h <;> rfl

/-- What one action does to the initial records: it saves one under `start.lock`, or none. -/
theorem inits_cases {a : Act} {c : Choice} {r : a.Response} (hJ : Excluded w γ)
    (hi : w.alive i = true) (hpre : Knowledge.pre a (γ i))
    (h : perform i a c w = some (r, w')) : w'.inits = w.inits ∨
      ∃ m, (.initial, m) ∈ a.saves ∧ w.startLock m.name = some i ∧
        (γ i).MayInitialize m ∧ w' = w.save i .initial m := by
  rcases records_cases h with ⟨-, -, hinits⟩ | ⟨site, m, rfl, -, rfl⟩
  · exact .inl hinits
  · rcases hpre with ⟨rfl, -, hinit⟩ | ⟨c', -, hreplace⟩
    · obtain ⟨st, x, hst, hheld, hname, -⟩ := id hinit
      exact .inr ⟨m, rfl, hname ▸ (hJ.threads i hi).start st hst hheld, hinit, rfl⟩
    · obtain ⟨-, hsite, -, -⟩ := hreplace.keeps
      left
      cases site
      case initial => exact absurd rfl hsite
      all_goals rfl

/-- The record that a fresh save replaces is on disk. -/
theorem FreshSave.disk {site : Site} {c m : SessionMetadata} (hexcluded : Excluded w γ)
    (hi : w.alive i = true) (hfresh : w.FreshSave i (.disk (.saveMetadata site m)))
    (hlater : site ≠ .initial) (hlocked : (γ i).locked = some (c.name, some c))
    (hname : m.name = c.name) : w.metadata c.name = some c := by
  have hloaded := hfresh _ rfl hlater
  exact ((hexcluded.threads i hi).copy _ _ hlocked).2.fresh (hname ▸ hloaded)

/-- The record on disk is of the run that was initialized last. -/
def Current (w : World) : Prop := ∀ n m, w.metadata n = some m → (w.inits n).getLast? = some m.origin

/-- Fresh saves keep the record on disk one of the last run. -/
theorem Current.act {a : Act} {c : Choice} {r : a.Response} (hJ : w.Current)
    (hexcluded : Excluded w γ) (hi : w.alive i = true) (hfresh : w.FreshSave i a)
    (hpre : Knowledge.pre a (γ i)) (h : perform i a c w = some (r, w')) : w'.Current := by
  intro n d hd
  rcases records_cases h with ⟨-, hmetadata, hinits⟩ | ⟨site, m, rfl, -, rfl⟩
  · rw [hinits]
    exact hJ n d (hmetadata ▸ hd)
  · cases savedRecord hpre hd with
    | other before name =>
      rw [save_inits_other name]
      exact hJ n d before
    | initial first init origin name =>
      subst first name
      rw [origin]
      change (Function.update w.inits m.name _ m.name).getLast? = some i
      rw [Function.update_self, List.getLast?_concat]
    | replaced c' record later locked replace name =>
      subst record name
      obtain ⟨hname, -, -, horigin⟩ := replace.keeps
      rw [save_inits later, horigin]
      exact hJ _ c' (hfresh.disk hexcluded hi later locked hname)

/-- What happens outside the bridge saves no record. -/
theorem Current.disturb {e : Disturbance} (hJ : w.Current) (h : w.disturb e = some w') :
    w'.Current := by
  obtain ⟨hdisk, -⟩ := disturb_sameDisk h
  unfold Current
  rw [hdisk.metadata, hdisk.inits]
  exact hJ

/-- Before the first action every record is current, for there is none. -/
theorem current_fresh (requests : ℕ → Option Request) : (World.fresh requests).Current := by
  intro n m hm
  cases hm

/-- The generation of the record on disk after a save that no start interfered with. -/
theorem Lineage.generation_save {site : Site} {m : SessionMetadata} {c : Choice} (hJ : Lineage w γ)
    (hexcluded : Excluded w γ) (hi : w.alive i = true)
    (hok : w.Untangled i (.disk (.saveMetadata site m)) c)
    (hpre : Knowledge.pre (.disk (.saveMetadata site m)) (γ i)) {n : String} {d : SessionMetadata}
    (hd : (w.save i site m).metadata n = some d) :
    d.generation = ((w.save i site m).inits n).length := by
  cases savedRecord hpre hd with
  | other before name =>
    rw [save_inits_other name]
    exact (hJ.latest n d before).1
  | initial first init origin name =>
    subst first name
    obtain ⟨st, x, hst, hheld, hname, -, hnext, hinit, -⟩ := init
    have hcount := (hJ.counts i hi st hst).2 hheld hinit m.generation hnext
    rw [hname, Nat.mod_eq_of_lt (hok.2.2 _ rfl rfl)] at hcount
    simp only [World.save, Function.update_self, Option.some.injEq] at hd
    subst hd
    simpa [World.save, initsAfter, stamp] using hcount
  | replaced c' record later locked replace name =>
    subst record name
    obtain ⟨hname, -, hgeneration, -⟩ := replace.keeps
    rw [save_inits later, hgeneration]
    exact (hJ.latest _ c' (hok.1.disk hexcluded hi later locked hname)).1

/-- A start counts the runs that were initialized before its own. -/
theorem counts_load {n : String} {c : Choice} {r : Except String SessionMetadata}
    (hJ : Lineage w γ) (hexcluded : Excluded w γ) (hregistered : Registered w γ)
    (hi : w.alive i = true) (hok : w.GenerationRead i (.disk (.loadMetadata n)) c)
    (hpre : Knowledge.pre (.disk (.loadMetadata n)) (γ i))
    (h : performDisk i (.loadMetadata n) c w = some (r, w')) :
    Counts w' i ((γ i).load r.toOption) := by
  obtain ⟨rfl, hr⟩ := performDisk_load h
  intro st' hst'
  obtain ⟨st, hst, rfl⟩ := Option.map_eq_some_iff.mp hst'
  obtain ⟨hwindow, hnext⟩ := hJ.counts i hi st hst
  have hloaded : (w.loaded i n).loadedAt i ≠ none := by
    simp [loaded]
  refine ⟨fun _ => hloaded, ?_⟩
  unfold StartGhost.load
  split
  · exact hnext
  · next hw =>
    split
    · next hnone =>
      intro hheld hinit k hk
      cases hk
      -- This is the load that the start counts its generation from.
      have hname : st.name = n := hpre.2 st hst (.inr hnone)
      have hlock : w.startLock n = some i := hname ▸ (hexcluded.threads i hi).start st hst hheld
      have hnotYet : i ∉ w.inits n := by
        rw [hregistered.inits, hst]
        rintro ⟨st', hst', -, hinit'⟩
        cases hst'
        exact hinit' hinit
      have hread := hok n rfl hlock hnotYet (hwindow hw)
      change nextGeneration r.toOption = ((w.inits st.name).length + 1) % 2 ^ 64
      rw [hname]
      rcases hr with ⟨hmissing, e, rfl⟩ | ⟨m, hm, rfl | ⟨hfailed, -⟩⟩
      · rw [(hexcluded.filed.inits n).mp hmissing]
        rfl
      · rw [← (hJ.latest n m hm).1]
        rfl
      · rw [hread] at hfailed
        cases hfailed
    · exact hnext

/-- Every action of an untangled run keeps the lineage. -/
theorem Lineage.act (env : Env) {a : Act} {c : Choice} {r : a.Response} (hJ : Lineage w γ)
    (hexcluded : Excluded w γ) (hregistered : Registered w γ) (hi : w.alive i = true)
    (hok : w.Untangled i a c) (hpre : Knowledge.pre a (γ i))
    (h : perform i a c w = some (r, w')) :
    Lineage w' (ghosts (bridge env) Knowledge.protocol Knowledge.fresh γ i a r) where
  latest n d hd := by
    have hcurrent : w.Current := fun n m hm => (hJ.latest n m hm).2
    refine ⟨?_, hcurrent.act hexcluded hi hok.1 hpre h n d hd⟩
    rcases records_cases h with ⟨-, hmetadata, hinits⟩ | ⟨site, m, rfl, -, rfl⟩
    · rw [hinits]
      exact (hJ.latest n d (hmetadata ▸ hd)).1
    · exact hJ.generation_save hexcluded hi hok hpre hd
  counts := by
    refine threads_act env hexcluded.sound hi h hJ.counts (fun hT => ?_) (fun k hk halive hT => ?_)
      fun k p _ => ?_
    · -- The acting thread: it loads, or its start knows what it knew.
      cases hload : a.loads with
      | some n =>
        obtain rfl := eq_of_loads hload
        exact counts_load hJ hexcluded hregistered hi hok.2.1 hpre h
      | none =>
        intro st' hst'
        rw [perform_loadedAt h (.inl hload)]
        rcases post_start_unread hload hst' with ⟨-, hwindow, hnext⟩ |
          ⟨st, hst, hname, hheld, hinit, hwindow, hnext⟩
        · exact ⟨fun hne => absurd hwindow hne, fun _ _ n hn => by rw [hnext] at hn; cases hn⟩
        · rw [hwindow, hnext, hname]
          refine ⟨(hT st hst).1, fun hheld' hinit' n hn => ?_⟩
          rw [(hT st hst).2 (hheld hheld') (hinit hinit') n hn]
          rcases inits_cases hexcluded hi hpre h with hinits | ⟨m, hmem, -, hmay, rfl⟩
          · rw [hinits]
          · -- After its own initial save the start is initialized.
            obtain rfl := eq_of_saves hmem
            rcases performDisk_save h with ⟨u, rfl, -⟩ | ⟨e, rfl, hsame⟩
            · obtain ⟨st₀, hst₀, rfl⟩ := Option.map_eq_some_iff.mp hst'
              cases hinit'
            · rw [hsame]
    · -- Another start still holds its `start.lock`, so nobody initialized its session.
      intro st hst
      rw [perform_loadedAt h (.inr hk)]
      refine ⟨(hT st hst).1, fun hheld hinit n hn => ?_⟩
      rw [(hT st hst).2 hheld hinit n hn]
      rcases inits_cases hexcluded hi hpre h with hinits | ⟨m, -, hlock, -, rfl⟩
      · rw [hinits]
      · have hname : st.name ≠ m.name := by
          intro hname
          have hmine := (hexcluded.threads k halive).start st hst hheld
          rw [hname, hlock] at hmine
          exact hk (Option.some.inj hmine).symm
        rw [show (w.save i .initial m).inits st.name = w.inits st.name from
          Function.update_of_ne hname ..]
    · intro st hst
      rw [fresh_start] at hst
      cases hst

/-- What happens outside the bridge starts no run. -/
theorem Lineage.disturb {e : Disturbance} (hJ : Lineage w γ) (h : w.disturb e = some w') :
    Lineage w' γ where
  latest n m hm := by
    obtain ⟨hdisk, -⟩ := disturb_sameDisk h
    rw [hdisk.inits]
    exact hJ.latest n m (hdisk.metadata ▸ hm)
  counts := threads_disturb h hJ.counts fun k _ hT => by
    obtain ⟨hdisk, -⟩ := disturb_sameDisk h
    unfold Counts
    rw [hdisk.inits, hdisk.loadedAt]
    exact hT

/-- Before the first action there is no lineage to keep. -/
theorem lineage_fresh (requests : ℕ → Option Request) :
    Lineage (World.fresh requests) fun _ => {} where
  latest n m hm := by cases hm
  counts k _ st hst := by cases hst

/-- The initial records of a session are only added to. -/
theorem inits_isPrefix {env : Env} {ok : World → ℕ → Act → Choice → Prop}
    {s s' : Config Act Act.Response ThreadResult World} (h : (bridge env).Reaches ok s s')
    (n : String) : s.world.inits n <+: s'.world.inits n := by
  refine System.Reaches.stable (I := fun w => s.world.inits n <+: w.inits n) h ?_ ?_
    (List.prefix_refl _)
  · intro w i a c r w' hw _ _ hperform
    change perform i a c w = some (r, w') at hperform
    rcases records_cases hperform with ⟨-, -, hinits⟩ | ⟨site, m, rfl, -, rfl⟩
    · rw [hinits]
      exact hw
    · cases site
      case initial =>
        by_cases hn : n = m.name
        · subst hn
          simp only [World.save, initsAfter, Function.update_self]
          exact hw.trans (List.prefix_append _ _)
        · simpa only [World.save, initsAfter, Function.update_of_ne hn] using hw
      all_goals exact hw
  · intro w e w' hw hdisturb
    rw [(disturb_sameDisk hdisturb).1.inits]
    exact hw

/-- In an untangled run the lineage holds. -/
theorem lineage_of_reaches {env : Env} {requests : ℕ → Option Request}
    {s : Config Act Act.Response ThreadResult World}
    (h : (bridge env).Reaches Untangled (boot env requests) s) : ∃ γ, Lineage s.world γ := by
  obtain ⟨γ, ⟨-, -, hlineage⟩, -⟩ := registered_of_reaches
    (fun hexcluded hregistered hJ hi hok hpre hperform =>
      hJ.act env hexcluded hregistered hi hok hpre hperform)
    (fun hJ hdisturb => hJ.disturb hdisturb) (lineage_fresh requests) h
  exact ⟨γ, hlineage⟩

end World

/-- **Generations never go back.** In a run where no initial record is saved
between the load and the save of an owner or a stop, a record that was saved
later has no lower generation, is of the run that was initialized last, and is of
the same run when it has the same generation. -/
theorem generation_never_goes_back (env : Env) (requests : ℕ → Option Request)
    {s s' : Config Act Act.Response ThreadResult World} {n : String} {m m' : SessionMetadata}
    (hreach : (bridge env).Reaches Untangled (boot env requests) s)
    (hrun : (bridge env).Reaches Untangled s s') (hm : s.world.metadata n = some m)
    (hm' : s'.world.metadata n = some m') :
    m.generation ≤ m'.generation ∧ (s'.world.inits n).getLast? = some m'.origin ∧
      (m'.generation = m.generation → m'.origin = m.origin) := by
  obtain ⟨γ, hlineage⟩ := lineage_of_reaches hreach
  obtain ⟨γ', hlineage'⟩ := lineage_of_reaches (hreach.trans hrun)
  obtain ⟨hgeneration, horigin⟩ := hlineage.latest n m hm
  obtain ⟨hgeneration', horigin'⟩ := hlineage'.latest n m' hm'
  have hprefix := inits_isPrefix hrun n
  refine ⟨?_, horigin', fun hsame => ?_⟩
  · rw [hgeneration, hgeneration']
    exact hprefix.length_le
  · rw [hgeneration, hgeneration'] at hsame
    rw [← hprefix.eq_of_length hsame.symm, horigin] at horigin'
    exact (Option.some.inj horigin').symm

/-- A restart after a failed start counts the second run. -/
theorem generation_never_goes_back_restart :
    ∃ (s s' : Config Act Act.Response ThreadResult World) (m m' : SessionMetadata),
      s.world.metadata "demo" = some m ∧ m.generation = 1 ∧
      (bridge plainEnv).Reaches Untangled s s' ∧
      s'.world.metadata "demo" = some m' ∧ m'.generation = 2 ∧
      m.generation ≤ m'.generation ∧ (s'.world.inits "demo").getLast? = some m'.origin ∧
      (m'.generation = m.generation → m'.origin = m.origin) := by
  obtain ⟨s, hreach, hs⟩ := System.exists_reaches_of_exec (bridge plainEnv)
    (fun w i a c => Untangled w i a c) (steps 0 13)
    (boot plainEnv (served [startDemo true, startDemo true]))
    (fun s => (s.world.metadata "demo").any (·.generation = 1) &&
      ((bridge plainEnv).exec (fun w i a c => Untangled w i a c)
        ([.run 0 { thread := 2 }] ++ steps 2 1 ++ [.run 2 { ok := false }] ++ steps 2 5 ++
          steps 0 3 ++ steps 1 14) s).any
          fun s' => (s'.world.metadata "demo").any (·.generation = 2))
    (fun _ _ _ _ h => of_decide_eq_true h) (by decide +kernel)
  obtain ⟨hfirst, hrest⟩ := (Bool.and_eq_true _ _).mp hs
  obtain ⟨s', hrun, hsecond⟩ := System.exists_reaches_of_exec _ _ _ _ _
    (fun _ _ _ _ h => of_decide_eq_true h) hrest
  obtain ⟨m, hm, hgeneration⟩ := (Option.any_eq_true _ _).mp hfirst
  obtain ⟨m', hm', hgeneration'⟩ := (Option.any_eq_true _ _).mp hsecond
  exact ⟨s, s', m, m', hm, of_decide_eq_true hgeneration, hrun, hm', of_decide_eq_true hgeneration',
    generation_never_goes_back plainEnv _ hreach hrun hm hm'⟩

/-- The owner of the first run loads its record to mark it Stopped, a start saves
the initial record of the second run, and the owner saves over it: the generation
on disk goes from 2 back to 1. -/
theorem generation_goes_back :
    ∃ (s s' : Config Act Act.Response ThreadResult World) (m m' : SessionMetadata),
      (bridge plainEnv).Reaches (fun _ _ _ _ => True)
        (boot plainEnv (served [startDemo true, startDemo true])) s ∧
      (bridge plainEnv).Reaches (fun _ _ _ _ => True) s s' ∧
      s.world.metadata "demo" = some m ∧ m.generation = 2 ∧ m.status = .starting ∧
      s'.world.metadata "demo" = some m' ∧ m'.generation = 1 ∧ m'.status = .stopped := by
  obtain ⟨s, hreach, hs⟩ := System.exists_reaches_of_exec (bridge plainEnv) System.unrestricted
    -- The first run starts, its child exits and its owner loads the record to mark it Stopped.
    (steps 0 13 ++ [.run 0 { thread := 2 }] ++ steps 2 2 ++
      [.run 2 { pid := 7, startTime := 100 }] ++ steps 2 12 ++
      [.run 2 { thread := 4 }, .run 2 { thread := 5 }] ++ steps 0 3 ++
      [.disturb (.processDies 7)] ++ steps 2 2 ++ [.loop 5] ++ steps 5 4 ++ steps 2 3 ++
      steps 4 2 ++ [.loop 4] ++ steps 4 2 ++ steps 2 3 ++
      -- The second start finds no live child and saves its initial record.
      steps 1 16)
    (boot plainEnv (served [startDemo true, startDemo true]))
    (fun s => (s.world.metadata "demo").any (fun m => m.generation = 2 && m.status = .starting) &&
      ((bridge plainEnv).exec System.unrestricted (steps 2 1) s).any fun s' =>
        (s'.world.metadata "demo").any fun m => m.generation = 1 && m.status = .stopped)
    (fun _ _ _ _ _ => trivial) (by decide +kernel)
  obtain ⟨hsecond, hrest⟩ := (Bool.and_eq_true _ _).mp hs
  obtain ⟨s', hrun, hfirst⟩ := System.exists_reaches_of_exec _ _ _ _ _
    (fun _ _ _ _ _ => trivial) hrest
  obtain ⟨m, hm, hrecord⟩ := (Option.any_eq_true _ _).mp hsecond
  obtain ⟨m', hm', hrecord'⟩ := (Option.any_eq_true _ _).mp hfirst
  simp only [Bool.and_eq_true, decide_eq_true_eq] at hrecord hrecord'
  exact ⟨s, s', m, m', hreach, hrun, hm, hrecord.1, hrecord.2, hm', hrecord'.1, hrecord'.2⟩

end IgnibyteBridge
