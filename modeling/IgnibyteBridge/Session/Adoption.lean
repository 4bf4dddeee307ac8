import IgnibyteBridge.Session.Generations
import IgnibyteBridge.Session.Identity

/-!
# Adoption

A supervisor is not told its generation: it adopts that of the record it finds
when it first holds `status.lock`. When that record is its own start's, it only
ever acts on the run that this start initialized.
-/

namespace IgnibyteBridge

open Concurrency World

namespace World

/-- Start `j` initialized the run with the given generation. -/
def RunOf (w : World) (n : String) (generation j : ℕ) : Prop :=
  0 < generation ∧ (w.inits n)[generation - 1]? = some j

/-- When a supervisor that knows no generation loads a record, its own start was
the last to initialize the session. -/
def OwnAdoption (w : World) (i : ℕ) (a : Act) : Prop :=
  ∀ n ∈ a.loads, ∀ o ∈ w.owner i, o.generation = none →
    (w.inits o.name).getLast? = some o.start

/-- Runs are untangled, and supervisors adopt their own. -/
def Adopting (w : World) (i : ℕ) (a : Act) (c : Choice) : Prop :=
  w.Untangled i a c ∧ w.OwnAdoption i a

instance (w : World) (i : ℕ) (a : Act) : Decidable (w.OwnAdoption i a) :=
  inferInstanceAs (Decidable (∀ n ∈ a.loads, ∀ o ∈ w.owner i, _))

instance (w : World) (i : ℕ) (a : Act) (c : Choice) : Decidable (w.Adopting i a c) :=
  inferInstanceAs (Decidable (_ ∧ _))

/-- The record that a thread loaded names the run it is of. -/
structure Attributed (w : World) (k : ℕ) (g : Knowledge) : Prop where
  copy : ∀ n c, g.locked = some (n, some c) → w.RunOf n c.generation c.origin
  unadopted : ∀ n c o, g.locked = some (n, some c) → w.owner k = some o → o.generation = none →
    o.name = n → c.origin = o.start

/-- Owners own the runs of their starts. -/
structure Owned (w : World) (γ : ℕ → Knowledge) : Prop where
  owner : ∀ k o n, w.owner k = some o → o.generation = some n → w.RunOf o.name n o.start
  start : ∀ k st n, (γ k).start = some st → st.initialized = some n → w.RunOf st.name n k
  threads : Threads Attributed w γ

variable {w w' : World} {γ : ℕ → Knowledge} {i : ℕ}

/-- A generation belongs to one start only. -/
theorem RunOf.unique {n : String} {g j j' : ℕ} (h : w.RunOf n g j) (h' : w.RunOf n g j') :
    j = j' :=
  Option.some.inj (h.2.symm.trans h'.2)

/-- A generation belongs to its start still when more starts have counted. -/
theorem RunOf.mono {n : String} {g j : ℕ} (h : w.RunOf n g j)
    (hinits : w.inits n <+: w'.inits n) : w'.RunOf n g j := by
  obtain ⟨hpos, hget⟩ := h
  obtain ⟨t, ht⟩ := hinits
  refine ⟨hpos, ?_⟩
  have hlt : g - 1 < (w.inits n).length := (List.getElem?_eq_some_iff.mp hget).1
  rw [← ht, List.getElem?_append_left hlt, hget]

/-- The record on disk is of the run that its generation counts. -/
theorem Lineage.runOf (hJ : Lineage w γ) {n : String} {m : SessionMetadata}
    (hm : w.metadata n = some m) : w.RunOf n m.generation m.origin := by
  obtain ⟨hgeneration, horigin⟩ := hJ.latest n m hm
  have hne : w.inits n ≠ [] := by
    intro hnil
    rw [hnil] at horigin
    cases horigin
  refine ⟨by rw [hgeneration]; exact List.length_pos_of_ne_nil hne, ?_⟩
  rw [hgeneration, ← List.getLast?_eq_getElem?, horigin]

/-- One action only adds to the initial records. -/
theorem perform_inits {a : Act} {c : Choice} {r : a.Response} (hJ : Excluded w γ)
    (hi : w.alive i = true) (hpre : Knowledge.pre a (γ i)) (h : perform i a c w = some (r, w'))
    (n : String) : w.inits n <+: w'.inits n := by
  rcases inits_cases hJ hi hpre h with hinits | ⟨m, -, -, -, rfl⟩
  · exact hinits ▸ List.prefix_refl _
  · by_cases hn : n = m.name
    · subst hn
      simp [World.save, initsAfter]
    · simp [World.save, initsAfter, hn]

/-- What a thread knows it owns it owns. -/
theorem Informed.owner_of_ghost {g : Knowledge} (hT : Informed w i g) {og : OwnerGhost}
    (hog : g.owner = some og) : ∃ o, w.owner i = some o ∧ o.name = og.name ∧
      o.generation = og.generation ∧ o.child = og.child := by
  have hview := hT.owner
  rw [hog] at hview
  obtain ⟨o, ho, heq⟩ := Option.map_eq_some_iff.mp hview.symm
  simp only [OwnerGhost.view, Ownership.view, Prod.mk.injEq] at heq
  exact ⟨o, ho, heq⟩

/-- What a thread owns it knows it owns. -/
theorem Informed.ghost_of_owner {g : Knowledge} (hT : Informed w i g) {o : Ownership}
    (ho : w.owner i = some o) : ∃ og, g.owner = some og ∧ o.name = og.name ∧
      o.generation = og.generation ∧ o.child = og.child := by
  have hview := hT.owner
  rw [ho] at hview
  obtain ⟨og, hog, heq⟩ := Option.map_eq_some_iff.mp hview
  simp only [OwnerGhost.view, Ownership.view, Prod.mk.injEq] at heq
  exact ⟨og, hog, heq.1.symm, heq.2.1.symm, heq.2.2.symm⟩

/-- Whatever an owner saves is a record of its own session. -/
theorem owner_name {site : Site} {m c : SessionMetadata} {o : Ownership}
    (hregistered : Registered w γ) (hT : Informed w i (γ i)) (ho : w.owner i = some o)
    (hreplace : (γ i).MayReplace c m site) : c.name = o.name := by
  obtain ⟨og, hog, hname, -, -⟩ := hT.ghost_of_owner ho
  have hown : ∀ og', (γ i).owner = some og' → og'.name = c.name → c.name = o.name := by
    intro og' hog' hn
    rw [hog] at hog'
    cases hog'
    exact (hname.trans hn).symm
  cases site with
  | initial => exact hreplace.elim
  | supervisor =>
    obtain ⟨og', pid, t, hog', hn, -⟩ := hreplace
    exact hown og' hog' hn
  | child =>
    obtain ⟨og', pid, t, command, hog', hn, -⟩ := hreplace
    exact hown og' hog' hn
  | promote =>
    obtain ⟨og', hog', hn, -⟩ := hreplace
    exact hown og' hog' hn
  | stopped by_ =>
    obtain ⟨-, hstop, -⟩ := hreplace
    cases by_ with
    | owner =>
      obtain ⟨og', hog', hn, -⟩ := hstop
      exact hown og' hog' hn
    | stop x =>
      rw [hstop.1] at hog
      cases hog
    | timeout x t =>
      rw [hregistered.apart i hstop.1] at hog
      cases hog

/-- Whatever an owner saves is a record of its own run. -/
theorem Owned.save_origin {site : Site} {m c : SessionMetadata} {o : Ownership} (hJ : Owned w γ)
    (hregistered : Registered w γ) (hi : w.alive i = true) (hT : Informed w i (γ i))
    (ho : w.owner i = some o) (hlocked : (γ i).locked = some (c.name, some c))
    (hreplace : (γ i).MayReplace c m site) : c.name = o.name ∧ c.origin = o.start := by
  obtain ⟨og, hog, hname, hgeneration, -⟩ := hT.ghost_of_owner ho
  have hcopy := (hJ.threads i hi).copy _ _ hlocked
  -- An owner with a generation recognizes its run by it.
  have hown : og.name = c.name → og.generation = some c.generation →
      c.name = o.name ∧ c.origin = o.start := by
    intro hn hg
    have hrun := hJ.owner i o c.generation ho (hgeneration.trans hg)
    rw [hname, hn] at hrun
    exact ⟨(hname.trans hn).symm, hcopy.unique hrun⟩
  cases site with
  | initial => exact hreplace.elim
  | supervisor =>
    obtain ⟨og', pid, t, hog', hn, hg, -⟩ := hreplace
    rw [hog] at hog'
    cases hog'
    have hn' : o.name = c.name := hname.trans hn
    exact ⟨hn'.symm, (hJ.threads i hi).unadopted _ c o hlocked ho (hgeneration.trans hg) hn'⟩
  | child =>
    obtain ⟨og', pid, t, command, hog', hn, hg, -⟩ := hreplace
    rw [hog] at hog'
    cases hog'
    exact hown hn hg
  | promote =>
    obtain ⟨og', hog', hn, hg, -⟩ := hreplace
    rw [hog] at hog'
    cases hog'
    exact hown hn hg
  | stopped by_ =>
    obtain ⟨-, hstop, -⟩ := hreplace
    cases by_ with
    | owner =>
      obtain ⟨og', hog', hn, hg, -⟩ := hstop
      rw [hog] at hog'
      cases hog'
      exact hown hn hg
    | stop x =>
      rw [hstop.1] at hog
      cases hog
    | timeout x t =>
      rw [hregistered.apart i hstop.1] at hog
      cases hog

section Act

variable (env : Env) {a : Act} {c : Choice} {r : a.Response}

/-- An action gives a generation to the owner it spawns, to a supervisor that
adopts one, or to nobody. -/
theorem Owned.owner_act (hJ : Owned w γ) (hexcluded : Excluded w γ) (hregistered : Registered w γ)
    (htruthful : Truthful w γ) (hi : w.alive i = true) (hpre : Knowledge.pre a (γ i))
    (h : perform i a c w = some (r, w')) (k : ℕ) (o : Ownership) (n : ℕ)
    (ho : w'.owner k = some o) (hn : o.generation = some n) : w'.RunOf o.name n o.start := by
  have hinits := perform_inits hexcluded hi hpre h
  have hold : ∀ o, w.owner k = some o → o.generation = some n → w'.RunOf o.name n o.start :=
    fun o ho hn => (hJ.owner k o n ho hn).mono (hinits _)
  cases ownerMove h with
  | same owner => exact hold o (owner ▸ ho) hn
  | adopt m save owner =>
    rw [owner] at ho
    by_cases hk : k = i
    · subst hk
      rw [Function.update_self] at ho
      obtain ⟨o₀, ho₀, rfl⟩ := Option.map_eq_some_iff.mp ho
      cases hn
      obtain rfl := eq_of_saves save
      rcases hpre with ⟨hsite, -⟩ | ⟨c', hlocked, hreplace⟩
      · cases hsite
      · obtain ⟨hname, horigin⟩ :=
          hJ.save_origin hregistered hi (htruthful.threads k hi) ho₀ hlocked hreplace
        have hcopy := ((hJ.threads k hi).copy _ _ hlocked).mono (hinits _)
        obtain ⟨-, -, hgeneration, -⟩ := hreplace.keeps
        rw [hname, horigin] at hcopy
        exact hgeneration ▸ hcopy
    · rw [Function.update_of_ne hk] at ho
      exact hold o ho hn
  | promote m save owner =>
    rw [owner] at ho
    by_cases hk : k = i
    · subst hk
      rw [Function.update_self] at ho
      obtain ⟨o₀, ho₀, rfl⟩ := Option.map_eq_some_iff.mp ho
      exact hold o₀ ho₀ hn
    · rw [Function.update_of_ne hk] at ho
      exact hold o ho hn
  | child p spawned owner unborn born =>
    rw [owner] at ho
    by_cases hk : k = i
    · subst hk
      rw [Function.update_self] at ho
      obtain ⟨o₀, ho₀, rfl⟩ := Option.map_eq_some_iff.mp ho
      exact hold o₀ ho₀ hn
    · rw [Function.update_of_ne hk] at ho
      exact hold o ho hn
  | spawn j o' child promoted owner unborn =>
    have hnone := hexcluded.sound.unborn j unborn
    rw [owner] at ho
    by_cases hk : k = j
    · subst hk
      rw [Function.update_self] at ho
      cases ho
      have hsome : w'.owner k = some o := by rw [owner, Function.update_self]
      cases startMove hpre h with
      | keep start begun inits owners =>
        obtain ⟨o₀, ho₀, -⟩ := owner_of_map (owners k) hsome
        rw [hnone] at ho₀
        cases ho₀
      | enroll st m before uninitialized after inits owners =>
        rw [owners, hnone] at hsome
        cases hsome
      | spawn st j' generation before initialized known unspawned after inits unborn' born owners =>
        rw [owners] at hsome
        by_cases hj : k = j'
        · subst hj
          rw [Function.update_self] at hsome
          cases hsome
          exact (hJ.start i st n before (known n hn)).mono (hinits _)
        · rw [Function.update_of_ne hj, hnone] at hsome
          cases hsome
    · rw [Function.update_of_ne hk] at ho
      exact hold o ho hn

/-- An initial save gives a start the run it counted. -/
theorem Owned.start_act (hJ : Owned w γ) (hexcluded : Excluded w γ) (hregistered : Registered w γ)
    (hlineage' : Lineage w' (ghosts (bridge env) Knowledge.protocol Knowledge.fresh γ i a r))
    (hi : w.alive i = true) (hpre : Knowledge.pre a (γ i)) (h : perform i a c w = some (r, w'))
    (k : ℕ) (st : StartGhost) (n : ℕ)
    (hst : (ghosts (bridge env) Knowledge.protocol Knowledge.fresh γ i a r k).start = some st)
    (hn : st.initialized = some n) : w'.RunOf st.name n k := by
  have hinits := perform_inits hexcluded hi hpre h
  by_cases hk : k = i
  · subst hk
    rw [ghosts_self env γ hi h] at hst
    cases startMove hpre h with
    | keep start begun inits owners =>
      cases hbefore : (γ k).start with
      | none =>
        rw [(begun st hbefore hst).2.1] at hn
        cases hn
      | some st₀ =>
        obtain ⟨st', hst', hagrees⟩ := start st₀ hbefore
        rw [hst] at hst'
        cases hst'
        rw [hagrees.name]
        exact (hJ.start k st₀ n hbefore (hagrees.initialized ▸ hn)).mono (hinits _)
    | enroll st₀ m before uninitialized after inits owners =>
      rw [hst] at after
      cases after
      cases hn
      -- The record on disk is the one just saved.
      rcases inits_cases hexcluded hi hpre h with hsame | ⟨m', hmem, -, hmay, rfl⟩
      · have hlength := congrArg (fun f => (f st₀.name).length) (inits.symm.trans hsame)
        simp at hlength
      · obtain rfl := eq_of_saves hmem
        obtain ⟨st₁, x, hst₁, -, hname, -⟩ := hmay
        rw [before] at hst₁
        cases hst₁
        have hdisk : (w.save k .initial m').metadata m'.name = some { m' with origin := k } := by
          simp [World.save, stamp]
        rcases performDisk_save h with ⟨u, rfl, -⟩ | ⟨e, rfl, hsame⟩
        · have hrun := hlineage'.runOf hdisk
          change (γ k).start.map _ = _ at hst
          rw [before] at hst
          cases hst
          exact hname ▸ hrun
        · have hlength := congrArg (fun w => (w.inits m'.name).length) hsame
          simp [World.save, initsAfter] at hlength
    | spawn st₀ j generation before initialized known unspawned after inits unborn born owners =>
      rw [hst] at after
      cases after
      exact (hJ.start k st₀ n before hn).mono (hinits _)
  · rw [hregistered.ghosts_start h hk] at hst
    exact (hJ.start k st n hst hn).mono (hinits _)

/-- A thread's copy comes from a load. -/
theorem post_locked {g : Knowledge} (hload : a.loads = none) {n : String} {m : SessionMetadata}
    (hlocked : (Knowledge.post a g r).locked = some (n, some m)) :
    g.locked = some (n, some m) := by
  have hbury : ∀ (p : ℕ) (b : Bool), (if b then g.bury p else g).locked = g.locked := by
    intro p b
    cases b <;> rfl
  cases a with
  | file a => exact hlocked
  | process a => rwa [(post_process_sections a g r).1] at hlocked
  | disk a =>
    cases a
    case acquireStartLock name => cases r <;> exact hlocked
    case acquireStatusLock name =>
      cases r with
      | held => cases hlocked
      | _ => exact hlocked
    case dropStatusLock name => cases hlocked
    case loadMetadata name => cases hload
    case saveMetadata site m' =>
      cases r with
      | error e => exact hlocked
      | ok u =>
        cases site
        case initial => exact hlocked
        all_goals cases hlocked
    all_goals exact hlocked

/-- An owner without a generation had none before. -/
theorem OwnerMove.unadopted {k : ℕ} (hmove : OwnerMove w i a w') (hborn : w.life k ≠ .unborn)
    {o : Ownership} (ho : w'.owner k = some o) (hnone : o.generation = none) :
    ∃ o₀, w.owner k = some o₀ ∧ o.name = o₀.name ∧ o.start = o₀.start ∧ o₀.generation = none := by
  have hmap : ∀ {f : Ownership → Ownership}, w'.owner = Function.update w.owner i ((w.owner i).map f) →
      (∀ o, (f o).generation = none →
        (f o).name = o.name ∧ (f o).start = o.start ∧ o.generation = none) →
      ∃ o₀, w.owner k = some o₀ ∧ o.name = o₀.name ∧ o.start = o₀.start ∧ o₀.generation = none := by
    intro f howner hf
    rw [howner] at ho
    by_cases hk : k = i
    · subst hk
      rw [Function.update_self] at ho
      obtain ⟨o₀, ho₀, rfl⟩ := Option.map_eq_some_iff.mp ho
      exact ⟨o₀, ho₀, hf o₀ hnone⟩
    · rw [Function.update_of_ne hk] at ho
      exact ⟨o, ho, rfl, rfl, hnone⟩
  cases hmove with
  | same owner => exact ⟨o, owner ▸ ho, rfl, rfl, hnone⟩
  | adopt m save owner => exact hmap owner fun o h => (by cases h)
  | promote m save owner => exact hmap owner fun o h => ⟨rfl, rfl, h⟩
  | child p spawned owner unborn born => exact hmap owner fun o h => ⟨rfl, rfl, h⟩
  | spawn j o' child promoted owner unborn =>
    have hkj : k ≠ j := by
      rintro rfl
      exact hborn unborn
    rw [owner, Function.update_of_ne hkj] at ho
    exact ⟨o, ho, rfl, rfl, hnone⟩

/-- A copy that was just loaded is attributed to its run. -/
theorem attributed_load {n : String} {c : Choice} {r : Except String SessionMetadata}
    (hlineage : Lineage w γ) (hok : w.OwnAdoption i (.disk (.loadMetadata n)))
    (hpre : Knowledge.pre (.disk (.loadMetadata n)) (γ i))
    (h : performDisk i (.loadMetadata n) c w = some (r, w')) :
    Attributed w' i ((γ i).load r.toOption) := by
  obtain ⟨rfl, hr⟩ := performDisk_load h
  have hcopy : ∀ n' c', ((γ i).load r.toOption).locked = some (n', some c') →
      n' = n ∧ w.metadata n = some c' := by
    intro n' c' hlocked
    obtain ⟨⟨n₀, x⟩, hx, heq⟩ := Option.map_eq_some_iff.mp hlocked
    obtain ⟨rfl, -⟩ := hpre.1 n₀ x hx
    rcases hr with ⟨-, e, rfl⟩ | ⟨m, hm, rfl | ⟨-, e, rfl⟩⟩ <;> cases heq
    exact ⟨rfl, hm⟩
  refine ⟨fun n' c' hlocked => ?_, fun n' c' o hlocked ho hnone hname => ?_⟩
  · obtain ⟨rfl, hm⟩ := hcopy n' c' hlocked
    exact hlineage.runOf hm
  · obtain ⟨rfl, hm⟩ := hcopy n' c' hlocked
    have hlast := hok n' rfl o ho hnone
    rw [hname, (hlineage.latest n' c' hm).2] at hlast
    exact Option.some.inj hlast

/-- Every action of a run with own adoptions keeps who owns what. -/
theorem Owned.act (hJ : Owned w γ) (hexcluded : Excluded w γ) (hregistered : Registered w γ)
    (htruthful : Truthful w γ) (hlineage : Lineage w γ)
    (hlineage' : Lineage w' (ghosts (bridge env) Knowledge.protocol Knowledge.fresh γ i a r))
    (hi : w.alive i = true) (hok : w.OwnAdoption i a) (hpre : Knowledge.pre a (γ i))
    (h : perform i a c w = some (r, w')) :
    Owned w' (ghosts (bridge env) Knowledge.protocol Knowledge.fresh γ i a r) where
  owner := hJ.owner_act hexcluded hregistered htruthful hi hpre h
  start := hJ.start_act env hexcluded hregistered hlineage' hi hpre h
  threads := by
    have hinits := perform_inits hexcluded hi hpre h
    refine threads_act env hexcluded.sound hi h hJ.threads (fun hT => ?_) (fun k hk halive hT => ?_)
      fun k p _ => ?_
    · cases hload : a.loads with
      | some n =>
        obtain rfl := eq_of_loads hload
        exact attributed_load hlineage hok hpre h
      | none =>
        refine ⟨fun n m hlocked => ?_, fun n m o hlocked ho hnone hname => ?_⟩
        · exact (hT.copy n m (post_locked hload hlocked)).mono (hinits n)
        · obtain ⟨o₀, ho₀, hname₀, hstart, hnone₀⟩ :=
            (ownerMove h).unadopted (alive_ne_unborn hi) ho hnone
          rw [hstart]
          exact hT.unadopted n m o₀ (post_locked hload hlocked) ho₀ hnone₀ (hname₀.symm.trans hname)
    · refine ⟨fun n m hlocked => (hT.copy n m hlocked).mono (hinits n),
        fun n m o hlocked ho => hT.unadopted n m o hlocked ?_⟩
      rwa [perform_owner_other h hk (alive_ne_unborn halive)] at ho
    · have hnone : ∀ n m, (Knowledge.fresh a (γ i) r).locked ≠ some (n, some m) := by
        intro n m
        unfold Knowledge.fresh
        split <;> simp
      exact ⟨fun n m hlocked => absurd hlocked (hnone n m),
        fun n m o hlocked => absurd hlocked (hnone n m)⟩

end Act

/-- What happens outside the bridge lets no supervisor adopt a record. -/
theorem Owned.disturb {e : Disturbance} (hJ : Owned w γ) (h : w.disturb e = some w') :
    Owned w' γ := by
  obtain ⟨hdisk, howner⟩ := disturb_sameDisk h
  have hrun : ∀ {n g j}, w.RunOf n g j → w'.RunOf n g j := fun hr =>
    hr.mono (hdisk.inits ▸ List.prefix_refl _)
  refine ⟨fun k o n ho hn => hrun (hJ.owner k o n (howner ▸ ho) hn),
    fun k st n hst hn => hrun (hJ.start k st n hst hn), threads_disturb h hJ.threads ?_⟩
  refine fun k _ hT => ⟨fun n m hlocked => hrun (hT.copy n m hlocked), fun n m o hlocked ho => ?_⟩
  exact hT.unadopted n m o hlocked (howner ▸ ho)

/-- Before the first action nothing is owned. -/
theorem owned_fresh (requests : ℕ → Option Request) :
    Owned (World.fresh requests) fun _ => {} where
  owner k o n ho := by cases ho
  start k st n hst := by cases hst
  threads k _ := ⟨fun n m h => (by cases h), fun n m o h => (by cases h)⟩

/-- In a run with own adoptions every owner owns the run of its start. -/
theorem owned_of_reaches {env : Env} {requests : ℕ → Option Request}
    {s : Config Act Act.Response ThreadResult World}
    (h : (bridge env).Reaches Adopting (boot env requests) s) :
    Outlined Knowledge.protocol Knowledge.Finished (fun w γ => Excluded w γ ∧ Registered w γ ∧
      Truthful w γ ∧ Lineage w γ ∧ Owned w γ) s := by
  refine registered_of_reaches ?_ ?_
    ⟨truthful_fresh requests, lineage_fresh requests, owned_fresh requests⟩ h
  · intro w γ i a c r w' hexcluded hregistered hJ hi hok hpre hperform
    obtain ⟨htruthful, hlineage, howned⟩ := hJ
    have hlineage' := hlineage.act env hexcluded hregistered hi hok.1 hpre hperform
    exact ⟨htruthful.act hexcluded.sound hi hpre hperform, hlineage',
      howned.act env hexcluded hregistered htruthful hlineage hlineage' hi hok.2 hpre hperform⟩
  · intro w γ e w' hJ hdisturb
    exact ⟨hJ.1.disturb hdisturb, hJ.2.1.disturb hdisturb, hJ.2.2.disturb hdisturb⟩

end World

/-- **Owners act on their own runs.** When every supervisor adopts the generation
of its own start, whatever an owner is about to save is a record of the run that
its start initialized, which replaces a record of that run, and no two owners of a
session have the same generation. -/
theorem owner_acts_on_own_run (env : Env) (requests : ℕ → Option Request)
    {s : Config Act Act.Response ThreadResult World}
    (hreach : (bridge env).Reaches Adopting (boot env requests) s) :
    (∀ i o site m, s.world.alive i = true → s.world.owner i = some o →
      (s.thread i).head = some (.disk (.saveMetadata site m)) →
      m.name = o.name ∧ m.origin = o.start ∧
        (s.world.FreshSave i (.disk (.saveMetadata site m)) →
          ∃ d, s.world.metadata o.name = some d ∧ d.origin = o.start)) ∧
    ∀ k k' o o' generation, s.world.owner k = some o → s.world.owner k' = some o' →
      o.name = o'.name → o.generation = some generation → o'.generation = some generation →
      k = k' := by
  obtain ⟨γ, ⟨hexcluded, hregistered, htruthful, -, howned⟩, hfollows⟩ := owned_of_reaches hreach
  constructor
  · intro i o site m hi ho hhead
    have hT := htruthful.threads i hi
    rcases (hfollows i).pre_head hhead with ⟨-, -, st, x, hst, -⟩ | ⟨c, hlocked, hreplace⟩
    · -- A start owns no run.
      obtain ⟨og, hog, -⟩ := hT.ghost_of_owner ho
      rw [hregistered.apart i (by rw [hst]; simp)] at hog
      cases hog
    · obtain ⟨hname, horigin⟩ := howned.save_origin hregistered hi hT ho hlocked hreplace
      obtain ⟨hn, hsite, -, ho'⟩ := hreplace.keeps
      refine ⟨hn.trans hname, ho'.trans horigin, fun hfresh => ⟨c, ?_, horigin⟩⟩
      rw [← hname]
      exact hfresh.disk hexcluded hi hsite hlocked hn
  · intro k k' o o' n ho ho' hname hn hn'
    have hrun := howned.owner k o n ho hn
    have hrun' := howned.owner k' o' n ho' hn'
    rw [hname] at hrun
    exact hregistered.unique k k' o o' ho ho' (hrun.unique hrun')

/-- The record that a thread saves next. -/
def nextSave (s : Config Act Act.Response ThreadResult World) (i : ℕ) :
    Option (Site × SessionMetadata) :=
  (s.thread i).head.bind Act.saves

/-- The next save of a thread is its next action. -/
theorem head_of_nextSave {s : Config Act Act.Response ThreadResult World} {i : ℕ} {site : Site}
    {m : SessionMetadata} (h : nextSave s i = some (site, m)) :
    (s.thread i).head = some (.disk (.saveMetadata site m)) := by
  obtain ⟨a, ha, hsaves⟩ := Option.bind_eq_some_iff.mp h
  rw [ha, eq_of_saves hsaves]

/-- A stop ends a daemon's run, and a direct start of the same name follows. Its supervisor
promotes its own run, while the first owner leaves the newer record alone. -/
theorem owner_acts_on_own_run_restarted :
    ∃ (s : Config Act Act.Response ThreadResult World) (o o' : Ownership) (m : SessionMetadata),
      s.world.owner 3 = some o' ∧ o'.start = 0 ∧ o'.generation = some 1 ∧
      s.world.owner 6 = some o ∧ o.start = 1 ∧
      (s.thread 6).head = some (.disk (.saveMetadata .promote m)) ∧ m.origin = o.start ∧
      ∃ d, s.world.metadata o.name = some d ∧ d.origin = o.start := by
  obtain ⟨s, hreach, hs⟩ := System.exists_reaches_of_exec (bridge plainEnv)
    (fun w i a c => Adopting w i a c)
    (steps 0 13 ++ [.run 0 { thread := 3 }] ++ steps 3 2 ++
      [.run 3 { pid := 7, startTime := 100 }] ++ steps 3 12 ++
      [.run 3 { thread := 4 }, .run 3 { thread := 5 }] ++ steps 0 3 ++ steps 2 9 ++
      [.run 3 { error := "killed", code := 1 }] ++ steps 1 15 ++
      [.run 1 { thread := 6, pid := 50, startTime := 1 }] ++ steps 6 8 ++
      [.run 6 { pid := 60, startTime := 2 }] ++ steps 3 1 ++ [.loop 5] ++ steps 5 4 ++ steps 3 3 ++
      steps 4 2 ++ [.loop 4] ++ steps 4 2 ++ steps 3 4 ++ steps 6 8)
    (boot plainEnv (served [startDemo true, startDemo false, stopDemo]))
    (fun s => (s.world.owner 3).any (fun o => o.start = 0 && o.generation = some 1) &&
      (s.world.owner 6).any (·.start = 1) && s.world.alive 6 &&
      (nextSave s 6).any fun x =>
        x.1 = .promote && s.world.FreshSave 6 (.disk (.saveMetadata x.1 x.2)))
    (fun _ _ _ _ h => of_decide_eq_true h) (by decide +kernel)
  simp only [Bool.and_eq_true, Option.any_eq_true, decide_eq_true_eq] at hs
  obtain ⟨⟨⟨⟨o', ho', hstart', hgeneration⟩, o, ho, hstart⟩, halive⟩, ⟨site, m⟩, hm, hsite, hfresh⟩ :=
    hs
  obtain rfl : site = .promote := hsite
  have hhead := head_of_nextSave hm
  obtain ⟨-, horigin, hrecord⟩ :=
    (owner_acts_on_own_run plainEnv _ hreach).1 6 o .promote m halive ho hhead
  exact ⟨s, o, o', m, ho', hstart', hgeneration, ho, hstart, hhead, horigin, hrecord hfresh⟩

/-- A start spawns a supervisor, a stop ends its run, and another start runs. The
first supervisor then records itself in the second run, and both supervisors own
generation 2. -/
theorem supervisor_adopts_later_run :
    ∃ (s s' : Config Act Act.Response ThreadResult World) (o o₁ o₂ : Ownership)
      (m : SessionMetadata),
      (bridge plainEnv).Reaches (fun _ _ _ _ => True)
        (boot plainEnv (served [startDemo false, stopDemo, startDemo false])) s ∧
      s.world.owner 3 = some o ∧ o.start = 0 ∧
      (s.thread 3).head = some (.disk (.saveMetadata .supervisor m)) ∧ m.origin = 2 ∧
      (bridge plainEnv).Reaches (fun _ _ _ _ => True) s s' ∧
      s'.world.owner 3 = some o₁ ∧ o₁.generation = some 2 ∧
      s'.world.owner 4 = some o₂ ∧ o₂.generation = some 2 ∧ o₁.name = o₂.name := by
  obtain ⟨s, hreach, hs⟩ := System.exists_reaches_of_exec (bridge plainEnv) System.unrestricted
    (steps 0 14 ++ [.run 0 { thread := 3, pid := 50, startTime := 1 }] ++ steps 1 8 ++ steps 0 3 ++
      steps 2 15 ++ [.run 2 { thread := 4, pid := 51, startTime := 2 }] ++ steps 3 4)
    (boot plainEnv (served [startDemo false, stopDemo, startDemo false]))
    (fun s => (s.world.owner 3).any (·.start = 0) &&
      (nextSave s 3).any (fun x => x.1 = .supervisor && x.2.origin = 2) &&
      ((bridge plainEnv).exec System.unrestricted (steps 3 2 ++ steps 4 6) s).any fun s' =>
        (s'.world.owner 3).any (fun o => o.generation = some 2 && o.name = "demo") &&
          (s'.world.owner 4).any fun o => o.generation = some 2 && o.name = "demo")
    (fun _ _ _ _ _ => trivial) (by decide +kernel)
  simp only [Bool.and_eq_true] at hs
  obtain ⟨⟨howner, hsave⟩, hrest⟩ := hs
  obtain ⟨o, ho, hstart⟩ := (Option.any_eq_true _ _).mp howner
  obtain ⟨⟨site, m⟩, hm, hmatch⟩ := (Option.any_eq_true _ _).mp hsave
  obtain ⟨s', hrun, hs'⟩ := System.exists_reaches_of_exec _ _ _ _ _
    (fun _ _ _ _ _ => trivial) hrest
  simp only [Bool.and_eq_true, decide_eq_true_eq] at hmatch hs'
  obtain ⟨rfl, horigin⟩ := hmatch
  obtain ⟨o₁, ho₁, hgeneration₁⟩ := (Option.any_eq_true _ _).mp hs'.1
  obtain ⟨o₂, ho₂, hgeneration₂⟩ := (Option.any_eq_true _ _).mp hs'.2
  simp only [Bool.and_eq_true, decide_eq_true_eq] at hgeneration₁ hgeneration₂
  exact ⟨s, s', o, o₁, o₂, m, hreach, ho, of_decide_eq_true hstart, head_of_nextSave hm, horigin,
    hrun, ho₁, hgeneration₁.1, ho₂, hgeneration₂.1, hgeneration₁.2.trans hgeneration₂.2.symm⟩

end IgnibyteBridge
