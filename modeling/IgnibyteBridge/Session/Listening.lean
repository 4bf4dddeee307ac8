import IgnibyteBridge.Session.Ownership
import IgnibyteBridge.Session.Readers

/-!
# Listening sessions

A start removes the FIFO of the session that it takes over. As long as its check
finds the record, and no run that is still being launched, the FIFO that an owner
opened stays at the session's path while its run is launched and served.
-/

namespace IgnibyteBridge

open Concurrency World

namespace World

/-- The owner of the run on disk is alive, and the run is Starting. -/
def Launching (w : World) (k : ℕ) (o : Ownership) : Prop :=
  w.alive k = true ∧ w.owner k = some o ∧
    ∃ d, w.metadata o.name = some d ∧ d.origin = o.start ∧ d.status = .starting

/-- The owner of the run on disk is alive and serves it, and the run is Running. -/
def Published (w : World) (k : ℕ) (o : Ownership) : Prop :=
  w.alive k = true ∧ w.Serving k o ∧
    ∃ d, w.metadata o.name = some d ∧ d.origin = o.start ∧ d.status = .running

/-- A start that is yet to save its initial record can read the record on disk, and
its session has no run that is being launched. -/
def ChecksSettled (w : World) (i : ℕ) (a : Act) (c : Choice) : Prop :=
  ∀ n ∈ a.loads, w.startLock n = some i → i ∉ w.inits n →
    c.ok = true ∧ ∀ k o, w.Launching k o → o.name ≠ n

/-- Supervisors adopt their own runs, starts take over settled sessions, the start
times of live children can be read, and the calls of owners succeed after their
promotion. -/
structure Listening (w : World) (i : ℕ) (a : Act) (c : Choice) : Prop where
  adopting : w.Adopting i a c
  settled : w.ChecksSettled i a c
  recognises : w.Recognises a c
  calls : w.OwnerCalls i a c

/-- What the discipline of handles allows an action. -/
structure Grasps (w : World) (i : ℕ) (a : Act) : Prop where
  handled : Handled w
  opens : ∀ name, a = .file (.openFifo name) →
    w.files.forward i = none ∧ ∀ o, w.owner i = some o → o.name = name
  passes : ∀ fifo pty, a = .process (.spawnForward fifo pty) → pty = i ∧ i ∈ w.files.readers fifo

/-- An owner that is promoted has recorded its child. -/
def PromotedRecorded (w : World) (k : ℕ) (g : Knowledge) : Prop :=
  ∀ o, w.owner k = some o → o.promoted = true → ∃ og, g.owner = some og ∧ og.recorded = true

/-- A start between its check and its initial save found every run that is served,
and there is none that is being launched. -/
def Found (w : World) (_ : ℕ) (g : Knowledge) : Prop :=
  ∀ st loaded, g.start = some st → st.held = true → st.initialized = none →
    st.window = some loaded →
      (∀ k o, w.Launching k o → o.name ≠ st.name) ∧
      ∀ k o, w.Published k o → o.name = st.name →
        ∃ d, loaded = some d ∧ d.status = .running ∧ d.childPid = o.child

/-- The FIFO that an owner reads is at the path of its session. -/
structure Watched (w : World) (γ : ℕ → Knowledge) : Prop where
  author : ∀ n d, w.metadata n = some d → d.status = .running →
    ∃ k o, w.owner k = some o ∧ o.start = d.origin ∧ o.promoted = true
  recorded : Threads PromotedRecorded w γ
  found : Threads Found w γ
  path : ∀ k o fifo, w.Launching k o ∨ w.Published k o → w.Holds k fifo →
    w.files.fifo o.name = some fifo

variable {w w' : World} {γ : ℕ → Knowledge} {i : ℕ} {a : Act} {c : Choice} {r : a.Response}

/-! ## Handles -/

/-- What a thread holds of the FIFO in an invariant world is what its next action may use. -/
theorem Reading.grasps {ρ : ℕ → Grip} (hJ : Reading w ρ) (hi : w.alive i = true)
    (hpre : Grip.pre a (ρ i)) : Grasps w i a where
  handled := hJ.handled
  opens name ha := by
    subst ha
    obtain ⟨pty, child, hg⟩ := hpre
    have hT := hJ.threads i hi hi
    rw [hg] at hT
    obtain ⟨o, ho, hname, -⟩ := hT.owner
    refine ⟨hT.forward, fun o' ho' => ?_⟩
    rw [ho] at ho'
    cases ho'
    exact hname
  passes fifo pty ha := by
    subst ha
    obtain ⟨x, hg, hfifo, hpty⟩ := hpre
    have hT := hJ.threads i hi hi
    rw [hg] at hT
    exact ⟨hT.pty pty hpty, hT.fifo fifo hfifo⟩

/-- An owner reads what it read before, or what it opens now. -/
theorem Grasps.holds_cases (hG : Grasps w i a) (h : perform i a c w = some (r, w')) {k fifo : ℕ}
    (hborn : w.life k ≠ .unborn) (hholds : w'.Holds k fifo) :
    w.Holds k fifo ∨
      (k = i ∧ ∃ name, a = .file (.openFifo name) ∧ w.files.fifo name = some fifo) := by
  obtain ⟨j, hmem, hj⟩ := hholds
  have hmove := handleMove h
  rcases hmove.reader_back hmem with hold | ⟨rfl, name, rfl, hpath⟩ | ⟨pty, rfl, hunborn, -, hnew⟩
  · refine .inl ⟨j, hold, hj.imp id fun hforward => ?_⟩
    rcases hmove.forward_back hforward with hforward | ⟨_, -, hunborn⟩
    · exact hforward
    · exact absurd hunborn (hG.handled.reader fifo j hold)
  · rcases hj with rfl | hforward
    · exact .inr ⟨rfl, name, rfl, hpath⟩
    · rcases hmove.forward_back hforward with hforward | ⟨_, hspawn, -⟩
      · cases (hG.opens name rfl).1.symm.trans hforward
      · cases hspawn
  · -- The new thread reads for the owner that it was started by.
    obtain ⟨rfl, hreads⟩ := hG.passes fifo pty rfl
    rcases hj with rfl | hforward
    · exact absurd hunborn hborn
    · cases hnew.symm.trans hforward
      exact .inl ⟨_, hreads, .inl rfl⟩

/-- A thread that is yet to be started reads nothing. -/
theorem Handled.not_holds (hJ : Handled w) {k fifo : ℕ} (hunborn : w.life k = .unborn) :
    ¬w.Holds k fifo := by
  rintro ⟨j, hmem, rfl | hforward⟩
  · exact hJ.reader fifo j hmem hunborn
  · exact hJ.target j k hforward hunborn

/-- A new owner reads nothing. -/
theorem Handled.not_holds_new (hJ : Handled w) (h : perform i a c w = some (r, w')) {k fifo : ℕ}
    (hunborn : w.life k = .unborn) (hspawns : a.spawns ≠ none) : ¬w'.Holds k fifo := by
  intro hholds
  cases handleMove h with
  | same readers forward stop =>
    obtain ⟨j, hmem, hj⟩ := hholds
    exact hJ.not_holds hunborn ⟨j, readers ▸ hmem, forward ▸ hj⟩
  | opened name x path => exact hspawns rfl
  | closed x => exact hspawns rfl
  | passed x pty j₀ unborn => exact hspawns rfl
  | stopped pty => exact hspawns rfl

/-! ## Runs -/

/-- What an action makes of the record of a run whose owner exists. -/
inductive RecordMove (i k : ℕ) (d d' : SessionMetadata) : Prop
  | same (status : d'.status = d.status)
  | stopped (status : d'.status = .stopped)
  | promoted (mine : k = i) (before : d.status ≠ .stopped) (after : d'.status = .running)

/-- The record of a run whose owner exists replaces a record of that run. -/
theorem recordMove (hregistered : Registered w γ) (htruthful : Truthful w γ)
    (hi : w.alive i = true) (hown : ReplacesOwn w i (γ i) a) (hpre : Knowledge.pre a (γ i))
    (h : perform i a c w = some (r, w')) {k : ℕ} {o : Ownership} (ho : w.owner k = some o)
    {d' : SessionMetadata} (hd' : w'.metadata o.name = some d') (horigin : d'.origin = o.start) :
    ∃ d, w.metadata o.name = some d ∧ d.origin = o.start ∧ RecordMove i k d d' := by
  rcases records_cases h with ⟨-, hmetadata, -⟩ | ⟨site, m, rfl, -, rfl⟩
  · rw [hmetadata] at hd'
    exact ⟨d', hd', horigin, .same rfl⟩
  · cases savedRecord hpre hd' with
    | other before hother => exact ⟨d', before, horigin, .same rfl⟩
    | initial hsite init hmine _ =>
      exact absurd (horigin.symm.trans hmine) (hregistered.not_initialize init ho)
    | replaced c' record hlater locked replace name =>
      subst record
      have hdisk := hown.disk _ rfl c' hlater locked
      have horigin' : c'.origin = o.start := replace.keeps.2.2.2.symm.trans horigin
      refine ⟨c', name ▸ hdisk, horigin', ?_⟩
      rcases replace.status with hsame | ⟨rfl, hbefore, hafter⟩ | hstopped
      · exact .same hsame
      · -- The promoted run is the owner's own one.
        obtain ⟨og, hog, -⟩ := id replace
        obtain ⟨oi, hoi, -⟩ := (htruthful.threads i hi).owner_of_ghost hog
        have hstart := (hown.own _ rfl c' oi locked replace hoi).2
        have hmine := hregistered.unique k i o oi ho hoi (horigin'.symm.trans hstart)
        exact .promoted hmine hbefore hafter
      · exact .stopped hstopped

/-- A run that is being launched was so before, or its owner is new. -/
theorem Launching.before (hsound : w.Sound) (hregistered : Registered w γ)
    (htruthful : Truthful w γ) (hi : w.alive i = true) (hown : ReplacesOwn w i (γ i) a)
    (hpre : Knowledge.pre a (γ i)) (h : perform i a c w = some (r, w')) {k : ℕ} {o : Ownership}
    (hborn : w.life k ≠ .unborn) (hlaunching : w'.Launching k o) :
    ∃ o₀, w.Launching k o₀ ∧ o₀.name = o.name := by
  obtain ⟨halive, ho, d', hd', horigin, hstatus⟩ := hlaunching
  obtain ⟨o₀, ho₀, hname, hstart, -⟩ := (ownerMove h).back hborn ho
  rw [hname] at hd'
  obtain ⟨d, hd, hmine, hmove⟩ :=
    recordMove hregistered htruthful hi hown hpre h ho₀ hd' (horigin.trans hstart)
  refine ⟨o₀, ⟨(perform_ages hsound h).alive k hborn halive, ho₀, d, hd, hmine, ?_⟩, hname.symm⟩
  cases hmove with
  | same status => exact status.symm.trans hstatus
  | stopped status => cases hstatus.symm.trans status
  | promoted mine before after => cases hstatus.symm.trans after

/-- A run that is served was so before, or was being launched. -/
theorem Published.before (hJ : Watched w γ) (hrecorded : Recorded w γ) (hsound : w.Sound)
    (hregistered : Registered w γ) (htruthful : Truthful w γ) (hi : w.alive i = true)
    (hown : ReplacesOwn w i (γ i) a) (hpre : Knowledge.pre a (γ i))
    (h : perform i a c w = some (r, w')) {k : ℕ} {o : Ownership} (hpublished : w'.Published k o) :
    ∃ o₀, (w.Launching k o₀ ∨ w.Published k o₀) ∧ o₀.name = o.name ∧ o₀.child = o.child := by
  obtain ⟨halive, hserving, d', hd', horigin, hstatus⟩ := hpublished
  have hages := perform_ages hsound h
  -- The owner existed, with the same child.
  obtain ⟨o₀, ho₀, hname, hstart, hchild, hserved⟩ : ∃ o₀, w.owner k = some o₀ ∧
      o₀.name = o.name ∧ o₀.start = o.start ∧ o₀.child = o.child ∧
      (o₀.promoted = true → w.Serving k o₀) := by
    rcases hrecorded.serving_cases hsound htruthful hi hpre h hserving with
      ⟨o₀, hserving₀, hname, hstart, hchild⟩ | ⟨rfl, m, o₀, -, ho₀, hname, hstart, hchild⟩
    · exact ⟨o₀, hserving₀.1, hname, hstart, hchild, fun _ => hserving₀⟩
    · refine ⟨o₀, ho₀, hname, hstart, hchild, fun hpromoted => ?_⟩
      obtain ⟨-, -, p, t, hp, hlive⟩ := hserving
      have hp₀ := hchild.trans hp
      exact ⟨ho₀, hpromoted, p, t, hp₀, hages.live_before (htruthful.child k o₀ p ho₀ hp₀) hlive⟩
  have hborn : w.life k ≠ .unborn := by
    intro hunborn
    cases (hsound.unborn k hunborn).symm.trans ho₀
  have halive₀ := hages.alive k hborn halive
  rw [← hname] at hd'
  obtain ⟨d, hd, hmine, hmove⟩ :=
    recordMove hregistered htruthful hi hown hpre h ho₀ hd' (horigin.trans hstart.symm)
  -- A Running record was published by the one owner of its run.
  have hrunning : d.status = .running → w.Published k o₀ := by
    intro hrunning
    obtain ⟨k', o', ho', hstart', hpromoted⟩ := hJ.author o₀.name d hd hrunning
    obtain rfl := hregistered.unique k' k o' o₀ ho' ho₀ (hstart'.trans hmine)
    rw [ho₀] at ho'
    cases ho'
    exact ⟨halive₀, hserved hpromoted, d, hd, hmine, hrunning⟩
  refine ⟨o₀, ?_, hname, hchild⟩
  cases hmove with
  | same status => exact .inr (hrunning (status.symm.trans hstatus))
  | stopped status => cases hstatus.symm.trans status
  | promoted mine before after =>
    cases hd₀ : d.status with
    | starting => exact .inl ⟨halive₀, ho₀, d, hd, hmine, hd₀⟩
    | running => exact .inr (hrunning hd₀)
    | stopped => exact absurd hd₀ before

/-! ## Starts -/

/-- The record of a run that is served names its child. -/
theorem Watched.child (hJ : Watched w γ) (hrecorded : Recorded w γ) {k : ℕ} {o : Ownership}
    (hpublished : w.Published k o) {d : SessionMetadata} (hd : w.metadata o.name = some d)
    (horigin : d.origin = o.start) : d.childPid = o.child := by
  obtain ⟨halive, ⟨ho, hpromoted, p, t, hp, hlive⟩, -⟩ := hpublished
  obtain ⟨og, hog, hdone⟩ := hJ.recorded k halive o ho hpromoted
  rw [hp]
  exact (hrecorded.recorded k halive).disk og o p t d hog hdone ho hp hlive hd horigin

/-- A new owner is spawned by a start that has saved its initial record. -/
theorem owner_new (hsound : w.Sound) (hpre : Knowledge.pre a (γ i))
    (h : perform i a c w = some (r, w')) {k : ℕ} {o : Ownership} (hunborn : w.life k = .unborn)
    (ho : w'.owner k = some o) : o.promoted = false ∧ a.spawns = some o.name ∧
      ∃ st, (γ i).start = some st ∧ st.held = true ∧ st.name = o.name ∧ st.initialized ≠ none := by
  have hnone := hsound.unborn k hunborn
  have hmap : ∀ f : Ownership → Ownership,
      w'.owner = Function.update w.owner i ((w.owner i).map f) → False := by
    intro f howner
    rw [howner, owner_map_none f hnone] at ho
    cases ho
  cases ownerMove h with
  | same owner =>
    rw [owner, hnone] at ho
    cases ho
  | adopt m save owner => exact (hmap _ owner).elim
  | promote m save owner => exact (hmap _ owner).elim
  | child p spawned owner unborn born => exact (hmap _ owner).elim
  | spawn j o' child promoted owner unborn spawns =>
    rw [owner] at ho
    by_cases hkj : k = j
    · subst hkj
      rw [Function.update_self] at ho
      cases ho
      refine ⟨promoted, spawns, ?_⟩
      unfold Act.spawns at spawns
      split at spawns <;> cases spawns
      all_goals
        obtain ⟨st, hst, hheld, hname, hinit, -⟩ := hpre
        exact ⟨st, hst, hheld, hname, hinit⟩
    · rw [Function.update_of_ne hkj, hnone] at ho
      cases ho

/-- A start that may replace the files of a session has none that is launched or served. -/
theorem Watched.not_resets (hJ : Watched w γ) (hB : Threads Buries w γ) (hi : w.alive i = true)
    (hpre : Knowledge.pre a (γ i)) {k : ℕ} {o : Ownership}
    (hrun : w.Launching k o ∨ w.Published k o) : a.resets ≠ some o.name := by
  intro hresets
  obtain ⟨st, loaded, hst, hheld, hname, hwindow, hinit, hcleared⟩ :=
    Knowledge.mayReset_of_resets hpre hresets
  obtain ⟨hlaunching, hpublished⟩ := hJ.found i hi st loaded hst hheld hinit hwindow
  rcases hrun with hrun | hrun
  · exact hlaunching k o hrun hname.symm
  · obtain ⟨d, hloaded, hrunning, hchild⟩ := hpublished k o hrun hname.symm
    obtain ⟨-, ⟨ho, -, p, t, hp, hlive⟩, -⟩ := hrun
    exact (hB i hi p (hcleared d hloaded hrunning p (hchild.trans hp))).not_live ho hp hlive

/-- What a start found stays found while no owner of the session is new. -/
theorem Watched.found_keep (hJ : Watched w γ) (hrecorded : Recorded w γ) (hsound : w.Sound)
    (hregistered : Registered w γ) (htruthful : Truthful w γ) (hi : w.alive i = true)
    (hown : ReplacesOwn w i (γ i) a) (hpre : Knowledge.pre a (γ i))
    (h : perform i a c w = some (r, w')) {n : String} {loaded : Option SessionMetadata}
    (hold : (∀ k o, w.Launching k o → o.name ≠ n) ∧ ∀ k o, w.Published k o → o.name = n →
      ∃ d, loaded = some d ∧ d.status = .running ∧ d.childPid = o.child)
    (hnew : ∀ k o, w.life k = .unborn → w'.owner k = some o → o.name ≠ n) :
    (∀ k o, w'.Launching k o → o.name ≠ n) ∧ ∀ k o, w'.Published k o → o.name = n →
      ∃ d, loaded = some d ∧ d.status = .running ∧ d.childPid = o.child := by
  refine ⟨fun k o hlaunching => ?_, fun k o hpublished hname => ?_⟩
  · by_cases hborn : w.life k = .unborn
    · exact hnew k o hborn hlaunching.2.1
    · obtain ⟨o₀, hbefore, hname⟩ :=
        hlaunching.before hsound hregistered htruthful hi hown hpre h hborn
      rw [← hname]
      exact hold.1 k o₀ hbefore
  · obtain ⟨o₀, hlaunching | hbefore, hname₀, hchild⟩ :=
      hpublished.before hJ hrecorded hsound hregistered htruthful hi hown hpre h
    · exact absurd (hname₀.trans hname) (hold.1 k o₀ hlaunching)
    · rw [← hchild]
      exact hold.2 k o₀ hbefore (hname₀.trans hname)

/-- The check of a start finds the runs that are served. -/
theorem found_load {n : String} {c : Choice} {r : Except String SessionMetadata}
    (hJ : Watched w γ) (hrecorded : Recorded w γ) (hexcluded : Excluded w γ)
    (hregistered : Registered w γ) (hi : w.alive i = true)
    (hok : w.ChecksSettled i (.disk (.loadMetadata n)) c)
    (hpre : Knowledge.pre (.disk (.loadMetadata n)) (γ i))
    (h : performDisk i (.loadMetadata n) c w = some (r, w')) :
    Found w' i ((γ i).load r.toOption) := by
  intro st' loaded hst' hheld hinit hwindow
  obtain ⟨rfl, -⟩ := performDisk_load h
  obtain ⟨st, hst, hname', hheld₀, hinit₀, ⟨hn, hlock, hnotYet, hloaded⟩ | hwindow₀⟩ :=
    load_window hexcluded hregistered hi hpre hst' hheld hinit hwindow
  · obtain ⟨hread, hlaunching⟩ := hok n rfl hlock hnotYet
    rw [hname', hn]
    refine ⟨hlaunching, fun k o hrun hname => ?_⟩
    replace hrun : w.Published k o := hrun
    obtain ⟨d, hd, horigin, hrunning⟩ := hrun.2.2
    exact ⟨d, hloaded.trans (toOption_of_load h hread (hname ▸ hd)), hrunning,
      hJ.child hrecorded hrun hd horigin⟩
  · rw [hname']
    exact hJ.found i hi st loaded hst hheld₀ hinit₀ hwindow₀

/-- A start finds the runs of its session that are served, after every action. -/
theorem Watched.found_act (env : Env) (hJ : Watched w γ) (hrecorded : Recorded w γ)
    (hexcluded : Excluded w γ) (hregistered : Registered w γ) (htruthful : Truthful w γ)
    (hi : w.alive i = true) (hok : w.ChecksSettled i a c) (hown : ReplacesOwn w i (γ i) a)
    (hpre : Knowledge.pre a (γ i)) (h : perform i a c w = some (r, w')) :
    Threads Found w' (ghosts (bridge env) Knowledge.protocol Knowledge.fresh γ i a r) := by
  refine threads_act env hexcluded.sound hi h hJ.found (fun hT => ?_) (fun j hj halive hT => ?_)
    fun k p _ st loaded hst => ?_
  · cases hload : a.loads with
    | some n =>
      obtain rfl := eq_of_loads hload
      exact found_load hJ hrecorded hexcluded hregistered hi hok hpre h
    | none =>
      intro st' loaded hst' hheld hinit hwindow
      rcases post_start_unread hload hst' with ⟨-, hnone, -⟩ |
        ⟨st, hst, hname, hheld', hinit', hwindow', -⟩
      · cases hnone.symm.trans hwindow
      · rw [hname]
        refine hJ.found_keep hrecorded hexcluded.sound hregistered htruthful hi hown hpre h
          (hT st loaded hst (hheld' hheld) (hinit' hinit) (hwindow'.symm.trans hwindow)) ?_
        -- A start that spawns an owner has saved its initial record.
        intro k o hunborn ho _
        obtain ⟨-, -, st₁, hst₁, -, -, hinit₁⟩ := owner_new hexcluded.sound hpre h hunborn ho
        rw [hst] at hst₁
        cases hst₁
        exact hinit₁ (hinit' hinit)
  · intro st loaded hst hheld hinit hwindow
    refine hJ.found_keep hrecorded hexcluded.sound hregistered htruthful hi hown hpre h
      (hT st loaded hst hheld hinit hwindow) ?_
    -- Only the start that holds `start.lock` spawns an owner.
    intro k o hunborn ho hname
    obtain ⟨-, -, st₁, hst₁, hheld₁, hname₁, -⟩ := owner_new hexcluded.sound hpre h hunborn ho
    have hlock := (hexcluded.threads j halive).start st hst hheld
    have hlock₁ := (hexcluded.threads i hi).start st₁ hst₁ hheld₁
    rw [hname₁, hname] at hlock₁
    exact hj (Option.some.inj (hlock.symm.trans hlock₁))
  · rw [fresh_start] at hst
    cases hst

/-! ## Promotions -/

/-- An owner keeps its run, and stays promoted. -/
theorem OwnerMove.forth (hmove : OwnerMove w i a w') (hsound : w.Sound) {k : ℕ} {o : Ownership}
    (ho : w.owner k = some o) : ∃ o', w'.owner k = some o' ∧ o'.start = o.start ∧
      (o.promoted = true → o'.promoted = true) := by
  have hmap : ∀ f : Ownership → Ownership, w'.owner = Function.update w.owner i ((w.owner i).map f) →
      (∀ o, (f o).start = o.start ∧ (o.promoted = true → (f o).promoted = true)) →
      ∃ o', w'.owner k = some o' ∧ o'.start = o.start ∧ (o.promoted = true → o'.promoted = true) := by
    intro f howner hf
    by_cases hk : k = i
    · subst hk
      exact ⟨f o, by rw [howner, Function.update_self, ho]; rfl, hf o⟩
    · exact ⟨o, by rw [howner, Function.update_of_ne hk, ho], rfl, id⟩
  cases hmove with
  | same owner => exact ⟨o, owner ▸ ho, rfl, id⟩
  | adopt m save owner => exact hmap _ owner fun _ => ⟨rfl, id⟩
  | promote m save owner => exact hmap _ owner fun _ => ⟨rfl, fun _ => rfl⟩
  | child p spawned owner unborn born => exact hmap _ owner fun _ => ⟨rfl, id⟩
  | spawn j o' child promoted owner unborn =>
    refine ⟨o, ?_, rfl, id⟩
    rw [owner, Function.update_of_ne ?_, ho]
    rintro rfl
    cases (hsound.unborn k unborn).symm.trans ho

/-- A Running record was promoted by the owner of its run. -/
theorem Watched.author_act (hJ : Watched w γ) (hsound : w.Sound) (htruthful : Truthful w γ)
    (hi : w.alive i = true) (hown : ReplacesOwn w i (γ i) a) (hpre : Knowledge.pre a (γ i))
    (h : perform i a c w = some (r, w')) (n : String) (d : SessionMetadata)
    (hd : w'.metadata n = some d) (hstatus : d.status = .running) :
    ∃ k o, w'.owner k = some o ∧ o.start = d.origin ∧ o.promoted = true := by
  have hkeep : ∀ {origin}, (∃ k o, w.owner k = some o ∧ o.start = origin ∧ o.promoted = true) →
      ∃ k o, w'.owner k = some o ∧ o.start = origin ∧ o.promoted = true := by
    rintro origin ⟨k, o, ho, hstart, hpromoted⟩
    obtain ⟨o', ho', hstart', hpromoted'⟩ := (ownerMove h).forth hsound ho
    exact ⟨k, o', ho', hstart'.trans hstart, hpromoted' hpromoted⟩
  rcases records_cases h with ⟨-, hmetadata, -⟩ | ⟨site, m, rfl, -, rfl⟩
  · exact hkeep (hJ.author n d (hmetadata ▸ hd) hstatus)
  · cases savedRecord hpre hd with
    | other before hother => exact hkeep (hJ.author n d before hstatus)
    | initial hsite init origin name =>
      subst hsite name
      obtain ⟨st, x, -, -, -, -, -, -, -, hstarting, -⟩ := init
      simp only [World.save, Function.update_self, Option.some.injEq] at hd
      subst hd
      cases hstarting.symm.trans hstatus
    | replaced c' record hlater locked replace name =>
      subst record
      have hdisk := hown.disk _ rfl c' hlater locked
      obtain ⟨hname, -, -, horigin⟩ := replace.keeps
      rcases replace.status with hsame | ⟨rfl, -, -⟩ | hstopped
      · rw [horigin]
        exact hkeep (hJ.author c'.name c' hdisk (hsame.symm.trans hstatus))
      · obtain ⟨og, hog, -⟩ := id replace
        obtain ⟨o, ho, -⟩ := (htruthful.threads i hi).owner_of_ghost hog
        have hstart := (hown.own _ rfl c' o locked replace ho).2
        refine ⟨i, { o with promoted := true }, ?_, hstart.symm.trans horigin.symm, rfl⟩
        change Function.update w.owner i _ i = _
        rw [Function.update_self, ho]
        rfl
      · cases hstopped.symm.trans hstatus

/-- An owner does not forget that it recorded its child. -/
theorem post_keeps_recorded {g : Knowledge} {og : OwnerGhost} (hog : g.owner = some og)
    (hrecorded : og.recorded = true) :
    ∃ og', (Knowledge.post a g r).owner = some og' ∧ og'.recorded = true := by
  have hmap : ∀ f : OwnerGhost → OwnerGhost, (f og).recorded = true →
      ∃ og', g.owner.map f = some og' ∧ og'.recorded = true :=
    fun f hf => ⟨f og, by rw [hog]; rfl, hf⟩
  have hbury : ∀ (p : ℕ) (b : Bool),
      ∃ og', (if b then g.bury p else g).owner = some og' ∧ og'.recorded = true := by
    intro p b
    cases b <;> exact ⟨og, hog, hrecorded⟩
  have hsame : ∃ og', g.owner = some og' ∧ og'.recorded = true := ⟨og, hog, hrecorded⟩
  cases a with
  | file a => exact hsame
  | disk a =>
    cases a
    case acquireStartLock name => cases r <;> exact hsame
    case acquireStatusLock name => cases r <;> exact hsame
    case saveMetadata site m =>
      cases r with
      | error e => exact hsame
      | ok u =>
        cases site
        case supervisor => exact hmap _ hrecorded
        case child => exact hmap _ rfl
        all_goals exact hsame
    all_goals exact hsame
  | process a =>
    cases a
    case processStartTime p =>
      cases r with
      | none => exact hbury p _
      | some t => exact hsame
    case pidIsOurs p startTime =>
      cases p with
      | none => exact hsame
      | some p =>
        cases r with
        | true => exact hsame
        | false => exact hbury p _
    case terminatePid p =>
      cases r with
      | error e => exact hsame
      | ok u => exact hbury p _
    case spawnSupervisor => cases r <;> exact hsame
    case spawnCommand command cwd path =>
      cases r with
      | none => exact hsame
      | some p => exact hmap _ hrecorded
    all_goals exact hsame

/-- An owner records its child before it is promoted. -/
theorem Watched.recorded_act (env : Env) (hJ : Watched w γ) (hsound : w.Sound)
    (hi : w.alive i = true) (hpre : Knowledge.pre a (γ i)) (h : perform i a c w = some (r, w')) :
    Threads PromotedRecorded w'
      (ghosts (bridge env) Knowledge.protocol Knowledge.fresh γ i a r) := by
  refine threads_act env hsound hi h hJ.recorded (fun hT o ho hpromoted => ?_)
    (fun k hk halive hT o ho => ?_) fun k p hlaunched o ho hpromoted => ?_
  · obtain ⟨o₀, ho₀, -, -, hbefore, -⟩ := (ownerMove h).back (alive_ne_unborn hi) ho
    obtain ⟨og, hog, hrecorded⟩ : ∃ og, (γ i).owner = some og ∧ og.recorded = true := by
      rcases hbefore hpromoted with hpromoted₀ | ⟨m, hmem⟩
      · exact hT o₀ ho₀ hpromoted₀
      · obtain rfl := eq_of_saves hmem
        rcases hpre with ⟨hsite, -⟩ | ⟨c', -, og, hog, -, -, hrecorded, -⟩
        · cases hsite
        · exact ⟨og, hog, hrecorded⟩
    exact post_keeps_recorded hog hrecorded
  · rw [perform_owner_other h hk (alive_ne_unborn halive)] at ho
    exact hT o ho
  · obtain ⟨hnone, -⟩ := owner_new hsound hpre h (launched_unborn h hlaunched) ho
    cases hnone.symm.trans hpromoted

/-! ## Paths -/

/-- The FIFO that an owner reads stays at the path of its session. -/
theorem Watched.path_act (hJ : Watched w γ) (hG : Grasps w i a) (hrecorded : Recorded w γ)
    (hsound : w.Sound) (hregistered : Registered w γ) (htruthful : Truthful w γ)
    (hB : Threads Buries w γ) (hi : w.alive i = true) (hown : ReplacesOwn w i (γ i) a)
    (hpre : Knowledge.pre a (γ i)) (h : perform i a c w = some (r, w')) (k : ℕ) (o : Ownership)
    (fifo : ℕ)
    (hrun : w'.Launching k o ∨ w'.Published k o) (hholds : w'.Holds k fifo) :
    w'.files.fifo o.name = some fifo := by
  have ho : w'.owner k = some o := hrun.elim (fun hrun => hrun.2.1) fun hrun => hrun.2.1.1
  by_cases hborn : w.life k = .unborn
  · obtain ⟨-, hspawns, -⟩ := owner_new hsound hpre h hborn ho
    exact absurd hholds (hG.handled.not_holds_new h hborn (by simp [hspawns]))
  · obtain ⟨o₀, hbefore, hname⟩ :
        ∃ o₀, (w.Launching k o₀ ∨ w.Published k o₀) ∧ o₀.name = o.name := by
      rcases hrun with hrun | hrun
      · obtain ⟨o₀, hbefore, hname⟩ :=
          hrun.before hsound hregistered htruthful hi hown hpre h hborn
        exact ⟨o₀, .inl hbefore, hname⟩
      · obtain ⟨o₀, hbefore, hname, -⟩ :=
          hrun.before hJ hrecorded hsound hregistered htruthful hi hown hpre h
        exact ⟨o₀, hbefore, hname⟩
    have ho₀ : w.owner k = some o₀ := hbefore.elim (fun hrun => hrun.2.1) fun hrun => hrun.2.1.1
    rw [← hname, (perform_relinks h).kept _ (hJ.not_resets hB hi hpre hbefore)]
    rcases hG.holds_cases h hborn hholds with hheld | ⟨rfl, name, rfl, hpath⟩
    · exact hJ.path k o₀ fifo hbefore hheld
    · rw [(hG.opens name rfl).2 o₀ ho₀]
      exact hpath

/-- Every action of a run whose checks are settled keeps the FIFOs in place. -/
theorem Watched.act (env : Env) (hJ : Watched w γ) (hG : Grasps w i a) (hrecorded : Recorded w γ)
    (hexcluded : Excluded w γ) (hregistered : Registered w γ) (htruthful : Truthful w γ)
    (hB : Threads Buries w γ) (hi : w.alive i = true) (hok : w.ChecksSettled i a c)
    (hown : ReplacesOwn w i (γ i) a) (hpre : Knowledge.pre a (γ i))
    (h : perform i a c w = some (r, w')) :
    Watched w' (ghosts (bridge env) Knowledge.protocol Knowledge.fresh γ i a r) where
  author := hJ.author_act hexcluded.sound htruthful hi hown hpre h
  recorded := hJ.recorded_act env hexcluded.sound hi hpre h
  found := hJ.found_act env hrecorded hexcluded hregistered htruthful hi hok hown hpre h
  path := hJ.path_act hG hrecorded hexcluded.sound hregistered htruthful hB hi hown hpre h

/-- What happens outside the bridge launches nothing. -/
theorem Launching.disturb {e : Disturbance} (h : w.disturb e = some w') {k : ℕ} {o : Ownership}
    (hlaunching : w'.Launching k o) : w.Launching k o := by
  obtain ⟨halive, ho, hd⟩ := hlaunching
  obtain ⟨hdisk, howner⟩ := disturb_sameDisk h
  exact ⟨disturb_alive h halive, howner ▸ ho, hdisk.metadata ▸ hd⟩

/-- What happens outside the bridge publishes no child. -/
theorem Published.disturb {e : Disturbance} (htruthful : Truthful w γ) (h : w.disturb e = some w')
    {k : ℕ} {o : Ownership} (hpublished : w'.Published k o) : w.Published k o := by
  obtain ⟨halive, hserving, hd⟩ := hpublished
  exact ⟨disturb_alive h halive, hserving.disturb htruthful h, (disturb_sameDisk h).1.metadata ▸ hd⟩

/-- What happens outside the bridge leaves every live run watched. -/
theorem Watched.disturb {e : Disturbance} (hJ : Watched w γ) (htruthful : Truthful w γ)
    (h : w.disturb e = some w') : Watched w' γ where
  author n d hd hstatus := by
    rw [(disturb_sameDisk h).1.metadata] at hd
    rw [(disturb_sameDisk h).2]
    exact hJ.author n d hd hstatus
  recorded := threads_disturb h hJ.recorded fun _ _ hT o ho => hT o ((disturb_sameDisk h).2 ▸ ho)
  found := threads_disturb h hJ.found fun _ _ hT st loaded hst hheld hinit hwindow => by
    obtain ⟨hlaunching, hpublished⟩ := hT st loaded hst hheld hinit hwindow
    exact ⟨fun k o hrun => hlaunching k o (hrun.disturb h),
      fun k o hrun => hpublished k o (hrun.disturb htruthful h)⟩
  path k o fifo hrun hholds := by
    have hfiles := disturb_files h
    rw [hfiles.fifo]
    refine hJ.path k o fifo (hrun.imp (·.disturb h) (·.disturb htruthful h)) ?_
    obtain ⟨j, hmem, hj⟩ := hholds
    exact ⟨j, hfiles.readers ▸ hmem, hfiles.forward ▸ hj⟩

/-- Before the first action there is no run to watch. -/
theorem watched_fresh (requests : ℕ → Option Request) :
    Watched (World.fresh requests) fun _ => {} where
  author n d hd := by cases hd
  recorded k _ o ho := by cases ho
  found k _ st loaded hst := by cases hst
  path k o fifo hrun := by
    rcases hrun with hrun | hrun
    · cases hrun.2.1
    · cases hrun.2.1.1

/-- What holds in every state of a run in which sessions listen. -/
structure Heard (w : World) (γ : ℕ → Knowledge) : Prop where
  truthful : Truthful w γ
  buries : Threads Buries w γ
  lineage : Lineage w γ
  owned : Owned w γ
  recorded : Recorded w γ
  watched : Watched w γ

/-- One action of any thread leaves every published run with a reader. -/
theorem Heard.act (env : Env) (hJ : Heard w γ) (hG : Grasps w i a) (hexcluded : Excluded w γ)
    (hregistered : Registered w γ) (hi : w.alive i = true) (hok : w.Listening i a c)
    (hpre : Knowledge.pre a (γ i)) (h : perform i a c w = some (r, w')) :
    Heard w' (ghosts (bridge env) Knowledge.protocol Knowledge.fresh γ i a r) := by
  obtain ⟨hadopting, hsettled, hrecognises, -⟩ := hok
  have hlineage' := hJ.lineage.act env hexcluded hregistered hi hadopting.1 hpre h
  have hown := hadopting.replacesOwn hexcluded hregistered hJ.truthful hJ.owned hi hpre
  exact ⟨hJ.truthful.act hexcluded.sound hi hpre h,
    buries_act hJ.buries hJ.truthful hexcluded.sound hi hrecognises h, hlineage',
    hJ.owned.act env hexcluded hregistered hJ.truthful hJ.lineage hlineage' hi hadopting.2 hpre h,
    hJ.recorded.act env hexcluded.sound hregistered hJ.truthful hJ.buries hi hown hpre h,
    hJ.watched.act env hG hJ.recorded hexcluded hregistered hJ.truthful hJ.buries hi hsettled hown
      hpre h⟩

/-- What happens outside the bridge leaves every published run with a reader. -/
theorem Heard.disturb {e : Disturbance} (hJ : Heard w γ) (h : w.disturb e = some w') :
    Heard w' γ :=
  ⟨hJ.truthful.disturb h, buries_disturb hJ.buries h, hJ.lineage.disturb h, hJ.owned.disturb h,
    hJ.recorded.disturb hJ.truthful h, hJ.watched.disturb hJ.truthful h⟩

/-- Before the first action no run is published. -/
theorem heard_fresh (requests : ℕ → Option Request) :
    Heard (World.fresh requests) fun _ => {} :=
  ⟨truthful_fresh requests, buries_fresh requests, lineage_fresh requests, owned_fresh requests,
    recorded_fresh requests, watched_fresh requests⟩

/-- Handles and records of a run in which sessions listen. -/
theorem heard_of_reaches {env : Env} {requests : ℕ → Option Request}
    {s : Config Act Act.Response ThreadResult World}
    (h : (bridge env).Reaches Listening (boot env requests) s) :
    (∃ ρ, Reading s.world ρ) ∧ ∃ γ, Registered s.world γ ∧ Heard s.world γ := by
  have hreading : ∀ t, (bridge env).Reaches Listening (boot env requests) t →
      Outlined Grip.discipline Grip.Finished Reading t :=
    fun t ht => reading_of_reaches (ht.mono fun _ _ _ _ hok => hok.calls)
  refine ⟨(hreading s h).imp fun _ hρ => hρ.1, ?_⟩
  obtain ⟨γ, ⟨-, hregistered, hJ⟩, -⟩ := registered_of_reaches
    (fun {w γ i a c r w'} hexcluded hregistered hJ hi hok hpre hperform => by
      obtain ⟨hlistening, ρ, hR, hgrip⟩ := hok
      exact hJ.act env (hR.grasps hi hgrip) hexcluded hregistered hi hlistening hpre hperform)
    (fun hJ hdisturb => hJ.disturb hdisturb) (heard_fresh requests) (h.licensed hreading)
  exact ⟨γ, hregistered, hJ⟩

/-- The owner of a Running record's generation is the one whose run it is. -/
theorem Heard.published (hJ : Heard w γ) {k : ℕ} {o : Ownership} {d : SessionMetadata}
    (halive : w.alive k = true) (hserving : w.Serving k o) (hd : w.metadata o.name = some d)
    (hstatus : d.status = .running) (hgeneration : o.generation = some d.generation) :
    w.Published k o := by
  have hrun := hJ.owned.owner k o d.generation hserving.1 hgeneration
  exact ⟨halive, hserving, d, hd, (hJ.lineage.runOf hd).unique hrun, hstatus⟩

end World

/-- **Running implies a reader.** When starts take over settled sessions only,
supervisors adopt their own runs, the start times of live children can be read and the
calls of owners succeed after their promotion, the live owner of a Running record whose
child is alive holds the FIFO at the session's path open, so no sender finds it without a
reader. -/
theorem running_has_reader (env : Env) (requests : ℕ → Option Request)
    {s : Config Act Act.Response ThreadResult World}
    (hreach : (bridge env).Reaches Listening (boot env requests) s) {k : ℕ} {o : Ownership}
    {d : SessionMetadata} (halive : s.world.alive k = true) (hserving : s.world.Serving k o)
    (hd : s.world.metadata o.name = some d) (hstatus : d.status = .running)
    (hgeneration : o.generation = some d.generation) :
    ∃ fifo, s.world.files.fifo o.name = some fifo ∧ s.world.Holds k fifo ∧
      ∀ i c r w', World.perform i (.file (.openFifoWriter o.name)) c s.world = some (r, w') →
        r ≠ .noReader := by
  obtain ⟨⟨ρ, hR⟩, γ, -, hJ⟩ := heard_of_reaches hreach
  have hpublished := hJ.published halive hserving hd hstatus hgeneration
  obtain ⟨ho, hpromoted, p, t, hp, hlive⟩ := hserving
  obtain ⟨fifo, hholds, hreader⟩ := hR.holds halive ho hpromoted hp hlive
  have hpath := hJ.watched.path k o fifo (.inr hpublished) hholds
  refine ⟨fifo, hpath, hholds, fun i c r w' hopen => ?_⟩
  obtain ⟨f, hperform, -⟩ := perform_file hopen
  simp only [performFile, hpath] at hperform
  split at hperform
  · next file _ heq =>
    obtain rfl := Option.some.inj heq
    rw [if_pos hreader] at hperform
    cases hperform
    simp
  · cases hperform
    simp

/-- `Listening` where no record that a start loads is Starting, as a test. -/
def listeningTest (w : World) (i : ℕ) (a : Act) (c : Choice) : Bool :=
  decide (w.Adopting i a c) && decide (w.OwnerCalls i a c) && legible a c &&
    a.loads.all fun n => w.startLock n ≠ some i || i ∈ w.inits n ||
      (c.ok && (w.metadata n).all fun d => d.status ≠ .starting)

/-- The test decides the condition on one step. -/
theorem listening_of_test (w : World) (i : ℕ) (a : Act) (c : Choice)
    (h : listeningTest w i a c = true) : w.Listening i a c := by
  simp only [listeningTest, Bool.and_eq_true, decide_eq_true_eq] at h
  obtain ⟨⟨⟨hadopting, hcalls⟩, hlegible⟩, hloads⟩ := h
  refine ⟨hadopting, fun n hn hlock hinits => ?_, recognises_of_legible hlegible, hcalls⟩
  have hmem : a.loads = some n := hn
  simp only [hmem, Option.all_some, hlock, ne_eq, not_true, decide_false, hinits, Bool.false_or,
    Bool.and_eq_true] at hloads
  refine ⟨hloads.1, ?_⟩
  rintro k o ⟨-, -, d, hd, -, hstarting⟩ rfl
  have hsettled := hloads.2
  rw [hd, Option.all_some, hstarting] at hsettled
  cases hsettled

/-- Whether a thread was refused because the session "demo" is running. -/
def refused (s : Config Act Act.Response ThreadResult World) (i : ℕ) : Bool :=
  match s.thread i with
  | .done (.replied (.error e)) => e = "session 'demo' is already running"
  | _ => false

/-- A daemon's session ends, a direct one of the same name reaches Running, and another
start of the name finds it running and leaves its FIFO alone. -/
theorem running_has_reader_restarted :
    ∃ (s : Config Act Act.Response ThreadResult World) (o : Ownership) (d : SessionMetadata)
      (fifo : ℕ), s.world.alive 6 = true ∧ s.world.Serving 6 o ∧ refused s 2 = true ∧
      s.world.inits o.name = [0, 1] ∧
      s.world.metadata o.name = some d ∧ d.status = .running ∧ o.generation = some d.generation ∧
      s.world.files.fifo o.name = some fifo ∧ s.world.Holds 6 fifo ∧
      ∀ i c r w', World.perform i (.file (.openFifoWriter o.name)) c s.world = some (r, w') →
        r ≠ .noReader := by
  obtain ⟨s, hreach, hs⟩ := System.exists_reaches_of_exec (bridge plainEnv) listeningTest
    (endedDemo ++ steps 1 15 ++ [.run 1 { thread := 6, pid := 50, startTime := 1 }] ++ steps 6 8 ++
      [.run 6 { pid := 60, startTime := 2 }] ++ steps 6 10 ++ steps 1 3 ++ steps 2 6)
    (boot plainEnv (served [startDemo true, startDemo false, startDemo true]))
    (fun s => s.world.alive 6 && servingTest s.world 6 && refused s 2 &&
      (s.world.owner 6).any fun o => s.world.inits o.name = [0, 1] &&
        (s.world.metadata o.name).any fun d =>
          d.status = .running && o.generation = some d.generation)
    listening_of_test (by decide +kernel)
  simp only [Bool.and_eq_true] at hs
  obtain ⟨⟨⟨halive, hserving⟩, hrefused⟩, hrecord⟩ := hs
  obtain ⟨o, ho⟩ := serving_of_test hserving
  obtain ⟨o', ho', hrecord⟩ := (Option.any_eq_true _ _).mp hrecord
  rw [ho.1] at ho'
  cases ho'
  simp only [Bool.and_eq_true, decide_eq_true_eq] at hrecord
  obtain ⟨hinits, hrecord⟩ := hrecord
  obtain ⟨d, hd, htest⟩ := (Option.any_eq_true _ _).mp hrecord
  simp only [Bool.and_eq_true, decide_eq_true_eq] at htest
  obtain ⟨fifo, hfifo, hholds, hopen⟩ :=
    running_has_reader plainEnv _ hreach halive ho hd htest.1 htest.2
  exact ⟨s, o, d, fifo, halive, ho, hrefused, hinits, hd, htest.1, htest.2, hfifo, hholds, hopen⟩

/-- A session is Running, its start has replied, and every call of its owner
succeeds. Another start fails to read the record, takes the name for free and
replaces the FIFO: a sender finds no reader. -/
theorem running_without_reader :
    ∃ (s : Config Act Act.Response ThreadResult World) (o : Ownership) (d : SessionMetadata),
      (bridge plainEnv).Reaches OwnerCalls
        (boot plainEnv (served [startDemo true, startDemo true])) s ∧
      repliedOk s 0 = true ∧ s.world.alive 2 = true ∧ s.world.Serving 2 o ∧
      s.world.metadata o.name = some d ∧ d.status = .running ∧ o.generation = some d.generation ∧
      (¬∃ fifo, s.world.files.fifo o.name = some fifo ∧ s.world.Holds 2 fifo) ∧
      World.perform 3 (.file (.openFifoWriter o.name)) {} s.world = some (.noReader, s.world) := by
  obtain ⟨s, hreach, hs⟩ := System.exists_reaches_of_exec (bridge plainEnv)
    (fun w i a c => OwnerCalls w i a c)
    (steps 0 13 ++ [.run 0 { thread := 2 }] ++ steps 2 2 ++
      [.run 2 { pid := 7, startTime := 100 }] ++ steps 2 10 ++ steps 0 3 ++
      -- The check of the second start cannot read the record.
      steps 1 3 ++ [.run 1 { ok := false }] ++ steps 1 4)
    (boot plainEnv (served [startDemo true, startDemo true]))
    (fun s => repliedOk s 0 && s.world.alive 2 && servingTest s.world 2 &&
      (s.world.owner 2).any fun o => (s.world.metadata o.name).any fun d =>
        d.status = .running && o.generation = some d.generation &&
          (s.world.files.fifo o.name).any fun fifo => (s.world.files.readers fifo).isEmpty)
    (fun _ _ _ _ h => of_decide_eq_true h) (by decide +kernel)
  simp only [Bool.and_eq_true] at hs
  obtain ⟨⟨⟨hreply, halive⟩, hserving⟩, hrecord⟩ := hs
  obtain ⟨o, ho⟩ := serving_of_test hserving
  obtain ⟨o', ho', hrecord⟩ := (Option.any_eq_true _ _).mp hrecord
  obtain ⟨d, hd, htest⟩ := (Option.any_eq_true _ _).mp hrecord
  rw [ho.1] at ho'
  cases ho'
  simp only [Bool.and_eq_true, decide_eq_true_eq] at htest
  obtain ⟨⟨hstatus, hgeneration⟩, hpath⟩ := htest
  obtain ⟨fifo, hfifo, hempty⟩ := (Option.any_eq_true _ _).mp hpath
  rw [List.isEmpty_iff] at hempty
  refine ⟨s, o, d, hreach, hreply, halive, ho, hd, hstatus, hgeneration, ?_, ?_⟩
  · rintro ⟨fifo', hfifo', j, hmem, -⟩
    rw [hfifo] at hfifo'
    cases hfifo'
    rw [hempty] at hmem
    cases hmem
  · simp [World.perform, performFile, hfifo, World.hasReader, hempty]

end IgnibyteBridge
