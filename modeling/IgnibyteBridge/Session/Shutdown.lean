import IgnibyteBridge.Session.Attendance
import IgnibyteBridge.Session.Orphans

/-!
# Shutdown

A shutdown lists the session directories once and stops what it listed, while the
daemon goes on serving requests. It is complete for every session that no start takes
behind its back and that is stopped by who has seen the child of its run; a start that
is in flight when the shutdown comes is stopped with the rest.
-/

namespace IgnibyteBridge

open Concurrency World

namespace World

variable {n : String} {w w' : World} {i : ℕ} {a : Act} {c : Choice} {r : a.Response}

/-! ## What a handler can rely on -/

/-- Once a handler has looked at a session, no initial record of it is saved. -/
theorem Closes.noInitialSave (hok : w.Closes n i a c) {k : ℕ} (hscan : k ∈ w.scans)
    (hseen : n ∉ w.unseen k) : NoInitialSave n w i a c :=
  fun x hx hinitial hc hname => hseen (hok.starts x hx hinitial hname hc k hscan)

/-- Without an initial save a record keeps its generation. -/
theorem Closes.generation {γ : ℕ → Knowledge} (hok : w.Closes n i a c)
    (hnone : NoInitialSave n w i a c) (hexcluded : Excluded w γ) (hi : w.alive i = true)
    (hpre : Knowledge.pre a (γ i)) (h : perform i a c w = some (r, w')) {d : SessionMetadata}
    (hd : w.metadata n = some d) :
    ∃ d', w'.metadata n = some d' ∧ d'.generation = d.generation := by
  rcases records_cases h with ⟨-, hmetadata, -⟩ | ⟨site, m, rfl, hc, rfl⟩
  · exact ⟨d, by rw [hmetadata, hd], rfl⟩
  · by_cases hnm : n = m.name
    · subst hnm
      rcases hpre with ⟨hsite, -⟩ | ⟨c', hlocked, hreplace⟩
      · exact absurd rfl (hnone _ rfl hsite hc)
      · -- The copy that is replaced is the record on disk.
        obtain ⟨hname, hsite, hgeneration, -⟩ := hreplace.keeps
        have hfresh := hok.fresh fun x hx => by cases hx; rfl
        have hdisk := hfresh.disk hexcluded hi hsite hlocked hname
        rw [← hname, hd] at hdisk
        cases hdisk
        exact ⟨_, Function.update_self .., by cases site <;> exact hgeneration⟩
    · exact ⟨d, (Function.update_of_ne hnm ..).trans hd, rfl⟩

/-- Without an initial save a session without a record gets none, and a Stopped record
stays Stopped. -/
theorem Quiet.act {γ : ℕ → Knowledge} (hquiet : w.Quiet n) (hnone : NoInitialSave n w i a c)
    (hexcluded : Excluded w γ) (hi : w.alive i = true) (hpre : Knowledge.pre a (γ i))
    (h : perform i a c w = some (r, w')) : w'.Quiet n := by
  cases hd : w.metadata n with
  | some d =>
    have hsettled : w.Settled n d := ⟨d, hd, hquiet d hd, rfl, rfl, rfl⟩
    obtain ⟨d', hd', hstopped, -⟩ := hsettled.act hexcluded hi hnone hpre h
    intro d'' hd''
    cases hd'.symm.trans hd''
    exact hstopped
  | none =>
    intro d' hd'
    rcases records_cases h with ⟨-, hmetadata, -⟩ | ⟨site, m, rfl, hc, rfl⟩
    · rw [hmetadata, hd] at hd'
      cases hd'
    · cases savedRecord hpre hd' with
      | other before hother => cases hd.symm.trans before
      | initial hsite init origin name => exact absurd name.symm (hnone _ rfl hsite hc)
      | replaced c' record hlater locked replace name =>
        subst name
        exact absurd hd ((hexcluded.threads i hi).copy _ _ locked).2.isSome

/-! ## What threads know -/

/-- The shutdown's account holds on when the session it has stopped is quiet. -/
theorem Attends.settle {k : ℕ} {g : Closing} (h : Attends n w k g) {m : String}
    (hm : g.listed ≠ none → m = n → n ∉ w.unseen k ∧ w.Quiet n) : Attends n w k (g.settle m) where
  ensured := h.ensured
  detached := h.detached
  scanned := h.scanned
  entries := h.entries
  known := h.known
  settled hlisted hmem := by
    rcases List.mem_cons.mp hmem with hn | hmem
    · exact hm hlisted hn.symm
    · exact h.settled hlisted hmem

/-- The shutdown's account holds on when it learns of a session that is on the disk. -/
theorem Attends.learn {k : ℕ} {g : Closing} (h : Attends n w k g) {m : SessionMetadata}
    (hm : g.listed ≠ none → m.name = n →
      n ∉ w.unseen k ∧ ∃ d, w.metadata n = some d ∧ d.generation = m.generation) :
    Attends n w k (g.learn m) where
  ensured := h.ensured
  detached := h.detached
  scanned := h.scanned
  entries := h.entries
  known hlisted m' hm' := by
    rcases List.mem_cons.mp hm' with rfl | hm'
    · exact hm hlisted
    · exact h.known hlisted m' hm'
  settled := h.settled

/-- What a thread knows stays true, whoever acts, unless it lists the sessions anew. -/
theorem Attends.act {γ : ℕ → Knowledge} {k : ℕ} {g : Closing} (hT : Attends n w k g)
    (hk : w.alive k = true) (hlist : k ≠ i ∨ a ≠ .disk .readSessions) (hok : w.Closes n i a c)
    (hexcluded : Excluded w γ) (hi : w.alive i = true) (hpre : Knowledge.pre a (γ i))
    (h : perform i a c w = some (r, w')) : Attends n w' k g where
  ensured m hm := perform_directories h (hT.ensured m hm)
  detached hdetached hlife := by
    rcases perform_life_born h (alive_ne_unborn hk) with hsame | hgone
    · exact hT.detached hdetached (hsame.symm.trans hlife)
    · rw [hgone] at hlife
      cases hlife
  scanned hlisted := perform_scans h (hT.scanned hlisted)
  entries entries hentries := by
    obtain ⟨hinits, hunseen⟩ := hT.entries entries hentries
    refine ⟨fun hn => ?_, fun m hm => hunseen m (perform_unseen h hlist hm)⟩
    rcases initialized_cases h hn with hold | ⟨hc, x, hx, hinitial, hname⟩
    · exact hinits hold
    · -- The new initial record is one that the handler has yet to look at.
      have hscan := hT.scanned (by simp [hentries])
      exact hunseen n (hok.starts x hx hinitial hname hc k hscan)
  known hlisted m hm hname := by
    obtain ⟨hseen, d, hd, hgeneration⟩ := hT.known hlisted m hm hname
    have hnone := hok.noInitialSave (hT.scanned hlisted) hseen
    obtain ⟨d', hd', hgeneration'⟩ := hok.generation hnone hexcluded hi hpre h hd
    exact ⟨fun hmem => hseen (perform_unseen h hlist hmem), d', hd', hgeneration'.trans hgeneration⟩
  settled hlisted hmem := by
    obtain ⟨hseen, hquiet⟩ := hT.settled hlisted hmem
    have hnone := hok.noInitialSave (hT.scanned hlisted) hseen
    exact ⟨fun hmem => hseen (perform_unseen h hlist hmem), hquiet.act hnone hexcluded hi hpre h⟩

/-- A listing has the directory of every session that was started. -/
theorem Attends.list {γ : ℕ → Closing} (hJ : Attended n w γ) (hi : w.alive i = true)
    {entries : List String} (h : performDisk i .readSessions c w = some (.ok entries, w')) :
    Attends n w' i (Closing.post (.disk .readSessions) (γ i) (.ok entries)) := by
  have hT := hJ.threads i hi
  simp only [performDisk] at h
  split at h <;> cases h
  refine ⟨hT.ensured, hT.detached, fun _ => List.mem_cons_self, fun entries hentries => ?_,
    fun _ m hm => (by cases hm), fun _ hn => by cases hn⟩
  cases hentries
  refine ⟨fun hn => (hJ.inits n hn).2, fun m hm => ?_⟩
  replace hm : m ∈ Function.update w.unseen i w.directories i := hm
  rwa [Function.update_self] at hm

/-- A handler that loads the record of a session has looked at it. -/
theorem Attends.load {γ : ℕ → Knowledge} {g : Closing} {name : String}
    {r : Except String SessionMetadata} (hT : Attends n w i g) (hT' : Attends n w' i g)
    (hok : w.Closes n i (.disk (.loadMetadata name)) c) (hexcluded : Excluded w γ)
    (h : performDisk i (.loadMetadata name) c w = some (r, w')) :
    Attends n w' i (g.load name r) := by
  have hseen := load_unseen h
  obtain ⟨rfl, hr⟩ := performDisk_load h
  cases r with
  | error e =>
    -- The load does not fail, so there is no record.
    refine hT'.settle fun hlisted hname => ?_
    subst hname
    refine ⟨hseen, fun d hd => ?_⟩
    replace hd : w.metadata name = some d := hd
    rcases hr with ⟨hnone, -⟩ | ⟨m, -, hm | ⟨hfailed, -⟩⟩
    · cases hnone.symm.trans hd
    · cases hm
    · rw [(hok.succeeds (hT.scanned hlisted)).1] at hfailed
      cases hfailed
  | ok m =>
    have hm : w.metadata name = some m := by
      rcases hr with ⟨-, e, he⟩ | ⟨m', hm', he | ⟨-, e, he⟩⟩ <;> cases he
      exact hm'
    have hname : m.name = name := hexcluded.filed.name name m hm
    have hlearned : Attends n (w.loaded i name) i (g.learn m) := by
      refine hT'.learn fun _ hn => ?_
      obtain rfl := hname.symm.trans hn
      exact ⟨hseen, m, hm, rfl⟩
    simp only [Closing.load]
    split
    · next hcase =>
      refine hlearned.settle fun hlisted hn => ?_
      subst hn
      refine ⟨hseen, fun d hd => ?_⟩
      cases hm.symm.trans hd
      rcases hcase with hstopped | hrestarted
      · exact hstopped
      · -- The generation of a record that the handler has looked at did not change.
        obtain ⟨m', hm', htest⟩ := List.any_eq_true.mp hrestarted
        simp only [Bool.decide_and, Bool.and_eq_true, decide_eq_true_eq] at htest
        obtain ⟨-, d, hd, hgeneration⟩ := hT.known hlisted m' hm' (htest.1.trans hname)
        cases hm.symm.trans hd
        exact absurd hgeneration.symm htest.2
    · exact hlearned

/-- The thread that acted knows what is true afterwards. -/
theorem Attends.post {γ : ℕ → Knowledge} {γ' : ℕ → Closing} (hJ : Attended n w γ')
    (hok : w.Closes n i a c) (hexcluded : Excluded w γ) (hi : w.alive i = true)
    (hpre : Knowledge.pre a (γ i)) (hpre' : Closing.pre a (γ' i)) (hfact : Closing.fact a (γ' i) r)
    (h : perform i a c w = some (r, w')) : Attends n w' i (Closing.post a (γ' i) r) := by
  have hT := hJ.threads i hi
  by_cases hlist : a = .disk .readSessions
  · subst hlist
    obtain ⟨entries, rfl⟩ := hfact
    exact Attends.list hJ hi h
  · have hkeep := hT.act hi (.inr hlist) hok hexcluded hi hpre h
    cases a with
    | file a => exact hkeep
    | process a => exact hkeep
    | disk a =>
      cases a
      case loadMetadata name => exact hT.load hkeep hok hexcluded h
      case ensureBridgeDir name =>
        cases r with
        | error e => exact hkeep
        | ok u =>
          refine ⟨fun m hm => ?_, hkeep.detached, hkeep.scanned, hkeep.entries, hkeep.known,
            hkeep.settled⟩
          rcases List.mem_cons.mp hm with rfl | hm
          · simp only [perform, performDisk] at h
            split at h <;> cases h
            exact List.mem_insert_self
          · exact hkeep.ensured m hm
      case saveMetadata site m =>
        cases r with
        | error e => cases site <;> exact hkeep
        | ok u =>
          cases site
          case stopped by_ =>
            refine hkeep.settle fun hlisted hname => ?_
            obtain ⟨m', hm', hsame⟩ := hpre' hlisted
            refine ⟨(hkeep.known hlisted m' hm' (hsame.trans hname)).1, fun d hd => ?_⟩
            subst hname
            rcases performDisk_save h with ⟨-, -, rfl⟩ | ⟨e, he, -⟩
            · -- The record on disk is the one that was marked.
              obtain ⟨c', -, -, -, es, ec, rfl⟩ := hpre.resolve_left fun hfirst => by cases hfirst.1
              replace hd : Function.update w.metadata _ _ _ = some d := hd
              rw [Function.update_self] at hd
              cases hd
              rfl
            · cases he
          all_goals exact hkeep
      case readSessions => exact absurd rfl hlist
      all_goals exact hkeep

/-- After a listing the calls of its thread succeed. -/
theorem Attends.fact {γ : ℕ → Knowledge} {g : Closing} (hT : Attends n w i g)
    (hok : w.Closes n i a c) (hexcluded : Excluded w γ) (h : perform i a c w = some (r, w')) :
    Closing.fact a g r := by
  unfold Closing.fact
  split
  · simp only [perform, performDisk, hok.lists rfl] at h
    cases h
    exact ⟨_, rfl⟩
  · intro hlisted
    have hflock := (hok.succeeds (hT.scanned hlisted)).2
    simp only [perform, performDisk, hflock] at h
    split at h <;> cases h <;> rfl
  · intro m hm
    subst hm
    obtain ⟨-, ⟨-, e, he⟩ | ⟨m', hm', he | ⟨-, e, he⟩⟩⟩ := performDisk_load h <;> cases he
    exact hexcluded.filed.name _ _ hm'
  · intro hlisted
    simp only [perform, performDisk, (hok.succeeds (hT.scanned hlisted)).1] at h
    cases h
    rfl
  · intro hlisted
    simp only [perform, performProcess, (hok.succeeds (hT.scanned hlisted)).1] at h
    cases h
    rfl
  · trivial

/-- A thread that knows nothing knows nothing false. -/
theorem attends_nothing (n : String) (w : World) (k : ℕ) : Attends n w k {} :=
  ⟨fun m hm => (by cases hm), fun hd => (by cases hd), fun hl => absurd rfl hl,
    fun entries he => (by cases he), fun hl => absurd rfl hl, fun hl => absurd rfl hl⟩

/-- A supervisor's thread is not the daemon's. -/
theorem attends_fresh {k : ℕ} {g : Closing} {env : Env} {p : Prog ThreadResult}
    (h : perform i a c w = some (r, w')) (hlaunched : launched env a r = some (k, p)) :
    Attends n w' k (Closing.fresh a g r) := by
  have hempty := attends_nothing n w' k
  unfold Closing.fresh
  split
  · next name cwd cmd =>
    refine ⟨hempty.ensured, fun _ hlife => ?_, hempty.scanned, hempty.entries, hempty.known,
      hempty.settled⟩
    simp only [perform, performProcess] at h
    split at h
    · split at h <;> cases h
      cases hlaunched
      replace hlife : w.spawnThread c.thread (.supervisor c.pid) c.thread = .live .daemon := hlife
      rw [spawnThread, Function.update_self] at hlife
      cases hlife
    · cases h
      cases hlaunched
  · exact hempty

/-- One action of any thread keeps the shutdown's account of the session. -/
theorem Attended.act (env : Env) {γ : ℕ → Closing} (hJ : Attended n w γ) (hok : w.Closes n i a c)
    (hlicensed : w.Protocolled i a) (hi : w.alive i = true) (hpre : Closing.pre a (γ i))
    (h : perform i a c w = some (r, w')) :
    Closing.fact a (γ i) r ∧
      Attended n w' (ghosts (bridge env) Closing.discipline Closing.fresh γ i a r) := by
  obtain ⟨γ', ⟨hexcluded, -, htruthful, hburies⟩, hpre'⟩ := hlicensed
  have hfact := (hJ.threads i hi).fact hok hexcluded h
  refine ⟨hfact, fun m k hlock => hJ.locks_act hi hpre h hlock,
    fun m hm => hJ.inits_act hexcluded hi hpre' h hm,
    fun k hk => hJ.accounted_act hexcluded.sound htruthful hi hpre' h hk,
    hJ.ended_act hok hexcluded htruthful hburies hi hpre' h, ?_⟩
  exact threads_step env hexcluded.sound hi h hJ.threads
    (fun _ => Attends.post hJ hok hexcluded hi hpre' hpre hfact h)
    (fun k hki hk hT => hT.act hk (.inl hki) hok hexcluded hi hpre' h)
    fun k p hlaunched => attends_fresh h hlaunched

/-- A disturbance leaves the daemon alone and starts no process. -/
theorem disturb_hosts {e : Disturbance} (h : w.disturb e = some w') :
    w'.scans = w.scans ∧ w'.unseen = w.unseen ∧ w'.accounted = w.accounted ∧
      w'.daemonUp = w.daemonUp ∧ (∀ k, w'.life k = .live .daemon → w.life k = .live .daemon) ∧
      ∀ p t, w'.process p = .live t → w.process p = .live t := by
  cases e with
  | clientKilled i =>
    simp only [disturb] at h
    split at h <;> cases h
    refine ⟨rfl, rfl, rfl, rfl, fun k hk => ?_, fun _ _ => id⟩
    replace hk : Function.update w.life i .gone k = .live .daemon := hk
    by_cases hki : k = i
    · subst hki
      rw [Function.update_self] at hk
      cases hk
    · rwa [Function.update_of_ne hki] at hk
  | processDies pid =>
    cases h
    refine ⟨rfl, rfl, rfl, rfl, fun _ => id, fun p t hp => ?_⟩
    rcases kill_cases w pid p with hsame | hdead
    · exact hsame.symm.trans hp
    · rw [show w.kill pid p = .live t from hp] at hdead
      cases hdead
  | print pty bytes =>
    cases h
    exact ⟨rfl, rfl, rfl, rfl, fun _ => id, fun _ _ => id⟩
  | discard fifo =>
    obtain ⟨-, rfl⟩ := disturb_discard h
    exact ⟨rfl, rfl, rfl, rfl, fun _ => id, fun _ _ => id⟩

/-- What happens outside the bridge changes no such account. -/
theorem Attended.disturb {γ : ℕ → Closing} {e : Disturbance} (hJ : Attended n w γ)
    (h : w.disturb e = some w') : Attended n w' γ := by
  obtain ⟨hdisk, howner⟩ := disturb_sameDisk h
  obtain ⟨hscans, hunseen, haccounted, hup, hlife, hprocess⟩ := disturb_hosts h
  constructor
  · rw [hdisk.startLock, hdisk.directories]
    exact hJ.locks
  · rw [hdisk.inits, hdisk.directories]
    exact hJ.inits
  · rw [haccounted, howner]
    exact hJ.accounted
  · rw [hdisk.metadata, haccounted]
    rintro d hd hstopped k o ⟨hup', hlife', ho⟩ hname hk ⟨p, t, hp, hlive⟩
    exact hJ.ended d hd hstopped k o ⟨hup ▸ hup', hlife k hlife', howner ▸ ho⟩ hname hk
      ⟨p, t, hp, hprocess p t hlive⟩
  · refine threads_disturb h hJ.threads fun k _ hT => ⟨?_, ?_, ?_, ?_, ?_, ?_⟩
    · rw [hdisk.directories]
      exact hT.ensured
    · exact fun hd hl => hT.detached hd (hlife k hl)
    · rw [hscans]
      exact hT.scanned
    · rw [hdisk.inits, hunseen]
      exact hT.entries
    · rw [hdisk.metadata, hunseen]
      exact hT.known
    · unfold Quiet
      rw [hdisk.metadata, hunseen]
      exact hT.settled

/-- Before the first action there is no shutdown to account for. -/
theorem attended_fresh (n : String) (requests : ℕ → Option Request) :
    Attended n (World.fresh requests) fun _ => {} where
  locks m k hlock := by cases hlock
  inits m hm := absurd rfl hm
  accounted k hk := by cases hk
  ended d hd := by cases hd
  threads k _ := attends_nothing n _ k

/-- Every action of a run that recognises live children is one that the session
protocol allows. -/
theorem protocolled {env : Env} {requests : ℕ → Option Request}
    {ok : World → ℕ → Act → Choice → Prop} {s : Config Act Act.Response ThreadResult World}
    (hok : ∀ w i a c, ok w i a c → w.Recognises a c)
    (h : (bridge env).Reaches ok (boot env requests) s) :
    (bridge env).Reaches (fun w i a c => ok w i a c ∧ w.Protocolled i a) (boot env requests) s :=
  h.licensed fun _ ht => registered_of_reaches
    (X := fun w γ => Truthful w γ ∧ Threads Buries w γ)
    (fun hexcluded _ hJ hi hstep hpre hperform =>
      ⟨hJ.1.act hexcluded.sound hi hpre hperform,
        buries_act hJ.2 hJ.1 hexcluded.sound hi (hok _ _ _ _ hstep) hperform⟩)
    (fun hJ hdisturb => ⟨hJ.1.disturb hdisturb, buries_disturb hJ.2 hdisturb⟩)
    ⟨truthful_fresh requests, buries_fresh requests⟩ ht

end World

/-- **Shutdown is complete.** In a run whose steps, the exit included, go behind no
shutdown's back in session `n`, a handler that exits leaves no run of that session that
a thread of the daemon owns: its record is Stopped and its child is gone. -/
theorem shutdown_complete (env : Env) (requests : ℕ → Option Request) {n : String}
    {s : Config Act Act.Response ThreadResult World} {i k : ℕ} {o : Ownership} {c : Choice}
    (hreach : (bridge env).Reaches (Closes n) (boot env requests) s)
    (hup : s.world.daemonUp = true) (hi : s.world.life i = .live .daemon)
    (hhead : (s.thread i).head = some (.process .processExit))
    (hexit : s.world.Closes n i (.process .processExit) c)
    (hk : s.world.life k = .live .daemon) (ho : s.world.owner k = some o) (hname : o.name = n) :
    (∃ d, s.world.metadata n = some d ∧ d.status = .stopped) ∧ ¬s.world.ChildAlive o := by
  subst hname
  have hclosing := protocolled (fun _ _ _ _ hok => hok.recognises) hreach
  obtain ⟨γ, hJ, hfollows⟩ := System.Reaches.outline (Closing.covers env)
    ⟨fun hJ halive hok hpre hperform => hJ.act env hok.1 hok.2 halive hpre hperform,
      fun hJ hdisturb => hJ.disturb hdisturb⟩
    hclosing ⟨_, attended_fresh o.name requests, Closing.follows_boot env requests⟩
  obtain ⟨γ', ⟨hexcluded, hregistered, -⟩, -⟩ := registered_of_reaches (X := fun _ _ => True)
    (fun _ _ _ _ _ _ _ => trivial) (fun _ _ => trivial) trivial hreach
  have halive : s.world.alive i = true := by
    simp only [World.alive, hi]
    exact hup
  have hT := hJ.threads i halive
  have hinits := hregistered.initialized ho
  rcases (hfollows i).pre_head hhead with hdetached | ⟨entries, hentries, hcovers⟩
  · exact absurd hi (hT.detached hdetached)
  · have hlisted : (γ i).listed ≠ none := by simp [hentries]
    have hmem := (hT.entries entries hentries).1 hinits
    have hsettled := hcovers o.name hmem (hJ.inits o.name hinits).1
    obtain ⟨-, hquiet⟩ := hT.settled hlisted hsettled
    obtain ⟨d, hd⟩ := Option.ne_none_iff_exists'.mp (mt (hexcluded.filed.inits o.name).mp hinits)
    have hhosts : s.world.Hosts k o := ⟨hup, hk, ho⟩
    refine ⟨⟨d, hd, hquiet d hd⟩, fun hlive => ?_⟩
    have hchild : o.child ≠ none := by
      obtain ⟨p, t, hp, -⟩ := hlive
      simp [hp]
    have haccounted := hexit.exits rfl (by simp only [hostOf, hi]) k o hhosts rfl hchild
    exact hJ.ended d hd (hquiet d hd) k o hhosts rfl haccounted hlive

/-- A shutdown of the daemon. -/
def shutdownRequest : Request := ⟨true, .shutdown⟩

/-- Whether a thread is about to exit its process. -/
def exits (s : Config Act Act.Response ThreadResult World) (i : ℕ) : Bool :=
  match (s.thread i).head with
  | some (.process .processExit) => true
  | _ => false

/-- The thread that is about to exit has the exit as its next action. -/
theorem head_of_exits {s : Config Act Act.Response ThreadResult World} {i : ℕ}
    (h : exits s i = true) : (s.thread i).head = some (.process .processExit) := by
  unfold exits at h
  split at h
  · next hhead => exact hhead
  · cases h

/-- A thread that owns a run from its start on was spawned to own it. -/
theorem spawns_of_owner {w w' : World} {i : ℕ} {a : Act} {c : Choice} {r : a.Response}
    (hsound : w.Sound) (hi : w.alive i = true) (h : perform i a c w = some (r, w')) {k : ℕ}
    {o' : Ownership} (hk : w.life k = .unborn) (ho : w'.owner k = some o') :
    a.spawns = some o'.name := by
  have hnone := hsound.unborn k hk
  have hki : k ≠ i := by
    rintro rfl
    exact alive_ne_unborn hi hk
  have hunchanged : ∀ {x : Option Ownership}, w'.owner = Function.update w.owner i x → False := by
    intro x howner
    rw [howner, Function.update_of_ne hki, hnone] at ho
    cases ho
  cases ownerMove h with
  | same owner =>
    rw [owner, hnone] at ho
    cases ho
  | adopt m save owner => exact (hunchanged owner).elim
  | promote m save owner => exact (hunchanged owner).elim
  | child p spawned owner => exact (hunchanged owner).elim
  | spawn j o child promoted owner unborn spawns =>
    rw [owner] at ho
    by_cases hkj : k = j
    · subst hkj
      rw [Function.update_self] at ho
      cases ho
      exact spawns
    · rw [Function.update_of_ne hkj, hnone] at ho
      cases ho

/-- Thread `k` is the only owner there is. -/
structure Solo (k : ℕ) (w : World) : Prop where
  sound : w.Sound
  owner : ∀ j, j ≠ k → w.owner j = none

/-- While one thread alone may be spawned into, no other is born. -/
theorem Solo.act {k i : ℕ} {w w' : World} {a : Act} {c : Choice} {r : a.Response} (hJ : Solo k w)
    (hi : w.alive i = true) (hspawns : a.spawns = none ∨ c.thread = k)
    (h : perform i a c w = some (r, w')) : Solo k w' where
  sound := perform_sound hJ.sound h
  owner j hj := by
    by_contra howner
    obtain ⟨o, ho⟩ := Option.ne_none_iff_exists'.mp howner
    by_cases hborn : w.life j = .unborn
    · have hs := spawns_of_owner hJ.sound hi h hborn ho
      have hthread : j ≠ c.thread := by
        rw [hspawns.resolve_left (by simp [hs])]
        exact hj
      unfold Act.spawns at hs
      split at hs <;> cases hs
      all_goals
        simp only [perform, performProcess] at h
        (try split at h) <;> (try split at h) <;> cases h <;>
          first
          | exact howner ((Function.update_of_ne hthread ..).trans (hJ.owner j hj))
          | exact howner (hJ.owner j hj)
    · obtain ⟨o₀, ho₀, -⟩ := (ownerMove h).back hborn ho
      rw [hJ.owner j hj] at ho₀
      cases ho₀

instance (i : ℕ) (site : Site) (k : ℕ) (o : Ownership) : Decidable (AccountsFor i site k o) :=
  inferInstanceAs (Decidable (_ ∨ ∃ y ∈ site.snapshot, _))

/-- What `Closes` asks of a save and of an exit where thread `k` is the only owner. -/
def ownerTest (n : String) (k : ℕ) (w : World) (i : ℕ) : Act → Bool
  | .disk (.saveMetadata .initial _) => w.scans.all fun j => n ∈ w.unseen j
  | .disk (.saveMetadata (.stopped by_) _) =>
    (w.owner k).all fun o => k ∉ w.accounted || AccountsFor i (.stopped by_) k o
  | .process .processExit => (w.owner k).all fun o => o.child = none || k ∈ w.accounted
  | _ => true

/-- A test for `Closes` where thread `k` is the only owner. -/
def closesTest (n : String) (k : ℕ) (w : World) (i : ℕ) (a : Act) (c : Choice) : Bool :=
  c.ok && c.flock = .held && (a.spawns = none || c.thread = k) && w.FreshSave i a &&
    legible a c && ownerTest n k w i a

/-- In a solo world the test decides the condition on one step. -/
theorem closes_of_test {n : String} {k i : ℕ} {w : World} {a : Act} {c : Choice} (hsolo : Solo k w)
    (h : closesTest n k w i a c = true) : w.Closes n i a c := by
  simp only [closesTest, Bool.and_eq_true, decide_eq_true_eq] at h
  obtain ⟨⟨⟨⟨⟨hok, hflock⟩, -⟩, hfresh⟩, hlegible⟩, howner⟩ := h
  have hk : ∀ {j o}, w.Hosts j o → j = k ∧ w.owner k = some o := by
    intro j o hhosts
    by_cases hjk : j = k
    · exact ⟨hjk, hjk ▸ hhosts.2.2⟩
    · exact absurd ((hsolo.owner j hjk).symm.trans hhosts.2.2) nofun
  refine ⟨fun _ => hok, fun x hx hinitial _ _ j hj => ?_, fun _ => hfresh, fun _ => ⟨hok, hflock⟩,
    fun x hx by_ hstopped _ j o hhosts _ haccounted _ => ?_, recognises_of_legible hlegible,
    fun ha _ j o hhosts _ hchild => ?_⟩
  · obtain ⟨site, m⟩ := x
    obtain rfl := eq_of_saves hx
    obtain rfl : site = .initial := hinitial
    exact of_decide_eq_true (List.all_eq_true.mp howner j hj)
  · obtain ⟨site, m⟩ := x
    obtain rfl := eq_of_saves hx
    obtain rfl : site = .stopped by_ := hstopped
    obtain ⟨rfl, ho⟩ := hk hhosts
    have htest := (Option.all_eq_true _ _).mp howner o ho
    simp only [Bool.or_eq_true, decide_eq_true_eq] at htest
    exact htest.resolve_left (not_not_intro haccounted)
  · subst ha
    obtain ⟨rfl, ho⟩ := hk hhosts
    have htest := (Option.all_eq_true _ _).mp howner o ho
    simp only [Bool.or_eq_true, decide_eq_true_eq] at htest
    exact htest.resolve_left hchild

/-- A run whose steps pass the test stays in solo worlds. -/
theorem solo_of_reaches {env : Env} {requests : ℕ → Option Request} {n : String} {k : ℕ}
    {s : Config Act Act.Response ThreadResult World}
    (h : (bridge env).Reaches (fun w i a c => closesTest n k w i a c = true)
      (boot env requests) s) : Solo k s.world := by
  refine System.Reaches.stable (I := Solo k) h (fun hJ hi htest hperform => ?_)
    (fun hJ hdisturb => ⟨disturb_sound hJ.sound hdisturb, ?_⟩)
    ⟨(excluded_fresh requests).sound, fun _ _ => rfl⟩
  · simp only [closesTest, Bool.and_eq_true, Bool.or_eq_true, decide_eq_true_eq] at htest
    exact hJ.act hi htest.1.1.1.2 hperform
  · rw [(disturb_sameDisk hdisturb).2]
    exact hJ.owner

/-- A start has made the directory of its session when the shutdown lists the sessions.
Then it saves its record and reaches Running, and the shutdown stops it with the rest. -/
theorem shutdown_complete_inflight :
    ∃ (s : Config Act Act.Response ThreadResult World) (o : Ownership),
      s.world.life 2 = .live .daemon ∧ s.world.owner 2 = some o ∧ o.promoted = true ∧
      (∃ d, s.world.metadata "demo" = some d ∧ d.status = .stopped) ∧ ¬s.world.ChildAlive o := by
  obtain ⟨s, hreach, hs⟩ := System.exists_reaches_of_exec (bridge plainEnv) (closesTest "demo" 2)
    (steps 0 12 ++ steps 1 2 ++ steps 0 1 ++ [.run 0 { thread := 2 }] ++ steps 2 2 ++
      [.run 2 { pid := 7, startTime := 100 }] ++ steps 2 10 ++ steps 1 9)
    (boot plainEnv (served [startDemo true, shutdownRequest]))
    (fun s => s.world.daemonUp && s.world.life 1 = .live .daemon && exits s 1 &&
      s.world.life 2 = .live .daemon &&
      ((s.world.owner 2).any fun o => o.promoted && o.name = "demo") &&
      closesTest "demo" 2 s.world 1 (.process .processExit) {})
    (fun _ _ _ _ h => h) (by decide +kernel)
  simp only [Bool.and_eq_true] at hs
  obtain ⟨⟨⟨⟨⟨hup, hlife⟩, hexits⟩, hlife'⟩, howner⟩, hexit⟩ := hs
  obtain ⟨o, ho, htest⟩ := (Option.any_eq_true _ _).mp howner
  obtain ⟨hpromoted, hname⟩ := (Bool.and_eq_true _ _).mp htest
  have hcloses := hreach.strengthen fun t i a c ht _ htest =>
    closes_of_test (solo_of_reaches ht) htest
  exact ⟨s, o, of_decide_eq_true hlife', ho, hpromoted, shutdown_complete plainEnv _ hcloses hup
    (of_decide_eq_true hlife) (head_of_exits hexits)
    (closes_of_test (solo_of_reaches hreach) hexit) (of_decide_eq_true hlife') ho
    (of_decide_eq_true hname)⟩

/-- A shutdown lists the sessions, then the daemon starts one and reports it as
running, and then the shutdown exits. -/
theorem shutdown_misses_start :
    ∃ (s : Config Act Act.Response ThreadResult World) (o : Ownership) (d : SessionMetadata),
      (bridge plainEnv).Reaches (fun _ _ _ _ => True)
        (boot plainEnv (served [startDemo true, shutdownRequest])) s ∧
      s.world.daemonUp = true ∧ s.world.life 1 = .live .daemon ∧
      (s.thread 1).head = some (.process .processExit) ∧
      s.world.life 2 = .live .daemon ∧ s.world.owner 2 = some o ∧
      s.world.metadata o.name = some d ∧ d.status = .running ∧ s.world.ChildAlive o ∧
      repliedOk s 0 = true := by
  obtain ⟨s, hreach, hs⟩ := System.exists_reaches_of_exec (bridge plainEnv) System.unrestricted
    (steps 1 2 ++ steps 0 13 ++ [.run 0 { thread := 2 }] ++ steps 2 2 ++
      [.run 2 { pid := 7, startTime := 100 }] ++ steps 2 10 ++ steps 0 3)
    (boot plainEnv (served [startDemo true, shutdownRequest]))
    (fun s => s.world.daemonUp && s.world.life 1 = .live .daemon && exits s 1 &&
      s.world.life 2 = .live .daemon && servingTest s.world 2 &&
      ((s.world.owner 2).any fun o => (s.world.metadata o.name).any fun d => d.status = .running) &&
      repliedOk s 0)
    (fun _ _ _ _ _ => trivial) (by decide +kernel)
  simp only [Bool.and_eq_true] at hs
  obtain ⟨⟨⟨⟨⟨⟨hup, hlife⟩, hexits⟩, hlife'⟩, hserving⟩, hrecord⟩, hreply⟩ := hs
  obtain ⟨o, ho, -, hchild⟩ := serving_of_test hserving
  obtain ⟨o', ho', htest⟩ := (Option.any_eq_true _ _).mp hrecord
  obtain ⟨d, hd, hrunning⟩ := (Option.any_eq_true _ _).mp htest
  rw [ho] at ho'
  cases ho'
  exact ⟨s, o, d, hreach, hup, of_decide_eq_true hlife, head_of_exits hexits,
    of_decide_eq_true hlife', ho, hd, of_decide_eq_true hrunning, hchild, hreply⟩

end IgnibyteBridge
