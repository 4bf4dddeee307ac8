import IgnibyteBridge.Session.Orphans

/-!
# Exclusive ownership

The check that a name is not in use looks at Running records only, so it must not
be separated from the initial save by a promotion. Then at most one owner serves
a session, and its run is the one that was initialized last.
-/

namespace IgnibyteBridge

open Concurrency World

namespace World

/-- A start that is yet to save its initial record can read the record on disk. -/
def StartReads (w : World) (i : ℕ) (a : Act) (c : Choice) : Prop :=
  ∀ n ∈ a.loads, w.startLock n = some i → i ∉ w.inits n → c.ok = true

/-- No run is promoted while a start of its session is between its check that the
name is not in use and its initial save. -/
def PromotesOutside (w : World) (a : Act) : Prop :=
  ∀ x ∈ a.saves, x.1 = .promote → ∀ k ∈ w.startLock x.2.name, w.alive k = true →
    w.loadedAt k ≠ none → k ∈ w.inits x.2.name

/-- Untangled runs of own adoptions, stops that saw the child, start times of live
children that can be read, and promotions outside the windows of starts. -/
structure Orderly (w : World) (i : ℕ) (a : Act) (c : Choice) : Prop where
  adopting : w.Adopting i a c
  seen : w.SeenChild a
  recognises : w.Recognises a c
  reads : w.StartReads i a c
  outside : w.PromotesOutside a

instance (w : World) (i : ℕ) (a : Act) (c : Choice) : Decidable (w.StartReads i a c) :=
  inferInstanceAs (Decidable (∀ n ∈ a.loads, _))

instance (w : World) (a : Act) : Decidable (w.PromotesOutside a) :=
  inferInstanceAs (Decidable (∀ x ∈ a.saves, _ → ∀ k ∈ w.startLock x.2.name, _))

/-- A start that is yet to save its initial record found every run that is served. -/
def Finds (w : World) (_ : ℕ) (g : Knowledge) : Prop :=
  ∀ st loaded, g.start = some st → st.held = true → st.initialized = none →
    st.window = some loaded → ∀ k o, w.Serving k o → o.name = st.name →
      ∃ d, loaded = some d ∧ d.status = .running ∧ d.childPid = o.child

/-- A run that is served has its record on disk, and no start overlooks it. -/
structure Exclusive (w : World) (γ : ℕ → Knowledge) : Prop where
  latest : ∀ k o, w.Serving k o → ∃ d, w.metadata o.name = some d ∧ d.origin = o.start
  finds : Threads Finds w γ

variable {w w' : World} {γ : ℕ → Knowledge} {i : ℕ} {a : Act} {c : Choice} {r : a.Response}

/-- Under the condition of the schedule, a save replaces the record of its own run. -/
theorem Adopting.replacesOwn (hok : w.Adopting i a c)
    (hexcluded : Excluded w γ) (hregistered : Registered w γ) (htruthful : Truthful w γ)
    (howned : Owned w γ) (hi : w.alive i = true) (hpre : Knowledge.pre a (γ i)) :
    ReplacesOwn w i (γ i) a where
  disk x hx c hsite hlocked := by
    obtain rfl := eq_of_saves hx
    rcases hpre with ⟨hinitial, -⟩ | ⟨c', hlocked', hreplace⟩
    · exact absurd hinitial hsite
    · rw [hlocked] at hlocked'
      simp only [Option.some.injEq, Prod.mk.injEq] at hlocked'
      obtain ⟨-, rfl⟩ := hlocked'
      exact hok.1.1.disk hexcluded hi hsite hlocked hreplace.keeps.1
  own x _ c o hlocked hreplace ho :=
    howned.save_origin hregistered hi (htruthful.threads i hi) ho hlocked hreplace

/-- A start that found its name free is under no run that is served. -/
theorem Finds.not_serving {g : Knowledge} (hB : Buries w i g) (hfinds : Finds w i g)
    {n : String} (hreset : g.MayReset n) {k : ℕ} {o : Ownership} (hserving : w.Serving k o) :
    o.name ≠ n := by
  intro hn
  obtain ⟨st, loaded, hst, hheld, hname, hwindow, hinit, hcleared⟩ := hreset
  obtain ⟨d, hloaded, hrunning, hchild⟩ :=
    hfinds st loaded hst hheld hinit hwindow k o hserving (hn.trans hname.symm)
  obtain ⟨ho, -, p, t, hp, hlive⟩ := hserving
  exact (hB p (hcleared d hloaded hrunning p (hchild.trans hp))).not_live ho hp hlive

/-- An initial record is saved by a start that found its name free. -/
theorem mayReset_of_mayInitialize {g : Knowledge} {m : SessionMetadata}
    (h : g.MayInitialize m) : g.MayReset m.name := by
  obtain ⟨st, loaded, hst, hheld, hname, hwindow, -, hinit, hcleared, -⟩ := h
  exact ⟨st, loaded, hst, hheld, hname, hwindow, hinit, hcleared⟩

/-- The record of a run that is served stays on disk. -/
theorem Exclusive.latest_act (hJ : Exclusive w γ) (hserves : Serves w γ) (hsound : w.Sound)
    (htruthful : Truthful w γ) (hB : Buries w i (γ i)) (hi : w.alive i = true)
    (hown : ReplacesOwn w i (γ i) a) (hpre : Knowledge.pre a (γ i))
    (h : perform i a c w = some (r, w')) (k : ℕ) (o : Ownership) (hserving : w'.Serving k o) :
    ∃ d, w'.metadata o.name = some d ∧ d.origin = o.start := by
  rcases records_cases h with ⟨hsave, hmetadata, -⟩ | ⟨site, m, rfl, -, rfl⟩
  · rw [hmetadata]
    rcases hserves.toRecorded.serving_cases hsound htruthful hi hpre h hserving with
      ⟨o₀, hserving₀, hname, hstart, -⟩ | ⟨-, m, o₀, hmem, -⟩
    · rw [← hname, ← hstart]
      exact hJ.latest k o₀ hserving₀
    · obtain rfl := eq_of_saves hmem
      have hfailed := hsave _ rfl
      rcases performDisk_save h with ⟨u, rfl, -⟩ | ⟨e, -, rfl⟩
      · simp [perform, performDisk, hfailed] at h
      · exact hJ.latest k o hserving
  · rcases id hpre with ⟨rfl, -, hinit⟩ | ⟨c', hlocked, hreplace⟩
    · rcases hserves.toRecorded.serving_cases hsound htruthful hi hpre h hserving with
        ⟨o₀, hserving₀, hname, hstart, -⟩ | ⟨-, m', o₀, hmem', -⟩
      · have hne := (hJ.finds i hi).not_serving hB (mayReset_of_mayInitialize hinit) hserving₀
        obtain ⟨d, hd, horigin⟩ := hJ.latest k o₀ hserving₀
        rw [hname] at hne hd
        exact ⟨d, (Function.update_of_ne hne ..).trans hd, horigin.trans hstart⟩
      · cases hmem'
    · obtain ⟨hname', hsite, -, horigin'⟩ := hreplace.keeps
      have hdisk := hown.disk _ rfl c' hsite hlocked
      have hm : (w.save i site m).metadata m.name = some m := by
        simp only [World.save, Function.update_self, Option.some.injEq]
        cases site
        case initial => exact absurd rfl hsite
        all_goals rfl
      rcases hserves.toRecorded.serving_cases hsound htruthful hi hpre h hserving with
        ⟨o₀, hserving₀, hname, hstart, -⟩ | ⟨-, m', o₀, hmem', ho₀, hname, hstart, -⟩
      · obtain ⟨d, hd, horigin⟩ := hJ.latest k o₀ hserving₀
        by_cases hn : o.name = m.name
        · rw [hname, hn, hname', hdisk] at hd
          cases hd
          exact ⟨m, hn ▸ hm, horigin'.trans (horigin.trans hstart)⟩
        · rw [hname] at hd
          exact ⟨d, (Function.update_of_ne hn ..).trans hd, horigin.trans hstart⟩
      · cases hmem'
        obtain ⟨hn, ho⟩ := hown.own _ rfl c' o₀ hlocked hreplace ho₀
        have hn' : m.name = o.name := hname'.trans (hn.trans hname)
        exact ⟨m, hn' ▸ hm, horigin'.trans (ho.trans hstart)⟩

/-- A start that has yet to save its initial record makes its check with this load, or
has made it before. -/
theorem load_window {n : String} {loaded x : Option SessionMetadata}
    (hexcluded : Excluded w γ) (hregistered : Registered w γ) (hi : w.alive i = true)
    (hpre : Knowledge.pre (.disk (.loadMetadata n)) (γ i)) {st' : StartGhost}
    (hst' : ((γ i).load loaded).start = some st') (hheld : st'.held = true)
    (hinit : st'.initialized = none) (hwindow : st'.window = some x) :
    ∃ st, (γ i).start = some st ∧ st'.name = st.name ∧ st.held = true ∧ st.initialized = none ∧
      ((st.name = n ∧ w.startLock n = some i ∧ i ∉ w.inits n ∧ x = loaded) ∨
        st.window = some x) := by
  obtain ⟨st, hst, rfl⟩ := Option.map_eq_some_iff.mp hst'
  have hagrees := st.agrees_load loaded
  have hheld₀ : st.held = true := by
    unfold StartGhost.load at hheld
    split at hheld
    · exact hheld
    · split at hheld <;> exact hheld
  have hinit₀ : st.initialized = none := hagrees.initialized ▸ hinit
  refine ⟨st, hst, hagrees.name, hheld₀, hinit₀, ?_⟩
  by_cases hopen : st.window = none
  · left
    have hn : st.name = n := hpre.2 st hst (.inl hopen)
    refine ⟨hn, hn ▸ (hexcluded.threads i hi).start st hst hheld₀, ?_, ?_⟩
    · rw [hregistered.inits, hst]
      rintro ⟨st', hst', -, hinit'⟩
      cases hst'
      exact hinit' hinit₀
    · rw [StartGhost.load, if_pos hopen] at hwindow
      exact (Option.some.inj hwindow).symm
  · right
    rw [← hwindow]
    unfold StartGhost.load
    rw [if_neg hopen]
    split <;> rfl

/-- A load that succeeds returns the record on disk. -/
theorem toOption_of_load {n : String} {c : Choice} {r : Except String SessionMetadata}
    (h : performDisk i (.loadMetadata n) c w = some (r, w')) (hok : c.ok = true)
    {d : SessionMetadata} (hd : w.metadata n = some d) : r.toOption = some d := by
  obtain ⟨-, ⟨hmissing, -⟩ | ⟨m, hm, rfl | ⟨hfailed, -⟩⟩⟩ := performDisk_load h
  · cases hmissing.symm.trans hd
  · cases hm.symm.trans hd
    rfl
  · cases hok.symm.trans hfailed

/-- A load in a start's window finds the runs that are served. -/
theorem finds_load {n : String} {c : Choice} {r : Except String SessionMetadata}
    (hJ : Exclusive w γ) (hserves : Serves w γ) (hexcluded : Excluded w γ)
    (hregistered : Registered w γ) (hi : w.alive i = true)
    (hok : w.StartReads i (.disk (.loadMetadata n)) c)
    (hpre : Knowledge.pre (.disk (.loadMetadata n)) (γ i))
    (h : performDisk i (.loadMetadata n) c w = some (r, w')) :
    Finds w' i ((γ i).load r.toOption) := by
  intro st' loaded hst' hheld hinit hwindow k o hserving hname
  obtain ⟨rfl, -⟩ := performDisk_load h
  replace hserving : w.Serving k o := hserving
  obtain ⟨st, hst, hname', hheld₀, hinit₀, ⟨hn, hlock, hnotYet, hloaded⟩ | hwindow₀⟩ :=
    load_window hexcluded hregistered hi hpre hst' hheld hinit hwindow
  · -- The check of the start reads the record that is on disk.
    obtain ⟨d, hd, horigin⟩ := hJ.latest k o hserving
    have hread := toOption_of_load h (hok n rfl hlock hnotYet) (hn ▸ hname' ▸ hname ▸ hd)
    exact ⟨d, hloaded.trans hread, hserves.running k o d hserving hd horigin⟩
  · exact hJ.finds i hi st loaded hst hheld₀ hinit₀ hwindow₀ k o hserving (hname.trans hname')

/-- Every action of an orderly run keeps exclusive ownership. -/
theorem Exclusive.act (env : Env) (hJ : Exclusive w γ) (hserves : Serves w γ)
    (hexcluded : Excluded w γ) (hregistered : Registered w γ) (htruthful : Truthful w γ)
    (hB : Threads Buries w γ) (hlineage : Lineage w γ) (hi : w.alive i = true)
    (hok : w.Orderly i a c) (hown : ReplacesOwn w i (γ i) a) (hpre : Knowledge.pre a (γ i))
    (h : perform i a c w = some (r, w')) :
    Exclusive w' (ghosts (bridge env) Knowledge.protocol Knowledge.fresh γ i a r) where
  latest := hJ.latest_act hserves hexcluded.sound htruthful (hB i hi) hi hown hpre h
  finds := by
    obtain ⟨-, -, -, hreads, houtside⟩ := hok
    have hcases := fun {k o} =>
      hserves.toRecorded.serving_cases (k := k) (o := o) hexcluded.sound htruthful hi hpre h
    refine threads_act env hexcluded.sound hi h hJ.finds (fun hT => ?_) (fun j hj halive hT => ?_)
      fun k p _ st loaded hst => ?_
    · cases hload : a.loads with
      | some n =>
        obtain rfl := eq_of_loads hload
        exact finds_load hJ hserves hexcluded hregistered hi hreads hpre h
      | none =>
        intro st' loaded hst' hheld hinit hwindow k o hserving hname
        rcases post_start_unread hload hst' with ⟨-, hnone, -⟩ |
          ⟨st, hst, hname', hheld', hinit', hwindow', -⟩
        · rw [hnone] at hwindow
          cases hwindow
        · rcases hcases hserving with ⟨o₀, hserving₀, hn, -, hchild⟩ | ⟨-, m, o₀, -, ho₀, -⟩
          · rw [← hchild]
            exact hT st loaded hst (hheld' hheld) (hinit' hinit) (hwindow'.symm.trans hwindow) k o₀
              hserving₀ (hn.trans (hname.trans hname'))
          · -- A thread that starts a session promotes none.
            obtain ⟨og, hog, -⟩ := (htruthful.threads i hi).ghost_of_owner ho₀
            rw [hregistered.apart i (by rw [hst]; simp)] at hog
            cases hog
    · intro st loaded hst hheld hinit hwindow k o hserving hname
      rcases hcases hserving with ⟨o₀, hserving₀, hn, -, hchild⟩ | ⟨-, m, o₀, hmem, ho₀, hn, -⟩
      · rw [← hchild]
        exact hT st loaded hst hheld hinit hwindow k o₀ hserving₀ (hn.trans hname)
      · -- The run is promoted outside the window of this start.
        obtain rfl := eq_of_saves hmem
        have hname' : m.name = st.name := by
          rcases hpre with ⟨hsite, -⟩ | ⟨c', hlocked, hreplace⟩
          · cases hsite
          · exact hreplace.keeps.1.trans ((hown.own _ rfl c' o₀ hlocked hreplace ho₀).1.trans
              (hn.trans hname))
        have hlock : w.startLock m.name = some j := by
          rw [hname']
          exact (hexcluded.threads j halive).start st hst hheld
        have hloaded := (hlineage.counts j halive st hst).1 (by rw [hwindow]; simp)
        have hmem := houtside _ rfl rfl j hlock halive hloaded
        rw [hregistered.inits, hst] at hmem
        obtain ⟨st', hst', -, hsome⟩ := hmem
        cases hst'
        exact absurd hinit hsome
    · rw [fresh_start] at hst
      cases hst

/-- What happens outside the bridge gives no session a second owner. -/
theorem Exclusive.disturb {e : Disturbance} (hJ : Exclusive w γ) (htruthful : Truthful w γ)
    (h : w.disturb e = some w') : Exclusive w' γ where
  latest k o hserving := by
    rw [(disturb_sameDisk h).1.metadata]
    exact hJ.latest k o (hserving.disturb htruthful h)
  finds := threads_disturb h hJ.finds fun _ _ hT st loaded hst hheld hinit hwindow k o hserving =>
    hT st loaded hst hheld hinit hwindow k o (hserving.disturb htruthful h)

/-- Before the first action no session has an owner. -/
theorem exclusive_fresh (requests : ℕ → Option Request) :
    Exclusive (World.fresh requests) fun _ => {} where
  latest k o hserving := by cases hserving.1
  finds k _ st loaded hst := by cases hst

/-- What holds in every state of an orderly run. -/
structure Ordered (w : World) (γ : ℕ → Knowledge) : Prop where
  truthful : Truthful w γ
  buries : Threads Buries w γ
  lineage : Lineage w γ
  owned : Owned w γ
  serves : Serves w γ
  exclusive : Exclusive w γ

/-- One action of any thread keeps the order of the generations. -/
theorem Ordered.act (env : Env) (hJ : Ordered w γ) (hexcluded : Excluded w γ)
    (hregistered : Registered w γ) (hi : w.alive i = true) (hok : w.Orderly i a c)
    (hpre : Knowledge.pre a (γ i)) (h : perform i a c w = some (r, w')) :
    Ordered w' (ghosts (bridge env) Knowledge.protocol Knowledge.fresh γ i a r) := by
  have hlineage' := hJ.lineage.act env hexcluded hregistered hi hok.adopting.1 hpre h
  have hown := hok.adopting.replacesOwn hexcluded hregistered hJ.truthful hJ.owned hi hpre
  exact ⟨hJ.truthful.act hexcluded.sound hi hpre h,
    buries_act hJ.buries hJ.truthful hexcluded.sound hi hok.recognises h, hlineage',
    hJ.owned.act env hexcluded hregistered hJ.truthful hJ.lineage hlineage' hi hok.adopting.2 hpre h,
    hJ.serves.act env hexcluded.sound hregistered hJ.truthful hJ.buries hi hown hok.seen hpre h,
    hJ.exclusive.act env hJ.serves hexcluded hregistered hJ.truthful hJ.buries hJ.lineage hi hok hown
      hpre h⟩

/-- What happens outside the bridge keeps the order of the generations. -/
theorem Ordered.disturb {e : Disturbance} (hJ : Ordered w γ) (h : w.disturb e = some w') :
    Ordered w' γ :=
  ⟨hJ.truthful.disturb h, buries_disturb hJ.buries h, hJ.lineage.disturb h, hJ.owned.disturb h,
    hJ.serves.disturb hJ.truthful h, hJ.exclusive.disturb hJ.truthful h⟩

/-- Before the first action there is nothing to order. -/
theorem ordered_fresh (requests : ℕ → Option Request) :
    Ordered (World.fresh requests) fun _ => {} :=
  ⟨truthful_fresh requests, buries_fresh requests, lineage_fresh requests, owned_fresh requests,
    serves_fresh requests, exclusive_fresh requests⟩

end World

/-- **Exclusive ownership.** In an orderly run at most one owner of a session is
past its promotion with a live child. Its run is the one initialized last, and no
start is replacing the session's files. -/
theorem exclusive_ownership (env : Env) (requests : ℕ → Option Request)
    {s : Config Act Act.Response ThreadResult World}
    (hreach : (bridge env).Reaches Orderly (boot env requests) s) {k : ℕ} {o : Ownership}
    (hserving : s.world.Serving k o) :
    (∀ k' o', s.world.Serving k' o' → o'.name = o.name → k' = k) ∧
    (s.world.inits o.name).getLast? = some o.start ∧
    ∀ i a, s.world.alive i = true → (s.thread i).head = some a → a.resets ≠ some o.name := by
  obtain ⟨γ, ⟨hexcluded, hregistered, hJ⟩, hfollows⟩ := registered_of_reaches
    (fun hexcluded hregistered hJ hi hok hpre hperform =>
      hJ.act env hexcluded hregistered hi hok hpre hperform)
    (fun hJ hdisturb => hJ.disturb hdisturb) (ordered_fresh requests) hreach
  obtain ⟨d, hd, horigin⟩ := hJ.exclusive.latest k o hserving
  refine ⟨fun k' o' hserving' hname => ?_, ?_, fun i a hi hhead hresets => ?_⟩
  · obtain ⟨d', hd', horigin'⟩ := hJ.exclusive.latest k' o' hserving'
    rw [hname, hd] at hd'
    cases hd'
    exact hregistered.unique k' k o' o hserving'.1 hserving.1 (horigin'.symm.trans horigin)
  · rw [← horigin]
    exact (hJ.lineage.latest o.name d hd).2
  · have hreset := Knowledge.mayReset_of_resets ((hfollows i).pre_head hhead) hresets
    exact (hJ.exclusive.finds i hi).not_serving (hJ.buries i hi) hreset hserving rfl

/-- `Orderly` where every start time can be read, as a test. -/
def orderlyTest (w : World) (i : ℕ) (a : Act) (c : Choice) : Bool :=
  decide (w.Adopting i a c) && decide (w.SeenChild a) && legible a c &&
    decide (w.StartReads i a c) && decide (w.PromotesOutside a)

/-- The test decides the condition on one step. -/
theorem orderly_of_test (w : World) (i : ℕ) (a : Act) (c : Choice)
    (h : orderlyTest w i a c = true) : w.Orderly i a c := by
  simp only [orderlyTest, Bool.and_eq_true, decide_eq_true_eq] at h
  obtain ⟨⟨⟨⟨hadopting, hseen⟩, hlegible⟩, hreads⟩, houtside⟩ := h
  exact ⟨hadopting, hseen, recognises_of_legible hlegible, hreads, houtside⟩

/-- A daemon's session by thread 0 that reaches Running, is read by a stop, thread 2,
and ends with its child. -/
def endedDemo : List (Move Choice Disturbance) :=
  steps 0 13 ++ [.run 0 { thread := 3 }] ++ steps 3 2 ++
    [.run 3 { pid := 7, startTime := 100 }] ++ steps 3 12 ++
    [.run 3 { thread := 4 }, .run 3 { thread := 5 }] ++ steps 0 3 ++ steps 2 1 ++
    [.disturb (.processDies 7), .run 3 { error := "exited", code := 3 }] ++ steps 3 1 ++
    [.loop 5] ++ steps 5 4 ++ steps 3 3 ++ steps 4 2 ++ [.loop 4] ++ steps 4 2 ++ steps 3 6

/-- A daemon's session ends, a direct one of the same name reaches Running, and a stop
that had read the first one's record leaves it alone. -/
theorem exclusive_ownership_restarted :
    ∃ (s : Config Act Act.Response ThreadResult World) (o o' : Ownership), s.world.Serving 6 o ∧
      s.world.owner 3 = some o' ∧ o'.name = o.name ∧ repliedOk s 2 = true ∧
      (∀ k' o', s.world.Serving k' o' → o'.name = o.name → k' = 6) ∧
      (s.world.inits o.name).getLast? = some o.start ∧
      ∀ i a, s.world.alive i = true → (s.thread i).head = some a → a.resets ≠ some o.name := by
  obtain ⟨s, hreach, hs⟩ := System.exists_reaches_of_exec (bridge plainEnv) orderlyTest
    (endedDemo ++ steps 1 15 ++ [.run 1 { thread := 6, pid := 50, startTime := 1 }] ++ steps 6 8 ++
      [.run 6 { pid := 60, startTime := 2 }] ++ steps 6 10 ++ steps 2 6)
    (boot plainEnv (served [startDemo true, startDemo false, stopDemo]))
    (fun s => servingTest s.world 6 && repliedOk s 2 &&
      (s.world.owner 6).any fun o => (s.world.owner 3).any fun o' => o'.name = o.name)
    orderly_of_test (by decide +kernel)
  simp only [Bool.and_eq_true] at hs
  obtain ⟨⟨hserving, hreply⟩, hname⟩ := hs
  obtain ⟨o, ho⟩ := serving_of_test hserving
  obtain ⟨o₁, ho₁, hname⟩ := (Option.any_eq_true _ _).mp hname
  obtain ⟨o', ho', hname⟩ := (Option.any_eq_true _ _).mp hname
  rw [ho.1] at ho₁
  cases ho₁
  exact ⟨s, o, o', ho, ho', of_decide_eq_true hname, hreply, exclusive_ownership plainEnv _ hreach ho⟩

/-- A starting client is killed after its supervisor recorded the child. Another
start finds the record Starting, the supervisor promotes its run, and the second
start initializes and runs the session under it: two supervisors serve it. -/
theorem two_runs_served :
    ∃ (s : Config Act Act.Response ThreadResult World) (o o' : Ownership),
      (bridge plainEnv).Reaches (fun _ _ _ _ => True)
        (boot plainEnv (served [startDemo false, startDemo false])) s ∧
      s.world.Serving 2 o ∧ s.world.Serving 3 o' ∧ o.name = o'.name := by
  obtain ⟨s, hreach, hs⟩ := System.exists_reaches_of_exec (bridge plainEnv) System.unrestricted
    (steps 0 14 ++ [.run 0 { thread := 2, pid := 50, startTime := 1 }] ++ steps 2 8 ++
      [.run 2 { pid := 60, startTime := 2 }] ++ steps 2 6 ++ [.disturb (.clientKilled 0)] ++
      -- The check of the second start falls before the promotion, its initial save after it.
      steps 1 4 ++ steps 2 4 ++ steps 1 11 ++
      [.run 1 { thread := 3, pid := 51, startTime := 3 }] ++ steps 3 8 ++
      [.run 3 { pid := 61, startTime := 4 }] ++ steps 3 10)
    (boot plainEnv (served [startDemo false, startDemo false]))
    (fun s => servingTest s.world 2 && servingTest s.world 3 &&
      (s.world.owner 2).any fun o => (s.world.owner 3).any fun o' => o.name = o'.name)
    (fun _ _ _ _ _ => trivial) (by decide +kernel)
  simp only [Bool.and_eq_true] at hs
  obtain ⟨⟨hfirst, hsecond⟩, hname⟩ := hs
  obtain ⟨o, ho⟩ := serving_of_test hfirst
  obtain ⟨o', ho'⟩ := serving_of_test hsecond
  obtain ⟨o₁, ho₁, hname⟩ := (Option.any_eq_true _ _).mp hname
  obtain ⟨o₂, ho₂, hname⟩ := (Option.any_eq_true _ _).mp hname
  rw [ho.1] at ho₁
  rw [ho'.1] at ho₂
  cases ho₁
  cases ho₂
  exact ⟨s, o, o', hreach, ho, ho', of_decide_eq_true hname⟩

end IgnibyteBridge
