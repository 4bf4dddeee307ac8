import IgnibyteBridge.Session.Serving

/-!
# Orphaned children

A stop, or a start that times out, decides which processes to signal on a record
that it read without `status.lock`, and marks the run Stopped later. The owner
can record its child and promote the run in between; then the child survives a
Stopped record.
-/

namespace IgnibyteBridge

open Concurrency World

namespace World

/-- Each session is started by one call only. -/
def OneStart (first : String → ℕ) (i : ℕ) (a : Act) : Prop := ∀ n ∈ a.startLocks, i = first n

/-- Each session is started once, who marks its Running record Stopped has seen its
child, and the start times of live children can be read. -/
def SeenStop (first : String → ℕ) (w : World) (i : ℕ) (a : Act) (c : Choice) : Prop :=
  OneStart first i a ∧ w.SeenChild a ∧ w.Recognises a c

instance (first : String → ℕ) (i : ℕ) (a : Act) : Decidable (OneStart first i a) :=
  inferInstanceAs (Decidable (∀ n ∈ a.startLocks, _))

/-- Every record is of the one run of its session. -/
structure Single (first : String → ℕ) (w : World) (γ : ℕ → Knowledge) : Prop where
  start : ∀ k st, (γ k).start = some st → k = first st.name
  origin : ∀ n m, w.metadata n = some m → m.origin = first n
  copy : Threads (fun _ _ g => ∀ n c, g.locked = some (n, some c) → c.origin = first n) w γ

variable {first : String → ℕ} {w w' : World} {γ : ℕ → Knowledge} {i : ℕ}
  {a : Act} {c : Choice} {r : a.Response}

/-- A session that is started once has one initial record at most. -/
theorem Single.inits_length (hJ : Single first w γ) (hregistered : Registered w γ) (n : String) :
    (w.inits n).length ≤ 1 := by
  have hmem : ∀ j ∈ w.inits n, j = first n := by
    intro j hj
    obtain ⟨st, hst, hname, -⟩ := (hregistered.inits n j).mp hj
    rw [← hname]
    exact hJ.start j st hst
  have hnodup := hregistered.nodup n
  match hinits : w.inits n with
  | [] => simp
  | [j] => simp
  | j :: j' :: rest =>
    rw [hinits] at hmem hnodup
    have hj := hmem j (by simp)
    have hj' := hmem j' (by simp)
    simp [hj, hj'] at hnodup

/-- With one start, whoever replaces a record replaces the one on disk. -/
theorem Single.replacesOwn (hJ : Single first w γ) (hexcluded : Excluded w γ)
    (hregistered : Registered w γ) (htruthful : Truthful w γ) (hi : w.alive i = true) :
    ReplacesOwn w i (γ i) a where
  disk x _ c _ hlocked := by
    have hpending := ((hexcluded.threads i hi).copy _ _ hlocked).2
    obtain ⟨k, hk, hpos, hle, -⟩ := id hpending
    have hlength := hJ.inits_length hregistered c.name
    exact hpending.fresh (by rw [hk]; congr 1; omega)
  own x _ c o hlocked hreplace ho := by
    have hname := owner_name hregistered (htruthful.threads i hi) ho hreplace
    obtain ⟨st, hst, hst', -⟩ := hregistered.owner i o ho
    refine ⟨hname, ?_⟩
    rw [hJ.copy i hi _ c hlocked, hJ.start o.start st hst, hst', hname]

/-- One action of any thread keeps the first start of a session its only one. -/
theorem Single.act (env : Env) (hJ : Single first w γ) (hexcluded : Excluded w γ)
    (hregistered : Registered w γ) (hi : w.alive i = true) (hok : OneStart first i a)
    (hpre : Knowledge.pre a (γ i)) (h : perform i a c w = some (r, w')) :
    Single first w' (ghosts (bridge env) Knowledge.protocol Knowledge.fresh γ i a r) where
  start k st hst := by
    by_cases hk : k = i
    · subst hk
      rw [ghosts_self env γ hi h] at hst
      cases hload : a.loads with
      | some n =>
        obtain rfl := eq_of_loads hload
        obtain ⟨st₀, hst₀, hname, -⟩ := start_load_keeps hst
        rw [hname]
        exact hJ.start k st₀ hst₀
      | none =>
        rcases post_start_unread hload hst with ⟨hlock, -⟩ | ⟨st₀, hst₀, hname, -⟩
        · exact hok _ hlock
        · rw [hname]
          exact hJ.start k st₀ hst₀
    · rw [hregistered.ghosts_start h hk] at hst
      exact hJ.start k st hst
  origin n m hm := by
    rcases records_cases h with ⟨-, hmetadata, -⟩ | ⟨site, m', rfl, -, rfl⟩
    · exact hJ.origin n m (hmetadata ▸ hm)
    · cases savedRecord hpre hm with
      | other before _ => exact hJ.origin n m before
      | initial _ init origin name =>
        obtain ⟨st, x, hst, -, hname, -⟩ := init
        rw [origin, name, ← hname]
        exact hJ.start i st hst
      | replaced c' record _ locked replace name =>
        subst record name
        rw [replace.keeps.2.2.2]
        exact hJ.copy i hi _ c' locked
  copy := by
    refine threads_act env hexcluded.sound hi h hJ.copy (fun hT n m hlocked => ?_)
      (fun k _ _ hT => hT) fun k p _ n m hlocked => ?_
    · cases hload : a.loads with
      | some n' =>
        obtain rfl := eq_of_loads hload
        obtain ⟨-, hr⟩ := performDisk_load h
        obtain ⟨⟨n₀, x⟩, hx, heq⟩ := Option.map_eq_some_iff.mp hlocked
        obtain ⟨rfl, -⟩ := hpre.1 n₀ x hx
        rcases hr with ⟨-, e, rfl⟩ | ⟨m', hm', rfl | ⟨-, e, rfl⟩⟩ <;> cases heq
        exact hJ.origin _ _ hm'
      | none => exact hT n m (post_locked hload hlocked)
    · unfold Knowledge.fresh at hlocked
      split at hlocked <;> cases hlocked

/-- What happens outside the bridge keeps the first start of a session its only one. -/
theorem Single.disturb {e : Disturbance} (hJ : Single first w γ) (h : w.disturb e = some w') :
    Single first w' γ where
  start := hJ.start
  origin n m hm := hJ.origin n m ((disturb_sameDisk h).1.metadata ▸ hm)
  copy := threads_disturb h hJ.copy fun _ _ hT => hT

/-- Before the first action there was no start. -/
theorem single_fresh (first : String → ℕ) (requests : ℕ → Option Request) :
    Single first (World.fresh requests) fun _ => {} where
  start k st hst := by cases hst
  origin n m hm := by cases hm
  copy k _ n c h := by cases h

end World

/-- **No child survives a Stopped record.** When each session is started once, every
stop or timeout that marks a Running record Stopped has seen the child it names and
signalled it without an error, and the start time of a live child can be read
whenever it is asked for, the record of a run that is past its promotion with a
live child is Running and names that child. -/
theorem serving_record_running (env : Env) (requests : ℕ → Option Request) (first : String → ℕ)
    {s : Config Act Act.Response ThreadResult World} {k : ℕ} {o : Ownership} {d : SessionMetadata}
    (hreach : (bridge env).Reaches (SeenStop first) (boot env requests) s)
    (hserving : s.world.Serving k o) (hd : s.world.metadata o.name = some d) :
    d.status = .running ∧ d.childPid = o.child := by
  obtain ⟨γ, ⟨-, hregistered, -, -, hsingle, hserves⟩, -⟩ := registered_of_reaches
    (X := fun w γ => Truthful w γ ∧ Threads Buries w γ ∧ Single first w γ ∧ Serves w γ)
    (fun {w γ i a c r w'} hexcluded hregistered hJ hi hok hpre hperform => by
      obtain ⟨htruthful, hburies, hsingle, hserves⟩ := hJ
      have hown := hsingle.replacesOwn (a := a) hexcluded hregistered htruthful hi
      exact ⟨htruthful.act hexcluded.sound hi hpre hperform,
        buries_act hburies htruthful hexcluded.sound hi hok.2.2 hperform,
        hsingle.act env hexcluded hregistered hi hok.1 hpre hperform,
        hserves.act env hexcluded.sound hregistered htruthful hburies hi hown hok.2.1 hpre hperform⟩)
    (fun hJ hdisturb => ⟨hJ.1.disturb hdisturb, buries_disturb hJ.2.1 hdisturb,
      hJ.2.2.1.disturb hdisturb, hJ.2.2.2.disturb hJ.1 hdisturb⟩)
    ⟨truthful_fresh requests, buries_fresh requests, single_fresh first requests,
      serves_fresh requests⟩ hreach
  obtain ⟨st, hst, hname, -⟩ := hregistered.owner k o hserving.1
  refine hserves.running k o d hserving hd ?_
  rw [hsingle.origin o.name d hd, ← hname, hsingle.start o.start st hst]

/-- Whether a thread serves its run, as a test. -/
def servingTest (w : World) (k : ℕ) : Bool :=
  (w.owner k).any fun o => o.promoted && o.child.any w.processAlive

/-- The test finds a run that serves. -/
theorem serving_of_test {w : World} {k : ℕ} (h : servingTest w k = true) :
    ∃ o, w.Serving k o := by
  obtain ⟨o, ho, htest⟩ := (Option.any_eq_true _ _).mp h
  obtain ⟨hpromoted, hchild⟩ := (Bool.and_eq_true _ _).mp htest
  obtain ⟨p, hp, halive⟩ := (Option.any_eq_true _ _).mp hchild
  refine ⟨o, ho, hpromoted, p, ?_⟩
  unfold processAlive at halive
  split at halive
  · next t hlive => exact ⟨t, hp, hlive⟩
  · cases halive

/-- An action that asks for no start time, or can read it. -/
def legible (a : Act) (c : Choice) : Bool := a.inspects.all fun _ => c.ok

/-- An action whose choice leaves the token legible recognises its process. -/
theorem recognises_of_legible {w : World} {a : Act} {c : Choice} (h : legible a c = true) :
    w.Recognises a c := fun p hp => .inl ((Option.all_eq_true _ _).mp h p hp)

/-- Whether a thread replied without an error. -/
def repliedOk (s : Config Act Act.Response ThreadResult World) (i : ℕ) : Bool :=
  match s.thread i with
  | .done (.replied (.ok _)) => true
  | _ => false

/-- A daemon's session reaches Running and is served on while a stop fails to kill its
child. Another stop succeeds, and nobody serves the run that it stopped. -/
theorem serving_record_running_stopping :
    (∃ (s : Config Act Act.Response ThreadResult World) (o : Ownership) (d : SessionMetadata),
      s.world.Serving 3 o ∧ s.world.metadata o.name = some d ∧
      d.status = .running ∧ d.childPid = o.child) ∧
    ∃ s : Config Act Act.Response ThreadResult World, repliedOk s 2 = true ∧
      (s.world.owner 3).any (·.promoted) = true ∧
      ∀ k o, o.name = "demo" → ¬s.world.Serving k o := by
  set failing : List (Move Choice Disturbance) :=
    steps 0 13 ++ [.run 0 { thread := 3 }] ++ steps 3 2 ++
      [.run 3 { pid := 7, startTime := 100 }] ++ steps 3 10 ++
      -- The first stop finds the child and may not signal it.
      steps 1 2 ++ [.run 1 { ok := false, error := "EPERM" }] ++ steps 1 2 with hfailing
  have hok : ∀ w i a c, (decide (OneStart (fun _ => 0) i a) && decide (w.SeenChild a) &&
      legible a c) = true → SeenStop (fun _ => 0) w i a c := by
    intro w i a c h
    simp only [Bool.and_eq_true, decide_eq_true_eq] at h
    exact ⟨h.1.1, h.1.2, recognises_of_legible h.2⟩
  constructor
  · obtain ⟨s, hreach, hs⟩ := System.exists_reaches_of_exec (bridge plainEnv) _ failing
      (boot plainEnv (served [startDemo true, stopDemo, stopDemo]))
      (fun s => servingTest s.world 3 && !repliedOk s 1 &&
        (s.world.owner 3).any fun o => (s.world.metadata o.name).isSome)
      hok (by rw [hfailing]; decide +kernel)
    simp only [Bool.and_eq_true] at hs
    obtain ⟨⟨hserving, -⟩, hrecord⟩ := hs
    obtain ⟨o, ho⟩ := serving_of_test hserving
    obtain ⟨o', ho', hd⟩ := (Option.any_eq_true _ _).mp hrecord
    obtain ⟨d, hd⟩ := Option.isSome_iff_exists.mp hd
    rw [ho.1] at ho'
    cases ho'
    exact ⟨s, o, d, ho, hd, serving_record_running plainEnv _ (fun _ => 0) hreach ho hd⟩
  · obtain ⟨s, hreach, hs⟩ := System.exists_reaches_of_exec (bridge plainEnv) _
      (failing ++ steps 2 9) (boot plainEnv (served [startDemo true, stopDemo, stopDemo]))
      (fun s => repliedOk s 2 && (s.world.owner 3).any (·.promoted) &&
        (s.world.metadata "demo").any fun d => d.status = .stopped)
      hok (by rw [hfailing]; decide +kernel)
    simp only [Bool.and_eq_true] at hs
    obtain ⟨⟨hreply, hpromoted⟩, hrecord⟩ := hs
    obtain ⟨d, hd, hstopped⟩ := (Option.any_eq_true _ _).mp hrecord
    refine ⟨s, hreply, hpromoted, fun k o hname hserving => ?_⟩
    obtain ⟨hrunning, -⟩ :=
      serving_record_running plainEnv _ (fun _ => 0) hreach hserving (hname ▸ hd)
    cases hrunning.symm.trans (of_decide_eq_true hstopped)

/-- A stop reads the record before the owner has recorded its child, the owner
records it and promotes the run, and the stop marks it Stopped and succeeds. -/
theorem stop_orphans_child :
    ∃ (s : Config Act Act.Response ThreadResult World) (o : Ownership) (d : SessionMetadata),
      (bridge plainEnv).Reaches (fun _ _ _ _ => True)
        (boot plainEnv (served [startDemo true, stopDemo])) s ∧
      repliedOk s 1 = true ∧ s.world.Serving 2 o ∧
      s.world.metadata "demo" = some d ∧ d.status = .stopped ∧ d.childPid = o.child := by
  obtain ⟨s, hreach, hs⟩ := System.exists_reaches_of_exec (bridge plainEnv) System.unrestricted
    (steps 0 13 ++ [.run 0 { thread := 2 }] ++
      -- The stop finds a Starting record without processes.
      steps 1 1 ++
      steps 2 2 ++ [.run 2 { pid := 7, startTime := 100 }] ++ steps 2 10 ++
      steps 1 7)
    (boot plainEnv (served [startDemo true, stopDemo]))
    (fun s => repliedOk s 1 && servingTest s.world 2 &&
      (s.world.metadata "demo").any fun d => d.status = .stopped &&
        (s.world.owner 2).any fun o => d.childPid = o.child)
    (fun _ _ _ _ _ => trivial) (by decide +kernel)
  simp only [Bool.and_eq_true] at hs
  obtain ⟨⟨hreply, hserving⟩, hrecord⟩ := hs
  obtain ⟨o, ho⟩ := serving_of_test hserving
  obtain ⟨d, hd, htest⟩ := (Option.any_eq_true _ _).mp hrecord
  obtain ⟨hstopped, hchild⟩ := (Bool.and_eq_true _ _).mp htest
  obtain ⟨o', ho', hsame⟩ := (Option.any_eq_true _ _).mp hchild
  rw [ho.1] at ho'
  cases ho'
  exact ⟨s, o, d, hreach, hreply, ho, hd, of_decide_eq_true hstopped, of_decide_eq_true hsame⟩

end IgnibyteBridge
