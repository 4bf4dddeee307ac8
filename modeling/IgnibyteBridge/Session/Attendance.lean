import IgnibyteBridge.Session.Closing
import IgnibyteBridge.Session.Serving
import IgnibyteBridge.Session.Terminal

/-!
# What a shutdown attends to

A shutdown handler lists the session directories once and then looks at each record.
A start that saves its initial record before the handler looks at it is stopped with
the rest; one that comes later is not. The invariants here are about one session:
what the handler knows of it, and that a Stopped record leaves no live child behind
that its owner has recorded or killed.
-/

namespace IgnibyteBridge

open Concurrency World

namespace World

/-- A live thread of the daemon owns the run. -/
def Hosts (w : World) (k : ℕ) (o : Ownership) : Prop :=
  w.daemonUp = true ∧ w.life k = .live .daemon ∧ w.owner k = some o

/-- The child of an owner is alive. -/
def ChildAlive (w : World) (o : Ownership) : Prop :=
  ∃ p t, o.child = some p ∧ w.process p = .live t

/-- Who marks a run Stopped answers for the child of an owner: it is that owner, or it
decided on a record that names the child, and no signal of it failed. -/
def AccountsFor (i : ℕ) (site : Site) (k : ℕ) (o : Ownership) : Prop :=
  (site = .stopped .owner ∧ k = i) ∨ ∃ y ∈ site.snapshot, y.2 = true ∧ y.1.childPid = o.child

/-- No start of the session goes behind a shutdown's back, who marks it Stopped has
seen the child of its owner, and an exit does not overtake its owner. -/
structure Closes (n : String) (w : World) (i : ℕ) (a : Act) (c : Choice) : Prop where
  /-- A listing does not fail. -/
  lists : a = .disk .readSessions → c.ok = true
  /-- An initial record is saved before the handlers that listed the sessions look at
  this one, and not if they listed them without it. -/
  starts : ∀ x ∈ a.saves, x.1 = .initial → x.2.name = n → c.ok = true →
    ∀ j ∈ w.scans, n ∈ w.unseen j
  /-- No initial record is saved between the load and the save of another writer. -/
  fresh : (∀ x ∈ a.saves, x.2.name = n) → w.FreshSave i a
  /-- The calls of a handler itself succeed. -/
  succeeds : i ∈ w.scans → c.ok = true ∧ c.flock = .held
  /-- Who marks the session Stopped answers for the live children that the daemon's
  owners have recorded. -/
  marks : ∀ x ∈ a.saves, ∀ by_, x.1 = .stopped by_ → x.2.name = n →
    ∀ k o, w.Hosts k o → o.name = n → k ∈ w.accounted → w.ChildAlive o → AccountsFor i x.1 k o
  /-- Where an action asks for the start time of a live child, it can read it. -/
  recognises : w.Recognises a c
  /-- The daemon does not exit while an owner has spawned its child and neither recorded
  nor killed it. -/
  exits : a = .process .processExit → w.hostOf i = .daemon →
    ∀ k o, w.Hosts k o → o.name = n → o.child ≠ none → k ∈ w.accounted

/-- The record of a session, if there is one, is Stopped. -/
def Quiet (w : World) (n : String) : Prop := ∀ d, w.metadata n = some d → d.status = .stopped

/-- What a thread knows about a session of its daemon is true. -/
structure Attends (n : String) (w : World) (k : ℕ) (g : Closing) : Prop where
  ensured : ∀ m ∈ g.ensured, m ∈ w.directories
  detached : g.detached = true → w.life k ≠ .live .daemon
  scanned : g.listed ≠ none → k ∈ w.scans
  entries : ∀ entries, g.listed = some entries →
    (w.inits n ≠ [] → n ∈ entries) ∧ ∀ m ∈ w.unseen k, m ∈ entries
  known : g.listed ≠ none → ∀ m ∈ g.known, m.name = n →
    n ∉ w.unseen k ∧ ∃ d, w.metadata n = some d ∧ d.generation = m.generation
  settled : g.listed ≠ none → n ∈ g.settled → n ∉ w.unseen k ∧ w.Quiet n

/-- Sessions that are started have directories of valid names, and a Stopped record
leaves no live child that its owner has recorded or killed. -/
structure Attended (n : String) (w : World) (γ : ℕ → Closing) : Prop where
  locks : ∀ m k, w.startLock m = some k → validateSessionName m = .ok () ∧ m ∈ w.directories
  inits : ∀ m, w.inits m ≠ [] → validateSessionName m = .ok () ∧ m ∈ w.directories
  accounted : ∀ k ∈ w.accounted, ∃ o, w.owner k = some o ∧ o.child ≠ none
  ended : ∀ d, w.metadata n = some d → d.status = .stopped →
    ∀ k o, w.Hosts k o → o.name = n → k ∈ w.accounted → ¬w.ChildAlive o
  threads : Threads (Attends n) w γ

/-- The session protocol allows the action, in a state of its invariants. -/
def Protocolled (w : World) (i : ℕ) (a : Act) : Prop :=
  Licensed Knowledge.protocol
    (fun w γ => Excluded w γ ∧ Registered w γ ∧ Truthful w γ ∧ Threads Buries w γ) w i a

variable {n : String} {w w' : World} {i : ℕ} {a : Act} {c : Choice} {r : a.Response}

/-! ## Owners -/

/-- An owner's session was initialized, and has a record. -/
theorem Registered.initialized {γ : ℕ → Knowledge} (hJ : Registered w γ) {k : ℕ} {o : Ownership}
    (ho : w.owner k = some o) : w.inits o.name ≠ [] := by
  obtain ⟨st, hst, hname, hinit, -⟩ := hJ.owner k o ho
  exact List.ne_nil_of_mem ((hJ.inits o.name o.start).mpr ⟨st, hst, hname, hinit⟩)

/-- An owner with a child keeps one. -/
theorem OwnerMove.child_kept (hmove : OwnerMove w i a w') (hsound : w.Sound) {k : ℕ} {o : Ownership}
    (ho : w.owner k = some o) (hchild : o.child ≠ none) :
    ∃ o', w'.owner k = some o' ∧ o'.child ≠ none := by
  have hmap : ∀ f : Ownership → Ownership,
      w'.owner = Function.update w.owner i ((w.owner i).map f) → (f o).child ≠ none →
      ∃ o', w'.owner k = some o' ∧ o'.child ≠ none := by
    intro f howner hf
    by_cases hk : k = i
    · subst hk
      exact ⟨f o, by rw [howner, Function.update_self, ho]; rfl, hf⟩
    · exact ⟨o, by rw [howner, Function.update_of_ne hk, ho], hchild⟩
  cases hmove with
  | same owner => exact ⟨o, owner ▸ ho, hchild⟩
  | adopt m save owner => exact hmap _ owner hchild
  | promote m save owner => exact hmap _ owner hchild
  | child p spawned owner unborn born => exact hmap _ owner (by simp)
  | spawn j o' child promoted owner unborn =>
    refine ⟨o, ?_, hchild⟩
    rw [owner, Function.update_of_ne ?_, ho]
    rintro rfl
    cases (hsound.unborn k unborn).symm.trans ho

/-- An owner that has recorded its child or killed it did so before, or does so now. -/
theorem accounted_cases (h : perform i a c w = some (r, w')) {k : ℕ} (hk : k ∈ w'.accounted) :
    k ∈ w.accounted ∨ (k = i ∧ c.ok = true ∧
      ((∃ m, a = .disk (.saveMetadata .child m)) ∨ ∃ p, a = .process (.childKill p))) := by
  cases a with
  | file a =>
    obtain ⟨f, -, rfl⟩ := perform_file h
    exact .inl hk
  | disk a =>
    cases a
    case saveMetadata site m =>
      simp only [perform, performDisk] at h
      split at h
      · next hok =>
        cases h
        cases site
        case child =>
          rcases List.mem_cons.mp hk with rfl | hk
          · exact .inr ⟨rfl, hok, .inl ⟨m, rfl⟩⟩
          · exact .inl hk
        all_goals exact .inl hk
      · cases h
        exact .inl hk
    all_goals
      simp only [perform, performDisk] at h
      (try split at h) <;> (try split at h) <;> cases h <;> exact .inl hk
  | process a =>
    cases a
    case childKill p =>
      cases h
      split at hk
      · next hok =>
        rcases List.mem_cons.mp hk with rfl | hk
        · exact .inr ⟨rfl, hok, .inr ⟨p, rfl⟩⟩
        · exact .inl hk
      · exact .inl hk
    all_goals
      simp only [perform, performProcess] at h
      (try split at h) <;> (try split at h) <;> cases h <;> exact .inl hk

/-- An owner that accounts for its child has one. -/
theorem Attended.accounted_act {γ : ℕ → Closing} {γ' : ℕ → Knowledge} (hJ : Attended n w γ)
    (hsound : w.Sound) (htruthful : Truthful w γ') (hi : w.alive i = true)
    (hpre : Knowledge.pre a (γ' i)) (h : perform i a c w = some (r, w')) {k : ℕ}
    (hk : k ∈ w'.accounted) : ∃ o, w'.owner k = some o ∧ o.child ≠ none := by
  have hmine : ∀ p, (∃ og, (γ' i).owner = some og ∧ og.child = some p) →
      ∃ o, w.owner i = some o ∧ o.child ≠ none := by
    rintro p ⟨og, hog, hp⟩
    obtain ⟨o, ho, -, -, hchild⟩ := (htruthful.threads i hi).owner_of_ghost hog
    exact ⟨o, ho, by simp [hchild, hp]⟩
  obtain ⟨o, ho, hchild⟩ : ∃ o, w.owner k = some o ∧ o.child ≠ none := by
    rcases accounted_cases h hk with hold | ⟨rfl, -, ⟨m, rfl⟩ | ⟨p, rfl⟩⟩
    · exact hJ.accounted k hold
    · rcases hpre with ⟨hsite, -⟩ | ⟨c', -, og, p, t, command, hog, -, -, hp, -⟩
      · cases hsite
      · exact hmine p ⟨og, hog, hp⟩
    · exact hmine p hpre
  exact (ownerMove h).child_kept hsound ho hchild

/-- A daemon's owner with an account of its child owned its run before. -/
theorem Hosts.before {γ : ℕ → Closing} (hJ : Attended n w γ) (hsound : w.Sound)
    (hi : w.alive i = true) (h : perform i a c w = some (r, w')) {k : ℕ} {o' : Ownership}
    (hhosts : w'.Hosts k o') (hk : k ∈ w'.accounted) :
    ∃ o, w.Hosts k o ∧ o'.name = o.name ∧ (o'.child = o.child ∨
      ∃ command cwd path, k = i ∧ a = .process (.spawnCommand command cwd path)) := by
  obtain ⟨hup, hlife, ho'⟩ := hhosts
  have hborn : w.life k ≠ .unborn := by
    intro hunborn
    rcases accounted_cases h hk with hold | ⟨rfl, -⟩
    · obtain ⟨o, ho, -⟩ := hJ.accounted k hold
      cases (hsound.unborn k hunborn).symm.trans ho
    · exact alive_ne_unborn hi hunborn
  have hlive : w.life k = .live .daemon := by
    rcases perform_life_born h hborn with hsame | hgone
    · exact hsame.symm.trans hlife
    · rw [hgone] at hlife
      cases hlife
  have halive : w.alive k = true := by
    refine (perform_ages hsound h).alive k hborn ?_
    simp only [World.alive, hlife]
    exact hup
  simp only [World.alive, hlive] at halive
  by_cases hki : k = i
  · obtain ⟨o, ho, hname, -, -, hchild⟩ := (ownerMove h).back hborn ho'
    refine ⟨o, ⟨halive, hlive, ho⟩, hname, hchild.imp_right ?_⟩
    rintro ⟨command, cwd, path, ha⟩
    exact ⟨command, cwd, path, hki, ha⟩
  · rw [perform_owner_other h hki hborn] at ho'
    exact ⟨o', ⟨halive, hlive, ho'⟩, rfl, .inl rfl⟩

/-- Whoever marks a run Stopped and answers for the child of an owner knows it dead. -/
theorem AccountsFor.dead {γ : ℕ → Knowledge} {by_ : Stopper} {m : SessionMetadata} {k : ℕ}
    {o : Ownership} (haccounts : AccountsFor i (.stopped by_) k o)
    (htruthful : Truthful w γ) (hB : Threads Buries w γ) (hi : w.alive i = true)
    (hstop : (γ i).MayStop m.name m.generation by_) (ho : w.owner k = some o) :
    ¬w.ChildAlive o := by
  rintro ⟨p, t, hp, hlive⟩
  refine (hB i hi p ?_).not_live ho hp hlive
  rcases haccounts with ⟨hsite, rfl⟩ | ⟨y, hy, hterminated, hchild⟩
  · cases hsite
    obtain ⟨og, hog, -, -, hgone⟩ := hstop
    obtain ⟨og', hog', -, -, hchild⟩ := (htruthful.threads k hi).ghost_of_owner ho
    rw [hog] at hog'
    cases hog'
    exact hgone p (hchild.symm.trans hp)
  · cases by_ with
    | owner => cases hy
    | stop x =>
      cases hy
      exact hstop.2.2.2.2 p (hchild.trans hp)
    | timeout x terminated =>
      cases hy
      exact hstop.2.2.2.2 hterminated p (hchild.trans hp)

/-! ## Stopped records -/

/-- The record that a save leaves in the session of a daemon's owner: where it is
Stopped, it was before, or it is marked now. -/
theorem Closes.stopped_cases {γ : ℕ → Knowledge} {site : Site} {m d : SessionMetadata}
    (hok : w.Closes n i (.disk (.saveMetadata site m)) c) (hexcluded : Excluded w γ)
    (hi : w.alive i = true) (hpre : Knowledge.pre (.disk (.saveMetadata site m)) (γ i))
    (hd : (w.save i site m).metadata n = some d) (hstopped : d.status = .stopped) :
    (∃ d₀, w.metadata n = some d₀ ∧ d₀.status = .stopped) ∨
      (m.name = n ∧ ∃ by_, site = .stopped by_ ∧ (γ i).MayStop m.name m.generation by_) := by
  cases savedRecord hpre hd with
  | other before hother => exact .inl ⟨d, before, hstopped⟩
  | initial hsite init origin name =>
    subst hsite name
    obtain ⟨st, x, -, -, -, -, -, -, -, hstarting, -⟩ := init
    simp only [World.save, Function.update_self, Option.some.injEq] at hd
    subst hd
    cases hstarting.symm.trans hstopped
  | replaced c' record hlater locked replace name =>
    subst record
    obtain ⟨hname, -, hgeneration, -⟩ := replace.keeps
    -- The copy that is replaced is the record on disk.
    have hfresh := hok.fresh fun x hx => by cases hx; exact hname.trans name
    have hdisk := hfresh.disk hexcluded hi hlater locked hname
    rw [name] at hdisk
    cases site with
    | initial => exact absurd rfl hlater
    | supervisor =>
      obtain ⟨og, pid, t, -, -, -, rfl⟩ := replace
      exact .inl ⟨c', hdisk, hstopped⟩
    | child =>
      obtain ⟨og, pid, t, command, -, -, -, -, hrunning, rfl, -⟩ := replace
      exact absurd hstopped hrunning
    | promote =>
      obtain ⟨og, -, -, -, -, -, rfl⟩ := replace
      cases hstopped
    | stopped by_ =>
      obtain ⟨-, hstop, -⟩ := replace
      exact .inr ⟨hname.trans name, by_, rfl, hname ▸ hgeneration ▸ hstop⟩

/-- An owner that accounts for its child now has recorded it in a record that is not
Stopped, or has killed it. -/
theorem not_childAlive_of_accounted {γ : ℕ → Knowledge} (hsound : w.Sound)
    (htruthful : Truthful w γ) (hi : w.alive i = true) (hpre : Knowledge.pre a (γ i))
    (h : perform i a c w = some (r, w'))
    (hnow : c.ok = true ∧
      ((∃ m, a = .disk (.saveMetadata .child m)) ∨ ∃ p, a = .process (.childKill p)))
    {o : Ownership} (ho : w.owner i = some o) {d : SessionMetadata}
    (hd : w'.metadata o.name = some d) (hstopped : d.status = .stopped) : ¬w'.ChildAlive o := by
  obtain ⟨og, hog, hname, -, hchild⟩ := (htruthful.threads i hi).ghost_of_owner ho
  obtain ⟨hok, ⟨m, rfl⟩ | ⟨p, rfl⟩⟩ := hnow
  · obtain ⟨-, rfl⟩ := perform_saved h hok
    obtain ⟨hsite, -⟩ | ⟨c', -, og', pid, t, command, hog', hname', -, -, hrunning, rfl, -⟩ := hpre
    · cases hsite
    · rw [hog] at hog'
      cases hog'
      have hsame : o.name = c'.name := hname.trans hname'
      rw [hsame] at hd
      replace hd : Function.update w.metadata c'.name (some (c'.withChild pid t command)) c'.name =
          some d := hd
      rw [Function.update_self] at hd
      cases hd
      exact absurd hstopped hrunning
  · rintro ⟨q, t, hq, hlive⟩
    obtain ⟨og', hog', hp⟩ := hpre
    rw [hog] at hog'
    cases hog'
    obtain rfl : q = p := Option.some.inj (hq.symm.trans (hchild.trans hp))
    have hbefore : w.process q = .live t :=
      (perform_ages hsound h).live_before (htruthful.child i o q ho hq) hlive
    cases h
    rw [if_pos hok] at hlive
    cases hlive.symm.trans (kill_dead (.inl hbefore))

/-- A Stopped record leaves no live child that its owner has an account of. -/
theorem Attended.ended_act {γ : ℕ → Closing} {γ' : ℕ → Knowledge} (hJ : Attended n w γ)
    (hok : w.Closes n i a c) (hexcluded : Excluded w γ') (htruthful : Truthful w γ')
    (hB : Threads Buries w γ') (hi : w.alive i = true) (hpre : Knowledge.pre a (γ' i))
    (h : perform i a c w = some (r, w')) (d : SessionMetadata) (hd : w'.metadata n = some d)
    (hstopped : d.status = .stopped) (k : ℕ) (o' : Ownership) (hhosts : w'.Hosts k o')
    (hname : o'.name = n) (hk : k ∈ w'.accounted) : ¬w'.ChildAlive o' := by
  obtain ⟨o, hhosts₀, hname', hchild⟩ := hhosts.before hJ hexcluded.sound hi h hk
  have ho := hhosts₀.2.2
  have hname₀ : o.name = n := hname'.symm.trans hname
  rcases accounted_cases h hk with hold | ⟨rfl, hnow⟩
  · rcases hchild with hsame | ⟨command, cwd, path, rfl, rfl⟩
    · rintro ⟨p, t, hp, hlive⟩
      have hp₀ : o.child = some p := hsame.symm.trans hp
      have halive : w.ChildAlive o := ⟨p, t, hp₀,
        (perform_ages hexcluded.sound h).live_before (htruthful.child k o p ho hp₀) hlive⟩
      rcases records_cases h with ⟨-, hmetadata, -⟩ | ⟨site, m, rfl, -, rfl⟩
      · exact hJ.ended d (hmetadata ▸ hd) hstopped k o hhosts₀ hname₀ hold halive
      · rcases hok.stopped_cases hexcluded hi hpre hd hstopped with
          ⟨d₀, hd₀, hstopped₀⟩ | ⟨hm, by_, rfl, hstop⟩
        · exact hJ.ended d₀ hd₀ hstopped₀ k o hhosts₀ hname₀ hold halive
        · have haccounts := hok.marks _ rfl by_ rfl hm k o hhosts₀ hname₀ hold halive
          exact haccounts.dead htruthful hB hi hstop ho halive
    · -- An owner spawns one child only.
      obtain ⟨o₁, ho₁, hsome⟩ := hJ.accounted k hold
      obtain ⟨og, hog, -, hnone⟩ := hpre
      obtain ⟨og₁, hog₁, -, -, hchild₁⟩ := (htruthful.threads k hi).ghost_of_owner ho₁
      rw [hog] at hog₁
      cases hog₁
      exact absurd (hchild₁.trans hnone) hsome
  · rcases hchild with hsame | ⟨command, cwd, path, -, rfl⟩
    · have hgone := not_childAlive_of_accounted hexcluded.sound htruthful hi hpre h hnow ho
        (hname₀ ▸ hd) hstopped
      rintro ⟨p, t, hp, hlive⟩
      exact hgone ⟨p, t, hsame.symm.trans hp, hlive⟩
    · obtain ⟨-, ⟨m, hm⟩ | ⟨p, hp⟩⟩ := hnow
      · cases hm
      · cases hp

/-! ## Directories and listings -/

/-- Directories stay. -/
theorem perform_directories (h : perform i a c w = some (r, w')) {m : String}
    (hm : m ∈ w.directories) : m ∈ w'.directories := by
  cases a with
  | file a =>
    obtain ⟨f, -, rfl⟩ := perform_file h
    exact hm
  | process a =>
    rw [(performProcess_sameDisk h).directories]
    exact hm
  | disk a =>
    cases a <;> simp only [perform, performDisk] at h <;> (try split at h) <;> (try split at h) <;>
      cases h <;> first | exact hm | exact List.mem_insert_of_mem hm

/-- Listings stay. -/
theorem perform_scans (h : perform i a c w = some (r, w')) {k : ℕ} (hk : k ∈ w.scans) :
    k ∈ w'.scans := by
  cases a with
  | file a =>
    obtain ⟨f, -, rfl⟩ := perform_file h
    exact hk
  | process a =>
    cases a <;> simp only [perform, performProcess] at h <;> (try split at h) <;>
      (try split at h) <;> cases h <;> exact hk
  | disk a =>
    cases a <;> simp only [perform, performDisk] at h <;> (try split at h) <;> (try split at h) <;>
      cases h <;> first | exact hk | exact List.mem_cons_of_mem _ hk

/-- What a thread has yet to look at grows by a listing of its own only. -/
theorem perform_unseen (h : perform i a c w = some (r, w')) {k : ℕ}
    (hk : k ≠ i ∨ a ≠ .disk .readSessions) {m : String} (hm : m ∈ w'.unseen k) :
    m ∈ w.unseen k := by
  cases a with
  | file a =>
    obtain ⟨f, -, rfl⟩ := perform_file h
    exact hm
  | process a =>
    cases a <;> simp only [perform, performProcess] at h <;> (try split at h) <;>
      (try split at h) <;> cases h <;> exact hm
  | disk a =>
    cases a
    case loadMetadata name =>
      obtain ⟨rfl, -⟩ := performDisk_load h
      replace hm : m ∈ Function.update w.unseen i ((w.unseen i).filter (· ≠ name)) k := hm
      by_cases hki : k = i
      · subst hki
        rw [Function.update_self] at hm
        exact (List.mem_filter.mp hm).1
      · rwa [Function.update_of_ne hki] at hm
    case readSessions =>
      have hki : k ≠ i := hk.resolve_right fun hne => hne rfl
      simp only [perform, performDisk] at h
      split at h <;> cases h
      · replace hm : m ∈ Function.update w.unseen i w.directories k := hm
        rwa [Function.update_of_ne hki] at hm
      · exact hm
    all_goals
      simp only [perform, performDisk] at h
      (try split at h) <;> cases h <;> exact hm

/-- A thread has looked at the record that it loads. -/
theorem load_unseen {name : String} {r : Except String SessionMetadata}
    (h : performDisk i (.loadMetadata name) c w = some (r, w')) : name ∉ w'.unseen i := by
  obtain ⟨rfl, -⟩ := performDisk_load h
  change name ∉ Function.update w.unseen i ((w.unseen i).filter (· ≠ name)) i
  rw [Function.update_self]
  intro hmem
  simpa using (List.mem_filter.mp hmem).2

/-- The `start.lock` of a session is taken by a thread that made sure of its directory. -/
theorem Attended.locks_act {γ : ℕ → Closing} (hJ : Attended n w γ) (hi : w.alive i = true)
    (hpre : Closing.pre a (γ i)) (h : perform i a c w = some (r, w')) {m : String} {k : ℕ}
    (hlock : w'.startLock m = some k) :
    validateSessionName m = .ok () ∧ m ∈ w'.directories := by
  have hkeep : w.startLock m = some k → validateSessionName m = .ok () ∧ m ∈ w'.directories :=
    fun hold => (hJ.locks m k hold).imp_right (perform_directories h)
  cases a with
  | file a =>
    obtain ⟨f, -, rfl⟩ := perform_file h
    exact hkeep hlock
  | process a =>
    rw [(performProcess_sameDisk h).startLock] at hlock
    exact hkeep hlock
  | disk a =>
    cases a
    case acquireStartLock name =>
      by_cases hm : m = name
      · subst hm
        obtain ⟨hvalid, hmem⟩ := hpre
        exact ⟨hvalid, perform_directories h ((hJ.threads i hi).ensured m hmem)⟩
      · rcases performDisk_acquireStart h with ⟨-, -, rfl⟩ | ⟨-, rfl⟩
        · exact hkeep ((Function.update_of_ne hm ..).symm.trans hlock)
        · exact hkeep hlock
    case dropStartLock name =>
      cases h
      by_cases hm : m = name
      · subst hm
        cases (Function.update_self ..).symm.trans hlock
      · exact hkeep ((Function.update_of_ne hm ..).symm.trans hlock)
    all_goals
      refine hkeep ?_
      simp only [perform, performDisk] at h
      (try split at h) <;> (try split at h) <;> cases h <;> exact hlock

/-- A session that has an initial record had one before, or gets one now. -/
theorem initialized_cases (h : perform i a c w = some (r, w')) {m : String} (hm : w'.inits m ≠ []) :
    w.inits m ≠ [] ∨ (c.ok = true ∧ ∃ x ∈ a.saves, x.1 = .initial ∧ x.2.name = m) := by
  rcases records_cases h with ⟨-, -, hinits⟩ | ⟨site, x, rfl, hok, rfl⟩
  · exact .inl (hinits ▸ hm)
  · by_cases hinitial : site = .initial ∧ x.name = m
    · exact .inr ⟨hok, _, rfl, hinitial⟩
    · refine .inl ?_
      cases site
      case initial =>
        have hne : m ≠ x.name := fun hname => hinitial ⟨rfl, hname.symm⟩
        rwa [show (w.save i .initial x).inits m = w.inits m from Function.update_of_ne hne ..] at hm
      all_goals exact hm

/-- An initial record is saved by a start that holds `start.lock`. -/
theorem Attended.inits_act {γ : ℕ → Closing} {γ' : ℕ → Knowledge} (hJ : Attended n w γ)
    (hexcluded : Excluded w γ') (hi : w.alive i = true) (hpre : Knowledge.pre a (γ' i))
    (h : perform i a c w = some (r, w')) {m : String} (hm : w'.inits m ≠ []) :
    validateSessionName m = .ok () ∧ m ∈ w'.directories := by
  refine And.imp_right (perform_directories h) ?_
  rcases initialized_cases h hm with hold | ⟨-, x, hx, hinitial, rfl⟩
  · exact hJ.inits m hold
  · obtain rfl := eq_of_saves hx
    rcases hpre with ⟨-, -, st, loaded, hst, hheld, hname, -⟩ | ⟨c', -, hreplace⟩
    · rw [← hname]
      exact hJ.locks st.name i ((hexcluded.threads i hi).start st hst hheld)
    · exact absurd hinitial hreplace.keeps.2.1

end World

end IgnibyteBridge
