import IgnibyteBridge.Session.Adoption

/-!
# Serving a run

An owner serves its run from its promotion to Running until its child dies. As
long as nobody takes a live child for dead, and stops only mark a Running record
Stopped when they have seen the child it names, the record of a run that is
served says so.
-/

namespace IgnibyteBridge

open Concurrency World

/-- What a stop or a timeout decided on, and whether its signals left no survivor. -/
def Site.snapshot : Site → Option (SessionMetadata × Bool)
  | .stopped (.stop snapshot) => some (snapshot, true)
  | .stopped (.timeout snapshot terminated) => some (snapshot, terminated)
  | _ => none

namespace World

/-- The owner has passed its promotion to Running, and its child is alive. -/
def Serving (w : World) (k : ℕ) (o : Ownership) : Prop :=
  w.owner k = some o ∧ o.promoted = true ∧ ∃ p t, o.child = some p ∧ w.process p = .live t

/-- A stop or a timeout that marks a Running record Stopped decided on a record
that names the same child, and no signal of it failed. -/
def SeenChild (w : World) (a : Act) : Prop :=
  ∀ x ∈ a.saves, ∀ y ∈ x.1.snapshot, ∀ d ∈ w.metadata x.2.name, d.status = .running →
    y.2 = true ∧ y.1.childPid = d.childPid

instance (w : World) (a : Act) : Decidable (w.SeenChild a) :=
  inferInstanceAs (Decidable (∀ x ∈ a.saves, ∀ y ∈ x.1.snapshot, ∀ d ∈ w.metadata x.2.name, _))

/-- A thread replaces the record on disk, and an owner one of its own run. -/
structure ReplacesOwn (w : World) (i : ℕ) (g : Knowledge) (a : Act) : Prop where
  disk : ∀ x ∈ a.saves, ∀ c, x.1 ≠ .initial → g.locked = some (c.name, some c) →
    w.metadata c.name = some c
  own : ∀ x ∈ a.saves, ∀ c o, g.locked = some (c.name, some c) → g.MayReplace c x.2 x.1 →
    w.owner i = some o → c.name = o.name ∧ c.origin = o.start

/-- An owner that recorded its child has one, and the record of its run names it
while it is alive. -/
structure ChildRecorded (w : World) (k : ℕ) (g : Knowledge) : Prop where
  child : ∀ og, g.owner = some og → og.recorded = true → og.child ≠ none
  disk : ∀ og o p t d, g.owner = some og → og.recorded = true → w.owner k = some o →
    o.child = some p → w.process p = .live t → w.metadata o.name = some d →
    d.origin = o.start → d.childPid = some p

/-- An owner has recorded its child before it is promoted. -/
structure Recorded (w : World) (γ : ℕ → Knowledge) : Prop where
  promoted : ∀ k o, w.owner k = some o → o.promoted = true → o.child ≠ none
  recorded : Threads ChildRecorded w γ

/-- The record of a run that is served is Running and names its child. -/
structure Serves (w : World) (γ : ℕ → Knowledge) : Prop where
  promoted : ∀ k o, w.owner k = some o → o.promoted = true → o.child ≠ none
  running : ∀ k o d, w.Serving k o → w.metadata o.name = some d → d.origin = o.start →
    d.status = .running ∧ d.childPid = o.child
  recorded : Threads ChildRecorded w γ

variable {w w' : World} {γ : ℕ → Knowledge} {i : ℕ} {a : Act} {c : Choice} {r : a.Response}

/-- A process that is live now and was born before was live before. -/
theorem Ages.live_before (hages : w.Ages w') {p t : ℕ} (hborn : w.process p ≠ .unborn)
    (hlive : w'.process p = .live t) : w.process p = .live t := by
  rcases hages.process p hborn with hsame | hdead
  · rw [← hsame, hlive]
  · rw [hlive] at hdead
    cases hdead

/-- What serves is recorded. -/
theorem Serves.toRecorded (hJ : Serves w γ) : Recorded w γ := ⟨hJ.promoted, hJ.recorded⟩

/-- An owner that serves did so before, or was just promoted. -/
theorem Recorded.serving_cases (hJ : Recorded w γ) (hsound : w.Sound) (htruthful : Truthful w γ)
    (hi : w.alive i = true) (hpre : Knowledge.pre a (γ i)) (h : perform i a c w = some (r, w'))
    {k : ℕ} {o : Ownership} (hserving : w'.Serving k o) :
    (∃ o₀, w.Serving k o₀ ∧ o₀.name = o.name ∧ o₀.start = o.start ∧ o₀.child = o.child) ∨
      (k = i ∧ ∃ m o₀, (.promote, m) ∈ a.saves ∧ w.owner i = some o₀ ∧ o₀.name = o.name ∧
        o₀.start = o.start ∧ o₀.child = o.child) := by
  obtain ⟨ho, hpromoted, p, t, hp, hlive⟩ := hserving
  have hages := perform_ages hsound h
  have hbefore : ∀ o₀, w.owner k = some o₀ → o₀.promoted = true → o₀.child = some p →
      w.Serving k o₀ := fun o₀ ho₀ hpromoted₀ hchild =>
    ⟨ho₀, hpromoted₀, p, t, hchild, hages.live_before (htruthful.child k o₀ p ho₀ hchild) hlive⟩
  cases ownerMove h with
  | same owner => exact .inl ⟨o, hbefore o (owner ▸ ho) hpromoted hp, rfl, rfl, rfl⟩
  | adopt m save owner =>
    rw [owner] at ho
    by_cases hk : k = i
    · subst hk
      rw [Function.update_self] at ho
      obtain ⟨o₀, ho₀, rfl⟩ := Option.map_eq_some_iff.mp ho
      exact .inl ⟨o₀, hbefore o₀ ho₀ hpromoted hp, rfl, rfl, rfl⟩
    · rw [Function.update_of_ne hk] at ho
      exact .inl ⟨o, hbefore o ho hpromoted hp, rfl, rfl, rfl⟩
  | promote m save owner =>
    rw [owner] at ho
    by_cases hk : k = i
    · subst hk
      rw [Function.update_self] at ho
      obtain ⟨o₀, ho₀, rfl⟩ := Option.map_eq_some_iff.mp ho
      exact .inr ⟨rfl, m, o₀, save, ho₀, rfl, rfl, rfl⟩
    · rw [Function.update_of_ne hk] at ho
      exact .inl ⟨o, hbefore o ho hpromoted hp, rfl, rfl, rfl⟩
  | child q spawned owner unborn born =>
    rw [owner] at ho
    by_cases hk : k = i
    · -- An owner spawns its child before it is promoted.
      subst hk
      rw [Function.update_self] at ho
      obtain ⟨o₀, ho₀, rfl⟩ := Option.map_eq_some_iff.mp ho
      obtain ⟨command, cwd, path, rfl⟩ := spawned
      obtain ⟨og, hog, -, hnone⟩ := hpre
      obtain ⟨og', hog', -, -, hchild⟩ := (htruthful.threads k hi).ghost_of_owner ho₀
      rw [hog] at hog'
      cases hog'
      exact absurd (hchild.trans hnone) (hJ.promoted k o₀ ho₀ hpromoted)
    · rw [Function.update_of_ne hk] at ho
      exact .inl ⟨o, hbefore o ho hpromoted hp, rfl, rfl, rfl⟩
  | spawn j o' child promoted owner unborn =>
    rw [owner] at ho
    by_cases hk : k = j
    · subst hk
      rw [Function.update_self] at ho
      cases ho
      rw [promoted] at hpromoted
      cases hpromoted
    · rw [Function.update_of_ne hk] at ho
      exact .inl ⟨o, hbefore o ho hpromoted hp, rfl, rfl, rfl⟩

/-- Only the save that records a child changes the child of a record. -/
theorem childPid_of_mayReplace {g : Knowledge} {m d : SessionMetadata} {site : Site}
    (h : g.MayReplace d m site) (hsite : site ≠ .child) : m.childPid = d.childPid := by
  cases site with
  | initial => exact h.elim
  | child => exact absurd rfl hsite
  | supervisor =>
    obtain ⟨o, pid, t, -, -, -, rfl⟩ := h
    rfl
  | promote =>
    obtain ⟨o, -, -, -, -, -, rfl⟩ := h
    rfl
  | stopped by_ =>
    obtain ⟨-, -, es, ec, rfl⟩ := h
    rfl

/-- Nobody marks the record of a run that is served Stopped: its owner knows its
child dead, and so does a stop that saw the child. -/
theorem Serves.not_mayStop {d : SessionMetadata} {by_ : Stopper} (hJ : Serves w γ)
    (hregistered : Registered w γ) (hT : Informed w i (γ i)) (hB : Buries w i (γ i))
    (hstop : (γ i).MayStop d.name d.generation by_) (hdisk : w.metadata d.name = some d)
    (hown : ∀ o, w.owner i = some o → d.name = o.name ∧ d.origin = o.start)
    (hseen : ∀ y ∈ (Site.stopped by_).snapshot, d.status = .running →
      y.2 = true ∧ y.1.childPid = d.childPid)
    {k : ℕ} {o : Ownership} (hserving : w.Serving k o) (hname : o.name = d.name)
    (horigin : d.origin = o.start) : False := by
  obtain ⟨hrunning, hchild⟩ := hJ.running k o d hserving (hname ▸ hdisk) horigin
  obtain ⟨ho, -, p, t, hp, hlive⟩ := hserving
  have hdead : p ∈ (γ i).gone → False := fun hgone => (hB p hgone).not_live ho hp hlive
  cases by_ with
  | owner =>
    obtain ⟨og, hog, -, -, hgone⟩ := hstop
    obtain ⟨oi, hoi, -, -, hchildi⟩ := hT.owner_of_ghost hog
    have hk : k = i :=
      hregistered.unique k i o oi ho hoi (horigin.symm.trans (hown oi hoi).2)
    subst hk
    rw [ho] at hoi
    cases hoi
    exact hdead (hgone p (hchildi.symm.trans hp))
  | stop x =>
    obtain ⟨-, -, -, -, hgone⟩ := hstop
    exact hdead (hgone p ((hseen (x, true) rfl hrunning).2.trans (hchild.trans hp)))
  | timeout x terminated =>
    obtain ⟨-, -, -, -, hgone⟩ := hstop
    obtain ⟨hterminated, hpid⟩ := hseen (x, terminated) rfl hrunning
    exact hdead (hgone hterminated p (hpid.trans (hchild.trans hp)))

/-- A save that replaces the record of a run that is served leaves it Running,
with its child. -/
theorem Serves.save_running {d m : SessionMetadata} {site : Site} (hJ : Serves w γ)
    (hregistered : Registered w γ) (hT : Informed w i (γ i)) (hB : Buries w i (γ i))
    (hreplace : (γ i).MayReplace d m site) (hdisk : w.metadata d.name = some d)
    (hown : ∀ o, w.owner i = some o → d.name = o.name ∧ d.origin = o.start)
    (hseen : ∀ y ∈ site.snapshot, d.status = .running → y.2 = true ∧ y.1.childPid = d.childPid)
    {k : ℕ} {o : Ownership} (hserving : w.Serving k o) (hname : o.name = d.name)
    (horigin : d.origin = o.start) : m.status = .running ∧ m.childPid = o.child := by
  obtain ⟨hrunning, hchild⟩ := hJ.running k o d hserving (hname ▸ hdisk) horigin
  cases site with
  | initial => exact hreplace.elim
  | supervisor =>
    obtain ⟨og, pid, t, -, -, -, rfl⟩ := hreplace
    exact ⟨hrunning, hchild⟩
  | child =>
    obtain ⟨og, pid, t, command, hog, -, -, hpid, -, rfl, hgone, -⟩ := hreplace
    obtain ⟨oi, hoi, -, -, hchildi⟩ := hT.owner_of_ghost hog
    obtain ⟨ho, -, p, t', hp, hlive⟩ := hserving
    have hk : k = i :=
      hregistered.unique k i o oi ho hoi (horigin.symm.trans (hown oi hoi).2)
    subst hk
    rw [ho] at hoi
    cases hoi
    have hpid' : o.child = some pid := hchildi.trans hpid
    refine ⟨hrunning, ?_⟩
    cases t with
    | some t => exact hpid'.symm
    | none =>
      -- A child whose start time could not be read is dead.
      obtain rfl : p = pid := Option.some.inj (hp.symm.trans hpid')
      exact absurd hlive ((hB p (hgone rfl)).not_live ho hp)
  | promote =>
    obtain ⟨og, -, -, -, -, -, rfl⟩ := hreplace
    exact ⟨rfl, hchild⟩
  | stopped by_ =>
    obtain ⟨-, hstop, -⟩ := hreplace
    exact (hJ.not_mayStop hregistered hT hB hstop hdisk hown hseen hserving hname horigin).elim

/-- The start of an owner saves no initial record any more. -/
theorem Registered.not_initialize (hJ : Registered w γ) {m : SessionMetadata}
    (hinit : (γ i).MayInitialize m) {k : ℕ} {o : Ownership} (ho : w.owner k = some o) :
    o.start ≠ i := by
  rintro rfl
  obtain ⟨st, x, hst, -, -, -, -, hnone, -⟩ := hinit
  obtain ⟨st', hst', -, hsome, -⟩ := hJ.owner k o ho
  rw [hst] at hst'
  cases hst'
  exact hsome hnone

/-- The record of a run that is served says so after every action. -/
theorem Serves.running_act (hJ : Serves w γ) (hsound : w.Sound) (hregistered : Registered w γ)
    (htruthful : Truthful w γ) (hB : Threads Buries w γ) (hi : w.alive i = true)
    (hown : ReplacesOwn w i (γ i) a)
    (hseen : w.SeenChild a) (hpre : Knowledge.pre a (γ i)) (h : perform i a c w = some (r, w'))
    (k : ℕ) (o : Ownership) (d : SessionMetadata) (hserving : w'.Serving k o)
    (hd : w'.metadata o.name = some d) (horigin : d.origin = o.start) :
    d.status = .running ∧ d.childPid = o.child := by
  have hT := htruthful.threads i hi
  have hcases := hJ.toRecorded.serving_cases hsound htruthful hi hpre h hserving
  rcases records_cases h with ⟨hsave, hmetadata, -⟩ | ⟨site, m, rfl, -, rfl⟩
  · rw [hmetadata] at hd
    rcases hcases with ⟨o₀, hserving₀, hname, hstart, hchild⟩ | ⟨-, m, o₀, hmem, -⟩
    · rw [← hchild]
      exact hJ.running k o₀ d hserving₀ (hname ▸ hd) (horigin.trans hstart.symm)
    · -- A promotion that failed promotes nobody.
      obtain rfl := eq_of_saves hmem
      have hfailed := hsave _ rfl
      rcases performDisk_save h with ⟨u, rfl, -⟩ | ⟨e, -, rfl⟩
      · simp [perform, performDisk, hfailed] at h
      · exact hJ.running k o d hserving hd horigin
  · cases savedRecord hpre hd with
    | other before hother =>
      rcases hcases with ⟨o₀, hserving₀, hname, hstart, hchild⟩ | ⟨rfl, m', o₀, hmem', ho₀, hname, -⟩
      · rw [← hchild]
        exact hJ.running k o₀ d hserving₀ (hname ▸ before) (horigin.trans hstart.symm)
      · -- A promotion saves the record of the owner's own session.
        cases hmem'
        rcases hpre with ⟨hsite, -⟩ | ⟨c', hlocked, hreplace⟩
        · cases hsite
        · have hname' := (hown.own _ rfl c' o₀ hlocked hreplace ho₀).1
          exact absurd (hname.symm.trans (hname'.symm.trans hreplace.keeps.1.symm)) hother
    | initial hsite init origin _ =>
      rcases hcases with ⟨o₀, hserving₀, -, hstart, -⟩ | ⟨-, m', o₀, hmem', -⟩
      · exact absurd (hstart.trans (horigin.symm.trans origin))
          (hregistered.not_initialize init hserving₀.1)
      · cases hmem'
        cases hsite
    | replaced c' record hsite locked replace name =>
      subst record
      have hdisk := hown.disk _ rfl c' hsite locked
      have horigin' : c'.origin = d.origin := replace.keeps.2.2.2.symm
      have hmine := fun o' => hown.own _ rfl c' o' locked replace
      rcases hcases with ⟨o₀, hserving₀, hname, hstart, hchild⟩ |
        ⟨rfl, m', o₀, hmem', ho₀, hname, hstart, hchild⟩
      · rw [← hchild]
        refine hJ.save_running hregistered hT (hB i hi) replace hdisk hmine ?_ hserving₀
          (hname.trans name.symm) (horigin'.trans (horigin.trans hstart.symm))
        exact fun y hy => hseen _ rfl y hy c' (replace.keeps.1 ▸ hdisk)
      · -- The promoted owner has recorded its child before.
        cases hmem'
        obtain ⟨og, hog, -, -, hrecorded, -, rfl⟩ := replace
        obtain ⟨-, -, p, t, hp, hlive⟩ := hserving
        refine ⟨rfl, ?_⟩
        rw [hp]
        exact (hJ.recorded k hi).disk og o₀ p t c' hog hrecorded ho₀ (hchild.trans hp) hlive
          (hname.trans name.symm ▸ hdisk) (horigin.trans hstart.symm)

/-- An owner keeps its session and its start, and its child unless it spawns one. -/
theorem OwnerMove.back (hmove : OwnerMove w i a w') {k : ℕ} (hborn : w.life k ≠ .unborn)
    {o : Ownership} (ho : w'.owner k = some o) : ∃ o₀, w.owner k = some o₀ ∧ o.name = o₀.name ∧
      o.start = o₀.start ∧ (o.promoted = true → o₀.promoted = true ∨ ∃ m, (.promote, m) ∈ a.saves) ∧
      (o.child = o₀.child ∨ ∃ command cwd path, a = .process (.spawnCommand command cwd path)) := by
  have hmap : ∀ {f : Ownership → Ownership},
      w'.owner = Function.update w.owner i ((w.owner i).map f) →
      (∀ o, (f o).name = o.name ∧ (f o).start = o.start ∧
        ((f o).promoted = true → o.promoted = true ∨ ∃ m, (.promote, m) ∈ a.saves) ∧
        ((f o).child = o.child ∨ ∃ command cwd path, a = .process (.spawnCommand command cwd path))) →
      ∃ o₀, w.owner k = some o₀ ∧ o.name = o₀.name ∧ o.start = o₀.start ∧
        (o.promoted = true → o₀.promoted = true ∨ ∃ m, (.promote, m) ∈ a.saves) ∧
        (o.child = o₀.child ∨ ∃ command cwd path, a = .process (.spawnCommand command cwd path)) := by
    intro f howner hf
    rw [howner] at ho
    by_cases hk : k = i
    · subst hk
      rw [Function.update_self] at ho
      obtain ⟨o₀, ho₀, rfl⟩ := Option.map_eq_some_iff.mp ho
      exact ⟨o₀, ho₀, hf o₀⟩
    · rw [Function.update_of_ne hk] at ho
      exact ⟨o, ho, rfl, rfl, .inl, .inl rfl⟩
  cases hmove with
  | same owner => exact ⟨o, owner ▸ ho, rfl, rfl, .inl, .inl rfl⟩
  | adopt m save owner => exact hmap owner fun _ => ⟨rfl, rfl, .inl, .inl rfl⟩
  | promote m save owner => exact hmap owner fun _ => ⟨rfl, rfl, fun _ => .inr ⟨m, save⟩, .inl rfl⟩
  | child p spawned owner unborn born => exact hmap owner fun _ => ⟨rfl, rfl, .inl, .inr spawned⟩
  | spawn j o' child promoted owner unborn =>
    have hkj : k ≠ j := by
      rintro rfl
      exact hborn unborn
    rw [owner, Function.update_of_ne hkj] at ho
    exact ⟨o, ho, rfl, rfl, .inl, .inl rfl⟩

/-- An owner that has recorded its child had done so before, or does so now. -/
theorem post_recorded {g : Knowledge} {og' : OwnerGhost}
    (h : (Knowledge.post a g r).owner = some og') (hrecorded : og'.recorded = true) :
    (∃ m, (.child, m) ∈ a.saves) ∨ ∃ og, g.owner = some og ∧ og.recorded = true ∧
      (og'.child = og.child ∨ ∃ command cwd path, a = .process (.spawnCommand command cwd path)) := by
  have hsame : g.owner = some og' → ∃ og, g.owner = some og ∧ og.recorded = true ∧
      (og'.child = og.child ∨ ∃ command cwd path, a = .process (.spawnCommand command cwd path)) :=
    fun h => ⟨og', h, hrecorded, .inl rfl⟩
  have hbury : ∀ (p : ℕ) (b : Bool), (if b then g.bury p else g).owner = g.owner := by
    intro p b
    cases b <;> rfl
  cases a with
  | file a => exact .inr (hsame h)
  | disk a =>
    cases a
    case acquireStartLock name => cases r <;> exact .inr (hsame h)
    case acquireStatusLock name => cases r <;> exact .inr (hsame h)
    case saveMetadata site m =>
      cases r with
      | error e => exact .inr (hsame h)
      | ok u =>
        cases site
        case child => exact .inl ⟨m, rfl⟩
        case supervisor =>
          obtain ⟨og, hog, rfl⟩ := Option.map_eq_some_iff.mp h
          exact .inr ⟨og, hog, hrecorded, .inl rfl⟩
        all_goals exact .inr (hsame h)
    all_goals exact .inr (hsame h)
  | process a =>
    cases a
    case processStartTime p =>
      cases r with
      | none => exact .inr (hsame ((hbury p _).symm.trans h))
      | some t => exact .inr (hsame h)
    case pidIsOurs p startTime =>
      cases p with
      | none => exact .inr (hsame h)
      | some p =>
        cases r with
        | true => exact .inr (hsame h)
        | false => exact .inr (hsame ((hbury p _).symm.trans h))
    case terminatePid p =>
      cases r with
      | error e => exact .inr (hsame h)
      | ok u => exact .inr (hsame ((hbury p _).symm.trans h))
    case spawnSupervisor => cases r <;> exact .inr (hsame h)
    case spawnCommand command cwd path =>
      cases r with
      | none => exact .inr (hsame h)
      | some p =>
        obtain ⟨og, hog, rfl⟩ := Option.map_eq_some_iff.mp h
        exact .inr ⟨og, hog, hrecorded, .inr ⟨command, cwd, path, rfl⟩⟩
    all_goals exact .inr (hsame h)

/-- The child of an owner's record stays, unless its owner records one. -/
theorem childPid_kept (hregistered : Registered w γ) (htruthful : Truthful w γ)
    (hi : w.alive i = true) (hown : ReplacesOwn w i (γ i) a) (hpre : Knowledge.pre a (γ i))
    (h : perform i a c w = some (r, w')) {k p : ℕ} {o : Ownership} (ho : w.owner k = some o)
    (hold : ∀ d, w.metadata o.name = some d → d.origin = o.start → d.childPid = some p)
    (hsite : ∀ m, (.child, m) ∈ a.saves → k ≠ i) {d : SessionMetadata}
    (hd : w'.metadata o.name = some d) (horigin : d.origin = o.start) : d.childPid = some p := by
  rcases records_cases h with ⟨-, hmetadata, -⟩ | ⟨site, m, rfl, -, rfl⟩
  · rw [hmetadata] at hd
    exact hold d hd horigin
  · cases savedRecord hpre hd with
    | other before hother => exact hold d before horigin
    | initial hsite init origin _ =>
      exact absurd (horigin.symm.trans origin) (hregistered.not_initialize init ho)
    | replaced c' record hlater locked replace name =>
      subst record
      have hdisk := hown.disk _ rfl c' hlater locked
      have horigin' : c'.origin = o.start := replace.keeps.2.2.2.symm.trans horigin
      have hc' : c'.childPid = some p := hold c' (name ▸ hdisk) horigin'
      by_cases hchild : site = .child
      · -- Only the owner of this very run records a child in it.
        subst hchild
        have hT := htruthful.threads i hi
        obtain ⟨og, pid, t, command, hog, -⟩ := id replace
        obtain ⟨oi, hoi, -⟩ := hT.owner_of_ghost hog
        have hstart := (hown.own _ rfl c' oi locked replace hoi).2
        exact absurd (hregistered.unique k i o oi ho hoi (horigin'.symm.trans hstart)) (hsite d rfl)
      · rw [childPid_of_mayReplace replace hchild, hc']

/-- An owner that has recorded its child finds it in its record after every action. -/
theorem Recorded.recorded_act (env : Env) (hJ : Recorded w γ) (hsound : w.Sound)
    (hregistered : Registered w γ) (htruthful : Truthful w γ) (hB : Threads Buries w γ)
    (hi : w.alive i = true) (hown : ReplacesOwn w i (γ i) a) (hpre : Knowledge.pre a (γ i))
    (h : perform i a c w = some (r, w')) :
    Threads ChildRecorded w' (ghosts (bridge env) Knowledge.protocol Knowledge.fresh γ i a r) := by
  have hages := perform_ages hsound h
  have hT := htruthful.threads i hi
  refine threads_act env hsound hi h hJ.recorded (fun hrec => ?_) (fun k hk halive hrec => ?_)
    fun k p hlaunched => ?_
  · by_cases hchildSave : ∃ m, (.child, m) ∈ a.saves ∧ c.ok = true
    · -- The owner records its child now.
      obtain ⟨m, hmem, hc⟩ := hchildSave
      obtain rfl := eq_of_saves hmem
      obtain ⟨rfl, rfl⟩ := perform_saved h hc
      rcases id hpre with ⟨hsite, -⟩ | ⟨c', hlocked, hreplace⟩
      · cases hsite
      obtain ⟨og, pid, t, command, hog, -, -, hpid, -, rfl, hgone, -⟩ := id hreplace
      have hafter : (Knowledge.post (.disk (.saveMetadata .child (c'.withChild pid t command)))
          (γ i) (.ok ())).owner = some { og with recorded := true } := by
        change (γ i).owner.map _ = _
        rw [hog]
        rfl
      refine ⟨fun og' hog' _ => ?_, fun og' o p t' d hog' _ ho hp hlive hd _ => ?_⟩
      · rw [hafter] at hog'
        cases hog'
        simp [hpid]
      · have hname := (hown.own _ rfl c' o hlocked hreplace ho).1
        obtain ⟨og₂, hog₂, -, -, hchild⟩ := hT.ghost_of_owner ho
        rw [hog] at hog₂
        cases hog₂
        have hpp : p = pid := Option.some.inj (hp.symm.trans (hchild.trans hpid))
        subst hpp
        cases savedRecord hpre hd with
        | other before hother => exact absurd (hname.symm) hother
        | initial hsite init origin _ => cases hsite
        | replaced c'' record hlater locked replace name =>
          subst record
          cases t with
          | some t => rfl
          | none => exact absurd hlive ((hB i hi p (hgone rfl)).not_live ho hp)
    · have hback : ∀ og', (Knowledge.post a (γ i) r).owner = some og' → og'.recorded = true →
          ∃ og, (γ i).owner = some og ∧ og.recorded = true ∧ og'.child = og.child ∧
            ¬∃ command cwd path, a = .process (.spawnCommand command cwd path) := by
        intro og' hog' hrecorded
        have hnotSpawn : ∀ og, (γ i).owner = some og → og.recorded = true →
            ¬∃ command cwd path, a = .process (.spawnCommand command cwd path) := by
          rintro og hog hrecorded' ⟨command, cwd, path, rfl⟩
          obtain ⟨og₂, hog₂, -, hnone⟩ := hpre
          rw [hog] at hog₂
          cases hog₂
          exact hrec.child og hog hrecorded' hnone
        rcases post_recorded hog' hrecorded with ⟨m, hmem⟩ | ⟨og, hog, hrecorded', hchild | hspawn⟩
        · -- A save that fails records nothing.
          obtain rfl := eq_of_saves hmem
          rcases performDisk_save h with ⟨u, rfl, -⟩ | ⟨e, rfl, -⟩
          · have hc : c.ok = true := by
              by_contra hc
              simp [perform, performDisk, hc] at h
            exact absurd ⟨m, hmem, hc⟩ hchildSave
          · exact ⟨og', hog', hrecorded, rfl, hnotSpawn og' hog' hrecorded⟩
        · exact ⟨og, hog, hrecorded', hchild, hnotSpawn og hog hrecorded'⟩
        · exact absurd hspawn (hnotSpawn og hog hrecorded')
      refine ⟨fun og' hog' hrecorded => ?_,
        fun og' o p t d hog' hrecorded ho hp hlive hd horigin => ?_⟩
      · obtain ⟨og, hog, hrecorded', hchild, -⟩ := hback og' hog' hrecorded
        rw [hchild]
        exact hrec.child og hog hrecorded'
      · obtain ⟨og, hog, hrecorded', -, hnotSpawn⟩ := hback og' hog' hrecorded
        obtain ⟨o₀, ho₀, hname, hstart, -, hchild⟩ := (ownerMove h).back (alive_ne_unborn hi) ho
        have hp₀ : o₀.child = some p := (hchild.resolve_right hnotSpawn).symm.trans hp
        have hlive₀ := hages.live_before (htruthful.child i o₀ p ho₀ hp₀) hlive
        by_cases hsave : ∀ x ∈ a.saves, c.ok = false
        · rw [(perform_unsaved h hsave).1] at hd
          exact hrec.disk og o₀ p t d hog hrecorded' ho₀ hp₀ hlive₀ (hname ▸ hd) (hstart ▸ horigin)
        · refine childPid_kept hregistered htruthful hi hown hpre h ho₀
            (fun d hd horigin => hrec.disk og o₀ p t d hog hrecorded' ho₀ hp₀ hlive₀ hd horigin)
            (fun m hmem => ?_) (hname ▸ hd) (hstart ▸ horigin)
          push Not at hsave
          obtain ⟨x, -, hc⟩ := hsave
          exact absurd ⟨m, hmem, by simpa using hc⟩ hchildSave
  · refine ⟨hrec.child, fun og o p t d hog hrecorded ho hp hlive hd horigin => ?_⟩
    rw [perform_owner_other h hk (alive_ne_unborn halive)] at ho
    have hlive₀ := hages.live_before (htruthful.child k o p ho hp) hlive
    exact childPid_kept hregistered htruthful hi hown hpre h ho
      (fun d hd horigin => hrec.disk og o p t d hog hrecorded ho hp hlive₀ hd horigin)
      (fun m _ => hk) hd horigin
  · have hnone : ∀ og, (Knowledge.fresh a (γ i) r).owner = some og → og.recorded = false := by
      intro og
      unfold Knowledge.fresh
      split <;> intro hog <;> cases hog <;> rfl
    refine ⟨fun og hog hrecorded => ?_, fun og o p t d hog hrecorded => ?_⟩
    all_goals
      rw [hnone og hog] at hrecorded
      cases hrecorded

/-- An owner that is promoted has a child. -/
theorem Recorded.promoted_act (hJ : Recorded w γ) (htruthful : Truthful w γ) (hi : w.alive i = true)
    (hpre : Knowledge.pre a (γ i)) (h : perform i a c w = some (r, w')) (k : ℕ) (o : Ownership)
    (ho : w'.owner k = some o) (hpromoted : o.promoted = true) : o.child ≠ none := by
  cases ownerMove h with
  | same owner => exact hJ.promoted k o (owner ▸ ho) hpromoted
  | adopt m save owner =>
    rw [owner] at ho
    by_cases hk : k = i
    · subst hk
      rw [Function.update_self] at ho
      obtain ⟨o₀, ho₀, rfl⟩ := Option.map_eq_some_iff.mp ho
      exact hJ.promoted k o₀ ho₀ hpromoted
    · rw [Function.update_of_ne hk] at ho
      exact hJ.promoted k o ho hpromoted
  | promote m save owner =>
    rw [owner] at ho
    by_cases hk : k = i
    · subst hk
      rw [Function.update_self] at ho
      obtain ⟨o₀, ho₀, rfl⟩ := Option.map_eq_some_iff.mp ho
      obtain rfl := eq_of_saves save
      rcases hpre with ⟨hsite, -⟩ | ⟨c', hlocked, og, hog, -, -, hrecorded, -⟩
      · cases hsite
      · obtain ⟨og', hog', -, -, hchild⟩ := (htruthful.threads k hi).ghost_of_owner ho₀
        rw [hog] at hog'
        cases hog'
        change o₀.child ≠ none
        rw [hchild]
        exact (hJ.recorded k hi).child og hog hrecorded
    · rw [Function.update_of_ne hk] at ho
      exact hJ.promoted k o ho hpromoted
  | child p spawned owner unborn born =>
    rw [owner] at ho
    by_cases hk : k = i
    · subst hk
      rw [Function.update_self] at ho
      obtain ⟨o₀, ho₀, rfl⟩ := Option.map_eq_some_iff.mp ho
      simp
    · rw [Function.update_of_ne hk] at ho
      exact hJ.promoted k o ho hpromoted
  | spawn j o' child promoted owner unborn =>
    rw [owner] at ho
    by_cases hk : k = j
    · subst hk
      rw [Function.update_self] at ho
      cases ho
      rw [promoted] at hpromoted
      cases hpromoted
    · rw [Function.update_of_ne hk] at ho
      exact hJ.promoted k o ho hpromoted

/-- One action of any thread keeps every serving run recorded. -/
theorem Recorded.act (env : Env) (hJ : Recorded w γ) (hsound : w.Sound)
    (hregistered : Registered w γ) (htruthful : Truthful w γ) (hB : Threads Buries w γ)
    (hi : w.alive i = true) (hown : ReplacesOwn w i (γ i) a) (hpre : Knowledge.pre a (γ i))
    (h : perform i a c w = some (r, w')) :
    Recorded w' (ghosts (bridge env) Knowledge.protocol Knowledge.fresh γ i a r) :=
  ⟨hJ.promoted_act htruthful hi hpre h,
    hJ.recorded_act env hsound hregistered htruthful hB hi hown hpre h⟩

/-- Every action whose saves replace the record on disk, by stops that saw the
child, keeps the records of the runs that are served. -/
theorem Serves.act (env : Env) (hJ : Serves w γ) (hsound : w.Sound) (hregistered : Registered w γ)
    (htruthful : Truthful w γ) (hB : Threads Buries w γ) (hi : w.alive i = true)
    (hown : ReplacesOwn w i (γ i) a) (hseen : w.SeenChild a) (hpre : Knowledge.pre a (γ i))
    (h : perform i a c w = some (r, w')) :
    Serves w' (ghosts (bridge env) Knowledge.protocol Knowledge.fresh γ i a r) where
  promoted := hJ.toRecorded.promoted_act htruthful hi hpre h
  running := hJ.running_act hsound hregistered htruthful hB hi hown hseen hpre h
  recorded := hJ.toRecorded.recorded_act env hsound hregistered htruthful hB hi hown hpre h

/-- What happens outside the bridge makes no run serve. -/
theorem Serving.disturb {e : Disturbance} (htruthful : Truthful w γ) (h : w.disturb e = some w')
    {k : ℕ} {o : Ownership} (hserving : w'.Serving k o) : w.Serving k o := by
  obtain ⟨ho, hpromoted, p, t, hp, hlive⟩ := hserving
  rw [(disturb_sameDisk h).2] at ho
  exact ⟨ho, hpromoted, p, t, hp, (disturb_ages h).live_before (htruthful.child k o p ho hp) hlive⟩

/-- What happens outside the bridge keeps every serving run recorded. -/
theorem Recorded.disturb {e : Disturbance} (hJ : Recorded w γ) (htruthful : Truthful w γ)
    (h : w.disturb e = some w') : Recorded w' γ where
  promoted k o ho := hJ.promoted k o ((disturb_sameDisk h).2 ▸ ho)
  recorded := threads_disturb h hJ.recorded fun k _ hT => by
    refine ⟨hT.child, fun og o p t d hog hrecorded ho hp hlive hd horigin => ?_⟩
    rw [(disturb_sameDisk h).2] at ho
    rw [(disturb_sameDisk h).1.metadata] at hd
    exact hT.disk og o p t d hog hrecorded ho hp
      ((disturb_ages h).live_before (htruthful.child k o p ho hp) hlive) hd horigin

/-- What happens outside the bridge loses no record of a run that serves. -/
theorem Serves.disturb {e : Disturbance} (hJ : Serves w γ) (htruthful : Truthful w γ)
    (h : w.disturb e = some w') : Serves w' γ where
  promoted := (hJ.toRecorded.disturb htruthful h).promoted
  running k o d hserving hd := by
    rw [(disturb_sameDisk h).1.metadata] at hd
    exact hJ.running k o d (hserving.disturb htruthful h) hd
  recorded := (hJ.toRecorded.disturb htruthful h).recorded

/-- Before the first action no run serves. -/
theorem recorded_fresh (requests : ℕ → Option Request) :
    Recorded (World.fresh requests) fun _ => {} where
  promoted k o ho := by cases ho
  recorded k _ := ⟨fun og hog => (by cases hog), fun og o p t d hog => (by cases hog)⟩

/-- Before the first action no record names a run that serves. -/
theorem serves_fresh (requests : ℕ → Option Request) :
    Serves (World.fresh requests) fun _ => {} where
  promoted := (recorded_fresh requests).promoted
  running k o d hserving := by cases hserving.1
  recorded := (recorded_fresh requests).recorded

end World

end IgnibyteBridge
