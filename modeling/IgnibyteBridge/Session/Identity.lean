import IgnibyteBridge.Session.Starts

/-!
# Identified processes

A recorded child is a process with the recorded start time, or it is dead, and
what a thread knows about processes is true: identities do not change hands. A
child that a thread takes for dead is dead as long as the start times of live
children can be read.
-/

namespace IgnibyteBridge

open Concurrency

namespace World

/-- The child that a record names is a process with the recorded start time, or dead. -/
def Identified (w : World) (m : SessionMetadata) : Prop :=
  ∀ p, m.childPid = some p → ∃ t, m.childStartTime = some t ∧
    (w.process p = .live t ∨ w.process p = .dead)

/-- What a thread knows is true. -/
structure Informed (w : World) (k : ℕ) (g : Knowledge) : Prop where
  owner : g.owner.map OwnerGhost.view = (w.owner k).map Ownership.view
  copy : ∀ n c, g.locked = some (n, some c) → c ∈ g.known
  known : ∀ m ∈ g.known, w.Identified m
  gone : ∀ p ∈ g.gone, w.process p ≠ .unborn
  identities : ∀ x ∈ g.identities, w.process x.1 = .live x.2 ∨ w.process x.1 = .dead

/-- The records on disk and what the threads know name processes truly. -/
structure Truthful (w : World) (γ : ℕ → Knowledge) : Prop where
  disk : ∀ n m, w.metadata n = some m → w.Identified m
  child : ∀ k o p, w.owner k = some o → o.child = some p → w.process p ≠ .unborn
  threads : Threads Informed w γ

variable {w w' : World} {γ : ℕ → Knowledge} {i : ℕ}

/-- A process that had a token has it as long as it lives. -/
theorem Ages.identity (hages : w.Ages w') {p t : ℕ}
    (h : w.process p = .live t ∨ w.process p = .dead) :
    w'.process p = .live t ∨ w'.process p = .dead := by
  have hborn : w.process p ≠ .unborn := by
    rcases h with h | h <;> simp [h]
  rcases hages.process p hborn with hsame | hdead
  · rwa [hsame]
  · exact .inr hdead

/-- A process that was started was started. -/
theorem Ages.born_process (hages : w.Ages w') {p : ℕ} (hp : w.process p ≠ .unborn) :
    w'.process p ≠ .unborn := by
  rcases hages.process p hp with hsame | hdead
  · rwa [hsame]
  · simp [hdead]

/-- A record that names processes rightly still does. -/
theorem Identified.ages {m : SessionMetadata} (h : w.Identified m) (hages : w.Ages w') :
    w'.Identified m := by
  intro p hp
  obtain ⟨t, ht, hprocess⟩ := h p hp
  exact ⟨t, ht, hages.identity hprocess⟩

/-- What a thread knows stays true, however the machine ages. -/
theorem Informed.ages {k : ℕ} {g : Knowledge} (h : Informed w k g) (hages : w.Ages w')
    (howner : w'.owner k = w.owner k) : Informed w' k g where
  owner := by rw [howner]; exact h.owner
  copy := h.copy
  known m hm := (h.known m hm).ages hages
  gone p hp := hages.born_process (h.gone p hp)
  identities x hx := hages.identity (h.identities x hx)

/-- What an action does to the owners of runs. -/
inductive OwnerMove (w : World) (i : ℕ) (a : Act) (w' : World) : Prop
  | same (owner : w'.owner = w.owner)
  | adopt (m : SessionMetadata) (save : (.supervisor, m) ∈ a.saves)
    (owner : w'.owner = Function.update w.owner i
      ((w.owner i).map fun o => { o with generation := some m.generation }))
  | promote (m : SessionMetadata) (save : (.promote, m) ∈ a.saves)
    (owner : w'.owner = Function.update w.owner i
      ((w.owner i).map fun o => { o with promoted := true }))
  | child (p : ℕ) (spawned : ∃ command cwd path, a = .process (.spawnCommand command cwd path))
    (owner : w'.owner = Function.update w.owner i
      ((w.owner i).map fun o => { o with child := some p }))
    (unborn : w.process p = .unborn) (born : w'.process p ≠ .unborn)
  | spawn (k : ℕ) (o : Ownership) (child : o.child = none) (promoted : o.promoted = false)
    (owner : w'.owner = Function.update w.owner k (some o)) (unborn : w.life k = .unborn)
    (spawns : a.spawns = some o.name)

/-- What an action changes about owners. -/
theorem ownerMove {a : Act} {c : Choice} {r : a.Response} (h : perform i a c w = some (r, w')) :
    OwnerMove w i a w' := by
  cases a with
  | file a =>
    obtain ⟨f, -, rfl⟩ := perform_file h
    exact .same rfl
  | disk a =>
    cases a
    case saveMetadata site m =>
      rcases performDisk_save h with ⟨u, -, rfl⟩ | ⟨e, -, rfl⟩
      · cases site
        case supervisor => exact .adopt m rfl rfl
        case promote => exact .promote m rfl rfl
        all_goals exact .same rfl
      · exact .same rfl
    all_goals
      simp only [perform, performDisk] at h
      (try split at h) <;> cases h <;> exact .same rfl
  | process a =>
    cases a
    case spawnSupervisor name cwd cmd =>
      simp only [perform, performProcess] at h
      split at h
      · split at h <;> cases h
        next hunborn => exact .spawn _ _ rfl rfl rfl hunborn.1 rfl
      · cases h
        exact .same rfl
    case spawnOwner name cwd cmd clientPath generation =>
      simp only [perform, performProcess] at h
      split at h <;> cases h
      next hunborn => exact .spawn _ _ rfl rfl rfl hunborn rfl
    case spawnCommand command cwd path =>
      simp only [perform, performProcess] at h
      split at h
      · split at h <;> cases h
        next hunborn => exact .child c.pid ⟨command, cwd, path, rfl⟩ rfl hunborn (by simp)
      · cases h
        exact .same rfl
    case childKill pid =>
      cases h
      split <;> exact .same rfl
    all_goals
      simp only [perform, performProcess] at h
      (try split at h) <;> cases h <;> exact .same rfl

/-- No action changes what another thread owns. -/
theorem perform_owner_other {a : Act} {c : Choice} {r : a.Response}
    (h : perform i a c w = some (r, w')) {k : ℕ} (hk : k ≠ i) (hborn : w.life k ≠ .unborn) :
    w'.owner k = w.owner k := by
  cases ownerMove h with
  | same owner => rw [owner]
  | adopt m save owner => rw [owner, Function.update_of_ne hk]
  | promote m save owner => rw [owner, Function.update_of_ne hk]
  | child p spawned owner unborn born => rw [owner, Function.update_of_ne hk]
  | spawn j o child promoted owner unborn =>
    have hkj : k ≠ j := by
      rintro rfl
      exact hborn unborn
    rw [owner, Function.update_of_ne hkj]

/-- An owner's child was its child before, or was just spawned. -/
theorem OwnerMove.child_cases {a : Act} (hmove : OwnerMove w i a w') {k p : ℕ} {o : Ownership}
    (ho : w'.owner k = some o) (hp : o.child = some p) :
    (w.process p = .unborn ∧ w'.process p ≠ .unborn) ∨
      ∃ o₀, w.owner k = some o₀ ∧ o₀.child = some p := by
  have hmap : ∀ {f : Ownership → Ownership},
      w'.owner = Function.update w.owner i ((w.owner i).map f) →
      (∀ o, (f o).child = o.child) → ∃ o₀, w.owner k = some o₀ ∧ o₀.child = some p := by
    intro f howner hf
    rw [howner] at ho
    by_cases hk : k = i
    · subst hk
      rw [Function.update_self] at ho
      obtain ⟨o₀, ho₀, rfl⟩ := Option.map_eq_some_iff.mp ho
      exact ⟨o₀, ho₀, (hf o₀).symm.trans hp⟩
    · rw [Function.update_of_ne hk] at ho
      exact ⟨o, ho, hp⟩
  cases hmove with
  | same owner => exact .inr ⟨o, owner ▸ ho, hp⟩
  | adopt m save owner => exact .inr (hmap owner fun _ => rfl)
  | promote m save owner => exact .inr (hmap owner fun _ => rfl)
  | child q spawned owner unborn born =>
    rw [owner] at ho
    by_cases hk : k = i
    · subst hk
      rw [Function.update_self] at ho
      obtain ⟨o₀, ho₀, rfl⟩ := Option.map_eq_some_iff.mp ho
      cases hp
      exact .inl ⟨unborn, born⟩
    · rw [Function.update_of_ne hk] at ho
      exact .inr ⟨o, ho, hp⟩
  | spawn j o' child promoted owner unborn =>
    rw [owner] at ho
    by_cases hk : k = j
    · subst hk
      rw [Function.update_self] at ho
      cases ho
      rw [child] at hp
      cases hp
    · rw [Function.update_of_ne hk] at ho
      exact .inr ⟨o, ho, hp⟩

/-- A thread may learn that a process is gone. -/
theorem Informed.bury {k : ℕ} {g : Knowledge} (h : Informed w k g) {p : ℕ} {b : Bool}
    (hp : b = true → w.process p ≠ .unborn) : Informed w k (if b then g.bury p else g) := by
  cases b with
  | false => exact h
  | true =>
    refine ⟨h.owner, h.copy, h.known, fun q hq => ?_, h.identities⟩
    rcases List.mem_cons.mp hq with rfl | hq
    · exact hp rfl
    · exact h.gone q hq

/-- A process is identified by a record that is known. -/
theorem mem_of_identifies {g : Knowledge} {p : ℕ} {startTime : Option ℕ}
    (h : g.identifies p startTime = true) :
    ∃ m ∈ g.known, m.childPid = some p ∧ m.childStartTime = startTime := by
  obtain ⟨m, hm, hmatch⟩ := List.any_eq_true.mp h
  simp only [Bool.and_eq_true, decide_eq_true_eq] at hmatch
  exact ⟨m, hm, hmatch⟩

/-- A process with a token was started. -/
theorem ne_unborn_of_identified {p t : ℕ} (h : w.process p = .live t ∨ w.process p = .dead) :
    w.process p ≠ .unborn := by
  rcases h with h | h <;> simp [h]

/-- `pid_is_ours` denies an identified process whose start time it can read only
when the process is dead. -/
theorem dead_of_pidIsOurs {p t : ℕ} (h : w.process p = .live t ∨ w.process p = .dead)
    (hours : w.pidIsOurs true (some p) (some t) = false) : w.process p = .dead := by
  rcases h with h | h
  · simp [pidIsOurs, processAlive, processStartTime, h] at hours
  · exact h

/-- A process with a token is dead once it was killed. -/
theorem kill_dead {p t : ℕ} (h : w.process p = .live t ∨ w.process p = .dead) :
    w.kill p p = .dead := by
  rcases h with h | h
  · simp [kill, processAlive, h]
  · simp [kill, processAlive, h]

/-- What a thread learns from an action on processes is true. -/
theorem Informed.process {a : ProcessAct} {c : Choice} {r : a.Response} (hsound : w.Sound)
    (hi : w.alive i = true) {g : Knowledge} (hT : Informed w i g)
    (hchild : ∀ o p, w.owner i = some o → o.child = some p → w.process p ≠ .unborn)
    (h : performProcess i a c w = some (r, w')) :
    Informed w' i (Knowledge.post (.process a) g r) := by
  have hages := performProcess_ages hsound h
  have hmine : ∀ o, w.life c.thread = .unborn → Function.update w.owner c.thread o i = w.owner i := by
    intro o hunborn
    refine Function.update_of_ne ?_ ..
    rintro rfl
    exact alive_ne_unborn hi hunborn
  cases a
  case processStartTime p =>
    cases h
    cases hstart : w.processStartTime c.ok p with
    | some t =>
      refine ⟨hT.owner, hT.copy, hT.known, hT.gone, fun x hx => ?_⟩
      rcases List.mem_cons.mp hx with rfl | hx
      · unfold processStartTime at hstart
        split at hstart
        · next t' hlive =>
          split at hstart <;> cases hstart
          exact .inl hlive
        · cases hstart
      · exact hT.identities x hx
    | none =>
      refine hT.bury fun hmine => ?_
      obtain ⟨o, ho, hp⟩ := (Option.any_eq_true _ _).mp hmine
      obtain ⟨o', ho', hview⟩ : ∃ o', w.owner i = some o' ∧ o.view = o'.view := by
        have hview := hT.owner
        rw [ho] at hview
        obtain ⟨o', ho', heq⟩ := Option.map_eq_some_iff.mp hview.symm
        exact ⟨o', ho', heq.symm⟩
      have hpid : o'.child = some p := by
        have hsame := congrArg (fun v => v.2.2) hview
        exact hsame.symm.trans (of_decide_eq_true hp)
      exact hchild o' p ho' hpid
  case pidIsOurs pid startTime =>
    cases h
    cases pid with
    | none => exact hT
    | some p =>
      cases hours : w.pidIsOurs c.ok (some p) startTime with
      | true => exact hT
      | false =>
        refine hT.bury fun hidentifies => ?_
        obtain ⟨m, hm, hpid, -⟩ := mem_of_identifies hidentifies
        obtain ⟨t, -, hprocess⟩ := hT.known m hm p hpid
        exact ne_unborn_of_identified hprocess
  case terminatePid p =>
    simp only [performProcess] at h
    split at h <;> cases h
    · refine (hT.ages hages rfl).bury fun hnames => ?_
      obtain ⟨m, hm, hpid⟩ := List.any_eq_true.mp hnames
      obtain ⟨t, -, hprocess⟩ := hT.known m hm p (of_decide_eq_true hpid)
      have hdead : w.kill p p = .dead := kill_dead hprocess
      simp [hdead]
    · exact hT
  case childWait p =>
    simp only [performProcess] at h
    split at h <;> cases h
    next hdead =>
    exact hT.bury (b := true) fun _ => by simp [hdead]
  case childKill p =>
    cases h
    refine hT.ages hages ?_
    split <;> rfl
  case spawnSupervisor name cwd cmd =>
    simp only [performProcess] at h
    split at h
    · split at h <;> cases h
      next hunborn =>
      have hT' := hT.ages hages (hmine _ hunborn.1)
      exact ⟨hT'.owner, hT'.copy, hT'.known, hT'.gone, hT'.identities⟩
    · cases h
      exact hT
  case spawnOwner name cwd cmd clientPath generation =>
    simp only [performProcess] at h
    split at h <;> cases h
    next hunborn =>
    have hT' := hT.ages hages (hmine _ hunborn)
    exact ⟨hT'.owner, hT'.copy, hT'.known, hT'.gone, hT'.identities⟩
  case spawnCommand command cwd path =>
    simp only [performProcess] at h
    split at h
    · split at h <;> cases h
      have hview : (g.owner.map fun o => { o with child := some c.pid }).map OwnerGhost.view =
          (Function.update w.owner i ((w.owner i).map fun o => { o with child := some c.pid }) i).map
            Ownership.view := by
        rw [Function.update_self]
        have hview := hT.owner
        revert hview
        cases g.owner <;> cases w.owner i <;> simp [OwnerGhost.view, Ownership.view]
        exact fun hname hgeneration _ => ⟨hname, hgeneration⟩
      exact ⟨hview, hT.copy, fun m hm => (hT.known m hm).ages hages,
        fun p hp => hages.born_process (hT.gone p hp),
        fun x hx => hages.identity (hT.identities x hx)⟩
    · cases h
      exact hT
  all_goals
    simp only [performProcess] at h
    (try split at h) <;> cases h <;> exact hT.ages hages rfl

/-- The owner's own view of what it learned when it saved a record. -/
theorem view_map {g : Option OwnerGhost} {o : Option Ownership}
    (h : g.map OwnerGhost.view = o.map Ownership.view) {f : OwnerGhost → OwnerGhost}
    {e : Ownership → Ownership} (hf : ∀ x y, x.view = y.view → (f x).view = (e y).view) :
    (g.map f).map OwnerGhost.view = (o.map e).map Ownership.view := by
  cases g with
  | none => cases o with
    | none => rfl
    | some y => cases h
  | some x => cases o with
    | none => cases h
    | some y => exact congrArg some (hf x y (Option.some.inj h))

/-- What a thread learns from an action on records is true. -/
theorem Informed.disk {a : DiskAct} {c : Choice} {r : a.Response} {g : Knowledge}
    (hT : Informed w i g) (hdisk : ∀ n m, w.metadata n = some m → w.Identified m)
    (hpre : Knowledge.pre (.disk a) g) (h : performDisk i a c w = some (r, w')) :
    Informed w' i (Knowledge.post (.disk a) g r) := by
  have hages := performDisk_ages h
  have hsame : w'.owner i = w.owner i → Informed w' i g := fun howner => hT.ages hages howner
  cases a with
  | ensureBridgeDir name =>
    simp only [performDisk] at h
    split at h <;> cases h <;> exact hsame rfl
  | readSessions =>
    simp only [performDisk] at h
    split at h <;> cases h <;> exact hsame rfl
  | acquireStartLock name =>
    rcases performDisk_acquireStart h with ⟨rfl, -, rfl⟩ | ⟨hr, rfl⟩
    · have hT' := hsame rfl
      exact ⟨hT'.owner, hT'.copy, hT'.known, hT'.gone, hT'.identities⟩
    · cases r with
      | held => exact absurd rfl hr
      | _ => exact hT
  | acquireStatusLock name =>
    rcases performDisk_acquireStatus h with ⟨rfl, -, rfl⟩ | ⟨hr, rfl⟩
    · have hT' := hsame rfl
      exact ⟨hT'.owner, fun n c hc => (by cases hc), hT'.known, hT'.gone, hT'.identities⟩
    · cases r with
      | held => exact absurd rfl hr
      | _ => exact hT
  | dropStartLock name =>
    cases h
    have hT' := hsame rfl
    exact ⟨hT'.owner, hT'.copy, hT'.known, hT'.gone, hT'.identities⟩
  | dropStatusLock name =>
    cases h
    have hT' := hsame rfl
    exact ⟨hT'.owner, fun n c hc => (by cases hc), hT'.known, hT'.gone, hT'.identities⟩
  | loadMetadata name =>
    obtain ⟨rfl, hr⟩ := performDisk_load h
    have hT' := hsame rfl
    refine ⟨hT'.owner, fun n c hc => ?_, fun m hm => ?_, hT'.gone, hT'.identities⟩
    · obtain ⟨x, -, heq⟩ := Option.map_eq_some_iff.mp hc
      cases r with
      | error e => cases heq
      | ok m =>
        cases heq
        exact List.mem_append_left _ (List.mem_singleton_self _)
    · rcases List.mem_append.mp hm with hm | hm
      · rcases hr with ⟨-, e, rfl⟩ | ⟨m', hm', rfl | ⟨-, e, rfl⟩⟩
        · cases hm
        · cases List.mem_singleton.mp hm
          exact hdisk name m hm'
        · cases hm
      · exact hT'.known m hm
  | saveMetadata site m =>
    rcases performDisk_save h with ⟨u, rfl, rfl⟩ | ⟨e, rfl, rfl⟩
    · have hcopy : ∀ n c, (some (m.name, none) : Option (String × Option SessionMetadata)) =
          some (n, some c) → c ∈ g.known := fun n c hc => (by cases hc)
      cases site with
      | initial => exact ⟨hT.owner, hT.copy, hT.known, hT.gone, hT.identities⟩
      | supervisor =>
        refine ⟨?_, hcopy, hT.known, hT.gone, hT.identities⟩
        change _ = (Function.update w.owner i _ i).map _
        rw [Function.update_self]
        refine view_map hT.owner fun x y hxy => ?_
        simp only [OwnerGhost.view, Ownership.view, Prod.mk.injEq] at hxy ⊢
        exact ⟨hxy.1, trivial, hxy.2.2⟩
      | child =>
        refine ⟨?_, hcopy, hT.known, hT.gone, hT.identities⟩
        have hview := view_map (f := fun o => { o with recorded := true }) (e := id) hT.owner
          fun x y hxy => hxy
        rwa [Option.map_id] at hview
      | promote =>
        refine ⟨?_, hcopy, hT.known, hT.gone, hT.identities⟩
        change _ = (Function.update w.owner i _ i).map _
        rw [Function.update_self]
        have hview := view_map (f := id) (e := fun o => { o with promoted := true }) hT.owner
          fun x y hxy => hxy
        rwa [Option.map_id] at hview
      | stopped by_ => exact ⟨hT.owner, hcopy, hT.known, hT.gone, hT.identities⟩
    · exact hT

/-- A record that replaces a true one, with what its thread knows, is true. -/
theorem Informed.mayReplace {g : Knowledge} (hT : Informed w i g) {n : String}
    {c m : SessionMetadata} {site : Site} (hlocked : g.locked = some (n, some c))
    (hreplace : g.MayReplace c m site) : w.Identified m := by
  have hc : w.Identified c := hT.known c (hT.copy n c hlocked)
  cases site with
  | initial => exact hreplace.elim
  | supervisor =>
    obtain ⟨o, pid, t, -, -, -, rfl⟩ := hreplace
    exact hc
  | child =>
    obtain ⟨o, pid, t, command, -, -, -, -, -, rfl, -, hidentity⟩ := hreplace
    intro p hp
    cases t with
    | none => cases hp
    | some t =>
      cases hp
      exact ⟨t, rfl, hT.identities _ (hidentity t rfl)⟩
  | promote =>
    obtain ⟨o, -, -, -, -, -, rfl⟩ := hreplace
    exact hc
  | stopped by_ =>
    obtain ⟨-, -, es, ec, rfl⟩ := hreplace
    exact hc

/-- A new thread knows what it owns, and nothing else. -/
theorem informed_fresh {env : Env} {a : Act} {c : Choice} {r : a.Response} {g : Knowledge} {k : ℕ}
    {p : Prog ThreadResult} (hsound : w.Sound) (h : perform i a c w = some (r, w'))
    (hlaunched : launched env a r = some (k, p)) : Informed w' k (Knowledge.fresh a g r) := by
  have hunborn := launched_unborn h hlaunched
  have hnothing : w'.owner k = w.owner k → ∀ {g'}, g' = ({} : Knowledge) → Informed w' k g' := by
    rintro howner g' rfl
    rw [hsound.unborn k hunborn] at howner
    exact ⟨by rw [howner]; rfl, fun n c hc => (by cases hc), fun m hm => (by cases hm),
      fun p hp => (by cases hp), fun x hx => (by cases hx)⟩
  have howns : ∀ (name : String) (n : Option ℕ), w'.owner k = some ⟨name, i, n, none, false⟩ →
      Informed w' k { owner := some { name := name, generation := n } } := by
    intro name n howner
    exact ⟨by rw [howner]; rfl, fun n c hc => (by cases hc), fun m hm => (by cases hm),
      fun p hp => (by cases hp), fun x hx => (by cases hx)⟩
  cases a with
  | disk a => cases hlaunched
  | file a => cases hlaunched
  | process a =>
    cases a
    case spawnSupervisor name cwd cmd =>
      simp only [perform, performProcess] at h
      split at h
      · split at h <;> cases h
        cases hlaunched
        exact howns name none (Function.update_self ..)
      · cases h
        cases hlaunched
    case spawnOwner name cwd cmd clientPath generation =>
      simp only [perform, performProcess] at h
      split at h <;> cases h
      cases hlaunched
      exact howns name (some generation) (Function.update_self ..)
    case spawnCapture name pty rows cols =>
      simp only [perform, performProcess] at h
      split at h <;> cases h
      exact hnothing rfl rfl
    case spawnForward fifo pty =>
      simp only [perform, performProcess] at h
      split at h <;> cases h
      exact hnothing rfl rfl
    all_goals cases hlaunched

/-- Every action keeps the truth. -/
theorem Truthful.act {env : Env} {a : Act} {c : Choice} {r : a.Response} (hJ : Truthful w γ)
    (hsound : w.Sound) (hi : w.alive i = true) (hpre : Knowledge.pre a (γ i))
    (h : perform i a c w = some (r, w')) :
    Truthful w' (ghosts (bridge env) Knowledge.protocol Knowledge.fresh γ i a r) := by
  have hages := perform_ages hsound h
  have hT := hJ.threads i hi
  refine ⟨fun n m hm => ?_, fun k o p ho hp => ?_,
    threads_act env hsound hi h hJ.threads (fun _ => ?_) ?_ ?_⟩
  · rcases records_cases h with ⟨-, hmetadata, -⟩ | ⟨site, m', rfl, -, rfl⟩
    · rw [hmetadata] at hm
      exact (hJ.disk n m hm).ages hages
    · by_cases hn : n = m'.name
      · subst hn
        simp only [World.save, Function.update_self, Option.some.injEq] at hm
        subst hm
        rcases hpre with ⟨rfl, -, st, x, -, -, -, -, -, -, -, -, hchild⟩ | ⟨c', hlocked, hreplace⟩
        · intro p hp
          rw [stamp, hchild] at hp
          cases hp
        · have hidentified := hT.mayReplace hlocked hreplace
          obtain ⟨-, hsite, -, -⟩ := hreplace.keeps
          cases site
          case initial => exact absurd rfl hsite
          all_goals exact hidentified
      · rw [show (w.save i site m').metadata n = w.metadata n from Function.update_of_ne hn ..] at hm
        exact hJ.disk n m hm
  · obtain ⟨hnew, hborn⟩ | ⟨o₀, ho₀, hchild⟩ := (ownerMove h).child_cases ho hp
    · exact hborn
    · exact hages.born_process (hJ.child k o₀ p ho₀ hchild)
  · cases a with
    | file a =>
      obtain ⟨f, -, rfl⟩ := perform_file h
      exact hT.ages hages rfl
    | disk a => exact hT.disk hJ.disk hpre h
    | process a => exact hT.process hsound hi (hJ.child i) h
  · intro k hk halive hTk
    exact hTk.ages hages (perform_owner_other h hk (alive_ne_unborn halive))
  · exact fun k p hlaunched => informed_fresh hsound h hlaunched

/-- No disturbance makes a record lie. -/
theorem Truthful.disturb {e : Disturbance} (hJ : Truthful w γ) (h : w.disturb e = some w') :
    Truthful w' γ where
  disk n m hm := by
    rw [(disturb_sameDisk h).1.metadata] at hm
    exact (hJ.disk n m hm).ages (disturb_ages h)
  child k o p ho hp :=
    (disturb_ages h).born_process (hJ.child k o p ((disturb_sameDisk h).2 ▸ ho) hp)
  threads := threads_disturb h hJ.threads fun k _ hT =>
    hT.ages (disturb_ages h) (congrFun (disturb_sameDisk h).2 k)

/-- At the beginning there is no record. -/
theorem truthful_fresh (requests : ℕ → Option Request) :
    Truthful (World.fresh requests) fun _ => {} where
  disk n m hm := by cases hm
  child k o p ho := by cases ho
  threads k _ := ⟨rfl, fun n c hc => (by cases hc), fun m hm => (by cases hm),
    fun p hp => (by cases hp), fun x hx => (by cases hx)⟩

/-! ## Children taken for dead -/

/-- The process is no owner's live child. -/
def Buried (w : World) (p : ℕ) : Prop :=
  ∀ k o, w.owner k = some o → o.child = some p → w.process p = .dead

/-- Where an action asks for the start time of a live child, it can read it. -/
def Recognises (w : World) (a : Act) (c : Choice) : Prop :=
  ∀ p ∈ a.inspects, c.ok = true ∨ w.Buried p

/-- What a thread takes for dead is no live child. -/
def Buries (w : World) (_ : ℕ) (g : Knowledge) : Prop := ∀ p ∈ g.gone, w.Buried p

/-- No owner has a live child that is gone. -/
theorem Buried.not_live {p t k : ℕ} {o : Ownership} (h : w.Buried p) (ho : w.owner k = some o)
    (hp : o.child = some p) : w.process p ≠ .live t := by
  intro hlive
  cases hlive.symm.trans (h k o ho hp)

/-- A dead process is gone. -/
theorem buried_of_dead {p : ℕ} (h : w.process p = .dead) : w.Buried p := fun _ _ _ _ => h

/-- A process that was started before is not started again. -/
theorem Buried.act {a : Act} {c : Choice} {r : a.Response} {p : ℕ} (hp : w.Buried p)
    (hborn : w.process p ≠ .unborn) (hsound : w.Sound) (h : perform i a c w = some (r, w')) :
    w'.Buried p := by
  intro k o ho hchild
  rcases (ownerMove h).child_cases ho hchild with ⟨hunborn, -⟩ | ⟨o₀, ho₀, hchild₀⟩
  · exact absurd hunborn hborn
  · exact (perform_ages hsound h).dead (hp k o₀ ho₀ hchild₀)

/-- What a thread learns to be gone is gone. -/
theorem buries_bury {g : Knowledge} {p : ℕ} {b : Bool} (hg : ∀ q ∈ g.gone, w.Buried q)
    (hp : b = true → w.Buried p) : ∀ q ∈ (if b then g.bury p else g).gone, w.Buried q := by
  intro q hq
  cases b with
  | false => exact hg q hq
  | true =>
    rcases List.mem_cons.mp hq with rfl | hq
    · exact hp rfl
    · exact hg q hq

/-- What a thread learns to be dead from an action on processes is no live child. -/
theorem Buries.process {a : ProcessAct} {c : Choice} {r : a.Response} {g : Knowledge}
    (hg : ∀ p ∈ g.gone, w'.Buried p) (hT : Informed w i g)
    (hchild : ∀ k o p, w.owner k = some o → o.child = some p → w.process p ≠ .unborn)
    (hok : w.Recognises (.process a) c) (h : performProcess i a c w = some (r, w')) :
    Buries w' i (Knowledge.post (.process a) g r) := by
  cases a
  case processStartTime p =>
    cases h
    cases hstart : w.processStartTime c.ok p with
    | some t => exact hg
    | none =>
      refine buries_bury hg fun _ => (hok p rfl).elim (fun hread => ?_) id
      -- A start time that can be read is missing only where the process is dead.
      intro k o ho hp
      have hborn := hchild k o p ho hp
      unfold processStartTime at hstart
      split at hstart
      · rw [hread, if_pos rfl] at hstart
        cases hstart
      · next hnone =>
        cases hprocess : w.process p with
        | unborn => exact absurd hprocess hborn
        | live t => exact absurd hprocess (hnone t)
        | dead => rfl
  case pidIsOurs pid startTime =>
    cases h
    cases pid with
    | none => exact hg
    | some p =>
      cases hours : w.pidIsOurs c.ok (some p) startTime with
      | true => exact hg
      | false =>
        refine buries_bury hg fun hidentifies => ?_
        obtain ⟨m, hm, hpid, hstart⟩ := mem_of_identifies hidentifies
        obtain ⟨t, ht, hprocess⟩ := hT.known m hm p hpid
        rw [← hstart, ht] at hours hok
        refine (hok p rfl).elim (fun hread => ?_) id
        rw [hread] at hours
        exact buried_of_dead (dead_of_pidIsOurs hprocess hours)
  case terminatePid p =>
    simp only [performProcess] at h
    split at h <;> cases h
    · refine buries_bury hg fun hnames => ?_
      obtain ⟨m, hm, hpid⟩ := List.any_eq_true.mp hnames
      obtain ⟨t, -, hprocess⟩ := hT.known m hm p (of_decide_eq_true hpid)
      exact buried_of_dead (kill_dead hprocess)
    · exact hg
  case childWait p =>
    simp only [performProcess] at h
    split at h <;> cases h
    next hdead =>
    exact buries_bury (b := true) hg fun _ => buried_of_dead hdead
  case spawnSupervisor => cases r <;> exact hg
  case spawnCommand => cases r <;> exact hg
  all_goals exact hg

/-- Actions on records teach a thread nothing about the dead. -/
theorem post_disk_gone (a : DiskAct) (g : Knowledge) (r : a.Response) :
    (Knowledge.post (.disk a) g r).gone = g.gone := by
  cases a
  case saveMetadata site m => cases r <;> cases site <;> rfl
  all_goals cases r <;> rfl

/-- Every action that recognises the live children buries none of them. -/
theorem buries_act {env : Env} {a : Act} {c : Choice} {r : a.Response} (hB : Threads Buries w γ)
    (hJ : Truthful w γ) (hsound : w.Sound) (hi : w.alive i = true) (hok : w.Recognises a c)
    (h : perform i a c w = some (r, w')) :
    Threads Buries w' (ghosts (bridge env) Knowledge.protocol Knowledge.fresh γ i a r) := by
  have hkeep : ∀ {k}, w.alive k = true → Buries w k (γ k) → ∀ p ∈ (γ k).gone, w'.Buried p :=
    fun {k} halive hBk p hp => (hBk p hp).act ((hJ.threads k halive).gone p hp) hsound h
  refine threads_act env hsound hi h hB (fun hBi => ?_) (fun k _ halive hBk => hkeep halive hBk)
    fun k p _ => ?_
  · have hg := hkeep hi hBi
    cases a with
    | file a => exact hg
    | disk a =>
      intro p hp
      exact hg p (post_disk_gone a (γ i) r ▸ hp)
    | process a => exact Buries.process hg (hJ.threads i hi) hJ.child hok h
  · intro p hp
    unfold Knowledge.fresh at hp
    split at hp <;> cases hp

/-- No disturbance brings a process back. -/
theorem buries_disturb {e : Disturbance} (hB : Threads Buries w γ) (h : w.disturb e = some w') :
    Threads Buries w' γ :=
  threads_disturb h hB fun _ _ hBk p hp k o ho hchild => by
    rw [(disturb_sameDisk h).2] at ho
    exact (disturb_ages h).dead (hBk p hp k o ho hchild)

/-- At the beginning nothing is gone. -/
theorem buries_fresh (requests : ℕ → Option Request) :
    Threads Buries (World.fresh requests) fun _ => {} := fun _ _ p hp => by cases hp

end World

end IgnibyteBridge
