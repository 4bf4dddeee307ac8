import IgnibyteBridge.Session.Cleanup
import IgnibyteBridge.Session.Handles
import IgnibyteBridge.Session.Identity
import IgnibyteBridge.Session.Piping

/-!
# Readers of FIFOs

Who holds a FIFO open for reading. When the calls of owners succeed after their
promotion, an owner that is promoted reads its FIFO, itself or through its
forwarder, until its child has died.
-/

namespace IgnibyteBridge

open Concurrency

/-- Calls that an owner and its forwarder make once the run is promoted, and that
may fail. -/
def Act.mayCutOff : Act → Bool
  | .process (.attempt .dupMaster) | .process (.attempt .takeWriter) => true
  | .file (.readFifo _) | .file (.writePty ..) => true
  | _ => false

namespace World

/-- The calls of owners succeed after their promotion. -/
def OwnerCalls (_ : World) (_ : ℕ) (a : Act) (c : Choice) : Prop := a.mayCutOff = true → c.ok = true

instance (w : World) (i : ℕ) (a : Act) (c : Choice) : Decidable (w.OwnerCalls i a c) :=
  inferInstanceAs (Decidable (_ → _))

/-- A thread reads a FIFO, itself or through a forwarder. -/
def Holds (w : World) (k fifo : ℕ) : Prop :=
  ∃ j ∈ w.files.readers fifo, j = k ∨ w.files.forward j = some k

/-- A thread of the same process forwards a FIFO to the PTY of thread `k`. -/
structure Forwards (w : World) (j k : ℕ) : Prop where
  forward : w.files.forward j = some k
  life : w.life j = w.life k
  reads : ∃ fifo, j ∈ w.files.readers fifo

/-- What an owner knows about its handles is true. -/
structure OwnerHolds (w : World) (k : ℕ) (x : OwnerGrip) : Prop where
  owner : ∃ o, w.owner k = some o ∧ o.name = x.name ∧ o.child = x.child ∧ o.promoted = x.promoted
  forward : w.files.forward k = none
  host : w.hostOf k ≠ .client
  pty : ∀ p, x.pty = some p → p = k
  fifo : ∀ f, x.fifo = some f → k ∈ w.files.readers f
  held : x.promoted = true → x.waited = true ∨ x.fifo ≠ none ∨ x.forwarder ≠ none
  waited : x.waited = true → ∃ p, x.child = some p ∧ w.process p = .dead
  forwarder : ∀ j, x.forwarder = some j → x.waited = true ∨ w.Forwards j k
  stop : w.files.stop .input k = true → x.waited = true

/-- What a forwarder knows about its handles is true. -/
structure ForwarderHolds (w : World) (k fifo pty : ℕ) (stopped : Bool) : Prop where
  owner : w.owner k = none
  forward : w.files.forward k = some pty
  reads : stopped = false → k ∈ w.files.readers fifo
  stop : stopped = true → w.files.stop .input pty = true

/-- What any other thread knows is true. -/
structure OtherHolds (w : World) (k : ℕ) (daemon : Bool) : Prop where
  owner : w.owner k = none
  forward : w.files.forward k = none
  host : daemon = true → w.hostOf k = .daemon

/-- What a thread knows about FIFO handles is true, while it is alive. -/
def Gripped (w : World) (k : ℕ) (g : Grip) : Prop :=
  w.alive k = true →
    match g with
    | .other daemon => w.OtherHolds k daemon
    | .owner x => w.OwnerHolds k x
    | .forwarder fifo pty stopped => w.ForwarderHolds k fifo pty stopped

/-- Handles, forwarders and stop flags are of threads that were started. -/
structure Handled (w : World) : Prop where
  reader : ∀ fifo, ∀ j ∈ w.files.readers fifo, w.life j ≠ .unborn
  forwarder : ∀ j, w.life j = .unborn → w.files.forward j = none
  target : ∀ j p, w.files.forward j = some p → w.life p ≠ .unborn
  stop : ∀ p, w.files.stop .input p = true → w.life p ≠ .unborn

/-- What is known about FIFO handles. -/
structure Reading (w : World) (γ : ℕ → Grip) : Prop where
  sound : w.Sound
  handled : Handled w
  threads : Threads Gripped w γ

variable {w w' : World} {γ : ℕ → Grip} {i : ℕ} {a : Act} {c : Choice} {r : a.Response}

/-- An owner that serves its run is read from. -/
theorem Reading.holds (hJ : Reading w γ) {k : ℕ} {o : Ownership} (hk : w.alive k = true)
    (ho : w.owner k = some o) (hpromoted : o.promoted = true) {p t : ℕ} (hp : o.child = some p)
    (hlive : w.process p = .live t) :
    ∃ fifo, w.Holds k fifo ∧ w.hasReader fifo = true := by
  have hT := hJ.threads k hk hk
  have hreads : ∀ {j f}, j ∈ w.files.readers f → w.alive j = true → w.hasReader f = true :=
    fun hmem halive => List.any_eq_true.mpr ⟨_, hmem, halive⟩
  cases hg : γ k with
  | other daemon =>
    rw [hg] at hT
    rw [hT.owner] at ho
    cases ho
  | forwarder fifo pty stopped =>
    rw [hg] at hT
    rw [hT.owner] at ho
    cases ho
  | owner x =>
    rw [hg] at hT
    obtain ⟨o', ho', -, hchild, hpromoted'⟩ := hT.owner
    rw [ho] at ho'
    cases ho'
    have hwaited : x.waited ≠ true := by
      intro hwaited
      obtain ⟨q, hq, hdead⟩ := hT.waited hwaited
      rw [← hchild, hp] at hq
      cases hq
      rw [hlive] at hdead
      cases hdead
    rcases hT.held (hpromoted'.symm.trans hpromoted) with hw | hfifo | hforwarder
    · exact absurd hw hwaited
    · obtain ⟨f, hf⟩ := Option.ne_none_iff_exists'.mp hfifo
      have hmem := hT.fifo f hf
      exact ⟨f, ⟨k, hmem, .inl rfl⟩, hreads hmem hk⟩
    · obtain ⟨j, hj⟩ := Option.ne_none_iff_exists'.mp hforwarder
      rcases hT.forwarder j hj with hw | hforwards
      · exact absurd hw hwaited
      · obtain ⟨f, hmem⟩ := hforwards.reads
        refine ⟨f, ⟨j, hmem, .inr hforwards.forward⟩, hreads hmem ?_⟩
        simp only [World.alive, hforwards.life]
        exact hk

/-! ## What a step does to handles -/

/-- What an action does to the handles of FIFOs. -/
inductive HandleMove (w : World) (i : ℕ) : (a : Act) → a.Response → World → Prop
  | same {a : Act} {r : a.Response} {w' : World} (readers : w'.files.readers = w.files.readers)
    (forward : w'.files.forward = w.files.forward)
    (stop : w'.files.stop .input = w.files.stop .input) : HandleMove w i a r w'
  | opened (name : String) (fifo : ℕ) (path : w.files.fifo name = some fifo) :
    HandleMove w i (.file (.openFifo name)) (some fifo) { w with
      files := { w.files with
        readers := Function.update w.files.readers fifo (i :: w.files.readers fifo) } }
  | closed (fifo : ℕ) : HandleMove w i (.file (.closeFifo fifo)) () { w with
      files := { w.files with readers := closeReader w.files fifo i } }
  | passed (fifo pty j : ℕ) (unborn : w.life j = .unborn) :
    HandleMove w i (.process (.spawnForward fifo pty)) j { w with
      life := w.spawnThread j (w.hostOf i)
      files := { w.files with
        readers := Files.passFifo w.files fifo i j
        forward := Function.update w.files.forward j (some pty) } }
  | stopped (pty : ℕ) : HandleMove w i (.file (.storeStop .input pty)) () { w with
      files := { w.files with
        stop := Function.update w.files.stop .input
          (Function.update (w.files.stop .input) pty true) } }

/-- What an action can do to the descriptors of the FIFOs. -/
theorem handleMove (h : perform i a c w = some (r, w')) : HandleMove w i a r w' := by
  cases a with
  | disk a =>
    rw [perform] at h
    have hfiles := performDisk_files h
    exact .same (by rw [hfiles]) (by rw [hfiles]) (by rw [hfiles])
  | process a =>
    cases a
    case spawnForward fifo pty =>
      simp only [perform, performProcess] at h
      split at h <;> cases h
      next hunborn => exact .passed fifo pty _ hunborn
    all_goals
      simp only [perform, performProcess] at h
      (try split at h) <;> (try split at h) <;> cases h <;> exact .same rfl rfl rfl
  | file a =>
    obtain ⟨f, hperform, rfl⟩ := perform_file h
    cases a
    case openFifo name =>
      simp only [performFile] at hperform
      split at hperform <;> cases hperform
      · next fifo _ hpath => exact .opened name fifo hpath
      · exact .same rfl rfl rfl
    case closeFifo fifo =>
      cases hperform
      exact .closed fifo
    case storeStop worker pty =>
      cases hperform
      cases worker with
      | input => exact .stopped pty
      | output => exact .same rfl rfl rfl
    all_goals
      simp only [performFile, createLog] at hperform
      (try split at hperform) <;> (try split at hperform) <;> (try split at hperform) <;>
        cases hperform <;> exact .same rfl rfl rfl

/-- Only a thread itself ends it. -/
theorem perform_life_kept (h : perform i a c w = some (r, w')) {k : ℕ} (hborn : w.life k ≠ .unborn)
    (hk : k ≠ i ∨ (a ≠ .process .leave ∧ a ≠ .process .processExit)) : w'.life k = w.life k := by
  have hspawn : ∀ {j : ℕ} {host : Host}, w.life j = .unborn → w.spawnThread j host k = w.life k := by
    intro j host hj
    refine Function.update_of_ne ?_ ..
    rintro rfl
    exact hborn hj
  cases a with
  | disk a => rw [(performDisk_sameMachine h).life]
  | file a =>
    obtain ⟨f, -, rfl⟩ := perform_file h
    rfl
  | process a =>
    cases a
    case spawnSupervisor name cwd cmd =>
      simp only [perform, performProcess] at h
      split at h
      · split at h <;> cases h
        next hfresh => exact hspawn hfresh.1
      · cases h
        rfl
    case leave =>
      cases h
      exact Function.update_of_ne (hk.resolve_right fun hne => hne.1 rfl) ..
    case processExit =>
      simp only [perform, performProcess] at h
      split at h <;> cases h
      · exact Function.update_of_ne (hk.resolve_right fun hne => hne.2 rfl) ..
      · rfl
      · rfl
    case childKill pid =>
      cases h
      split <;> rfl
    all_goals
      simp only [perform, performProcess] at h
      (try split at h) <;> (try split at h) <;> cases h <;>
        first | rfl | (next hfresh => exact hspawn hfresh)

/-- A thread that survives an action stays in its process. -/
theorem perform_life_alive (h : perform i a c w = some (r, w')) {k : ℕ}
    (hborn : w.life k ≠ .unborn) (hk : w'.alive k = true) : w'.life k = w.life k := by
  rcases perform_life_born h hborn with hsame | hgone
  · exact hsame
  · simp [World.alive, hgone] at hk

/-- The host of a live thread is the process it lives in. -/
theorem hostOf_of_live {k : ℕ} {host : Host} (h : w.life k = .live host) : w.hostOf k = host := by
  simp only [World.hostOf, h]

/-- Where a thread's life stays, so does its host. -/
theorem hostOf_of_life {k : ℕ} (h : w'.life k = w.life k) : w'.hostOf k = w.hostOf k := by
  simp only [World.hostOf, h]

/-- A process that was killed is not live. -/
theorem kill_ne_live (w : World) (pid t : ℕ) : w.kill pid pid ≠ .live t := by
  unfold kill
  split
  · simp
  · next hdead =>
    intro hlive
    exact hdead (by simp [processAlive, hlive])

/-- A thread that ends is not alive any more. -/
theorem not_alive_of_end (h : perform i a c w = some (r, w'))
    (ha : a = .process .leave ∨ a = .process .processExit) : w'.alive i = false := by
  rcases ha with rfl | rfl
  · cases h
    simp [World.alive]
  · simp only [perform, performProcess] at h
    unfold World.hostOf at h
    split at h
    · cases h
      simp [World.alive]
    · next hhost =>
      cases h
      split at hhost
      · next host hlife =>
        subst hhost
        simp [World.alive, hlife, hostAlive]
      · cases hhost
    · next pid hhost =>
      cases h
      split at hhost
      · next host hlife =>
        subst hhost
        simp only [World.alive, hlife, hostAlive]
        split
        · next t hlive => exact absurd hlive (kill_ne_live w pid t)
        · rfl
      · cases hhost

/-- A reader keeps what another thread does not close. -/
theorem HandleMove.reader (hmove : HandleMove w i a r w') {k : ℕ} (hk : k ≠ i) {fifo : ℕ}
    (hmem : k ∈ w.files.readers fifo) : k ∈ w'.files.readers fifo := by
  have herase : ∀ x : ℕ, k ∈ (w.files.readers x).erase i ↔ k ∈ w.files.readers x := fun x =>
    List.mem_erase_of_ne hk
  cases hmove with
  | same readers forward stop => rwa [readers]
  | opened name x path =>
    by_cases hx : fifo = x
    · subst hx
      simpa using .inr hmem
    · simpa [hx] using hmem
  | closed x =>
    by_cases hx : fifo = x
    · subst hx
      simpa [closeReader, herase] using hmem
    · simpa [closeReader, hx] using hmem
  | passed x pty j unborn =>
    by_cases hx : fifo = x
    · subst hx
      simpa [Files.passFifo, herase] using .inr hmem
    · simpa [Files.passFifo, hx] using hmem
  | stopped pty => exact hmem

/-- A thread reads what it read before, what it opens now, or what is passed on to it. -/
theorem HandleMove.reader_back (hmove : HandleMove w i a r w') {k fifo : ℕ}
    (hmem : k ∈ w'.files.readers fifo) : k ∈ w.files.readers fifo ∨
      (k = i ∧ ∃ name, a = .file (.openFifo name) ∧ w.files.fifo name = some fifo) ∨
      ∃ pty, a = .process (.spawnForward fifo pty) ∧ w.life k = .unborn ∧ w'.life k ≠ .unborn ∧
        w'.files.forward k = some pty := by
  cases hmove with
  | same readers forward stop => exact .inl (readers ▸ hmem)
  | opened name x path =>
    by_cases hx : fifo = x
    · subst hx
      simp only [Function.update_self, List.mem_cons] at hmem
      rcases hmem with rfl | hmem
      · exact .inr (.inl ⟨rfl, name, rfl, path⟩)
      · exact .inl hmem
    · simp only [Function.update_of_ne hx] at hmem
      exact .inl hmem
  | closed x =>
    left
    by_cases hx : fifo = x
    · subst hx
      simp only [closeReader, Function.update_self] at hmem
      exact List.mem_of_mem_erase hmem
    · simpa only [closeReader, Function.update_of_ne hx] using hmem
  | passed x pty j unborn =>
    by_cases hx : fifo = x
    · subst hx
      simp only [Files.passFifo, Function.update_self, List.mem_cons] at hmem
      rcases hmem with rfl | hmem
      · exact .inr (.inr ⟨pty, rfl, unborn, spawnThread_ne_unborn _ _ _, Function.update_self ..⟩)
      · exact .inl (List.mem_of_mem_erase hmem)
    · simp only [Files.passFifo, Function.update_of_ne hx] at hmem
      exact .inl hmem
  | stopped pty => exact .inl hmem

/-- A thread forwards for whom it did before, or it is started now to do so. -/
theorem HandleMove.forward_back (hmove : HandleMove w i a r w') {k p : ℕ}
    (hforward : w'.files.forward k = some p) :
    w.files.forward k = some p ∨ ∃ fifo, a = .process (.spawnForward fifo p) ∧ w.life k = .unborn := by
  cases hmove with
  | same readers forward stop => exact .inl (forward ▸ hforward)
  | opened name x path => exact .inl hforward
  | closed x => exact .inl hforward
  | passed x pty j unborn =>
    by_cases hj : k = j
    · subst hj
      simp only [Function.update_self, Option.some.injEq] at hforward
      subst hforward
      exact .inr ⟨x, rfl, unborn⟩
    · simp only [Function.update_of_ne hj] at hforward
      exact .inl hforward
  | stopped pty => exact .inl hforward

/-! ## Threads keep what they hold -/

/-- What a thread relies on, but for the FIFOs that it reads. -/
structure Kept (w w' : World) (k : ℕ) : Prop where
  forward : w'.files.forward k = w.files.forward k
  life : w'.life k = w.life k
  dead : ∀ p, w.process p = .dead → w'.process p = .dead
  forwards : ∀ j, w.Forwards j k → w.files.stop .input k = true ∨ w'.Forwards j k

/-- A thread that forwards input is a forwarder. -/
theorem Gripped.forwarder {k p : ℕ} {g : Grip} (hT : Gripped w k g) (hk : w.alive k = true)
    (hforward : w.files.forward k = some p) :
    ∃ fifo stopped, g = .forwarder fifo p stopped ∧ w.ForwarderHolds k fifo p stopped := by
  cases g with
  | other daemon =>
    rw [(hT hk).forward] at hforward
    cases hforward
  | owner x =>
    rw [(hT hk).forward] at hforward
    cases hforward
  | forwarder fifo pty stopped =>
    have hholds := hT hk
    rw [hholds.forward] at hforward
    cases hforward
    exact ⟨fifo, stopped, rfl, hholds⟩

/-- A forwarder of a live owner goes on reading until it is told to stop. -/
theorem Reading.forwards_act (hJ : Reading w γ) (hi : w.alive i = true) (hpre : Grip.pre a (γ i))
    (h : perform i a c w = some (r, w')) {j k : ℕ} (hlife : w'.life k = w.life k)
    (hforwards : w.Forwards j k) : w.files.stop .input k = true ∨ w'.Forwards j k := by
  obtain ⟨hforward, hsame, fifo, hmem⟩ := hforwards
  have hborn : w.life j ≠ .unborn := hJ.handled.reader fifo j hmem
  have hforward' : w'.files.forward j = some k :=
    (perform_forward h fun hunborn => absurd hunborn hborn).trans hforward
  by_cases hji : j = i
  · subst hji
    obtain ⟨f, stopped, hg, hholds⟩ := (hJ.threads j hi).forwarder hi hforward
    cases stopped with
    | true => exact .inl (hholds.stop rfl)
    | false =>
      right
      rw [hg] at hpre
      refine ⟨hforward', ?_, f, ?_⟩
      · rw [hlife, perform_life_kept h hborn (.inr ⟨?_, ?_⟩), hsame]
        · rintro rfl
          cases hpre
        · rintro rfl
          exact hpre
      · have hreads := hholds.reads rfl
        cases handleMove h with
        | same readers forward stop => rwa [readers]
        | opened name x path =>
          obtain ⟨_, _, hne⟩ := hpre
          cases hne
        | closed x => cases hpre
        | passed x pty j unborn =>
          obtain ⟨_, hne, -⟩ := hpre
          cases hne
        | stopped pty => exact hreads
  · exact .inr ⟨hforward', by rw [hlife, perform_life_kept h hborn (.inl hji), hsame], fifo,
      (handleMove h).reader hji hmem⟩

/-- A living thread that was born keeps its FIFO over the actions of others. -/
theorem Reading.kept (hJ : Reading w γ) (hi : w.alive i = true) (hpre : Grip.pre a (γ i))
    (h : perform i a c w = some (r, w')) {k : ℕ} (hborn : w.life k ≠ .unborn)
    (hk : w'.alive k = true) : Kept w w' k where
  forward := perform_forward h fun hunborn => absurd hunborn hborn
  life := perform_life_alive h hborn hk
  dead _ hp := (perform_ages hJ.sound h).dead hp
  forwards _ := hJ.forwards_act hi hpre h (perform_life_alive h hborn hk)

/-- An owner whose record of itself stays keeps what it holds. -/
theorem OwnerHolds.keep {k : ℕ} {x : OwnerGrip} (hT : w.OwnerHolds k x) (hkept : Kept w w' k)
    (howner : ∃ o, w'.owner k = some o ∧ o.name = x.name ∧ o.child = x.child ∧
      o.promoted = x.promoted)
    (hreads : ∀ fifo, x.fifo = some fifo → k ∈ w'.files.readers fifo)
    (hstop : w'.files.stop .input k = true → w.files.stop .input k = true) :
    w'.OwnerHolds k x where
  owner := howner
  forward := hkept.forward.trans hT.forward
  host := by
    rw [hostOf_of_life hkept.life]
    exact hT.host
  pty := hT.pty
  fifo := hreads
  held := hT.held
  waited hwaited := by
    obtain ⟨p, hp, hdead⟩ := hT.waited hwaited
    exact ⟨p, hp, hkept.dead p hdead⟩
  forwarder j hj := by
    rcases hT.forwarder j hj with hwaited | hforwards
    · exact .inl hwaited
    · exact (hkept.forwards j hforwards).imp hT.stop id
  stop hset := hT.stop (hstop hset)

/-- A thread that owns nothing does not come to own anything. -/
theorem owner_none_kept (h : perform i a c w = some (r, w')) {k : ℕ} (hborn : w.life k ≠ .unborn)
    (ho : w.owner k = none) : w'.owner k = none := by
  cases ownerMove h with
  | same owner => rw [owner, ho]
  | adopt m save owner =>
    rw [owner]
    exact owner_map_none _ ho
  | promote m save owner =>
    rw [owner]
    exact owner_map_none _ ho
  | child p spawned owner unborn born =>
    rw [owner]
    exact owner_map_none _ ho
  | spawn j o child promoted owner unborn =>
    rw [owner, Function.update_of_ne ?_, ho]
    rintro rfl
    exact hborn unborn

/-- Another thread's handle outlives a step that keeps it. -/
theorem OtherHolds.keep {k : ℕ} {daemon : Bool} (hT : w.OtherHolds k daemon) (hkept : Kept w w' k)
    (howner : w'.owner k = none) : w'.OtherHolds k daemon where
  owner := howner
  forward := hkept.forward.trans hT.forward
  host hdaemon := by
    rw [hostOf_of_life hkept.life]
    exact hT.host hdaemon

/-- A stop flag is set by the owner of its PTY, when the child has died. -/
theorem Reading.stop_act (hJ : Reading w γ) (hi : w.alive i = true) (hpre : Grip.pre a (γ i))
    (h : perform i a c w = some (r, w')) {p : ℕ} (hset : w'.files.stop .input p = true) :
    w.files.stop .input p = true ∨ (p = i ∧ ∃ x, γ i = .owner x ∧ x.waited = true) := by
  cases handleMove h with
  | same readers forward stop => exact .inl (stop ▸ hset)
  | opened name fifo path => exact .inl hset
  | closed fifo => exact .inl hset
  | passed fifo pty j unborn => exact .inl hset
  | stopped pty =>
    obtain ⟨x, hg, hpty, hwaited⟩ := hpre
    have hT := hJ.threads i hi hi
    rw [hg] at hT
    by_cases hp : p = pty
    · exact .inr ⟨hp.trans (hT.pty pty hpty), x, hg, hwaited⟩
    · simp only [Function.update_self, Function.update_of_ne hp] at hset
      exact .inl hset

/-- A thread keeps what it holds while another one acts. -/
theorem Reading.other_act (hJ : Reading w γ) (hi : w.alive i = true) (hpre : Grip.pre a (γ i))
    (h : perform i a c w = some (r, w')) {k : ℕ} (hk : k ≠ i) (halive : w.alive k = true) :
    Gripped w' k (γ k) := by
  intro halive'
  have hborn := alive_ne_unborn halive
  have hkept := hJ.kept hi hpre h hborn halive'
  have howner := perform_owner_other h hk hborn
  have hT := hJ.threads k halive halive
  cases hg : γ k with
  | other daemon =>
    rw [hg] at hT
    exact OtherHolds.keep hT hkept (howner.trans hT.owner)
  | owner x =>
    rw [hg] at hT
    refine OwnerHolds.keep hT hkept (howner ▸ hT.owner)
      (fun fifo hfifo => (handleMove h).reader hk (hT.fifo fifo hfifo)) fun hset => ?_
    exact (hJ.stop_act hi hpre h hset).resolve_right fun hmine => hk hmine.1
  | forwarder fifo pty stopped =>
    rw [hg] at hT
    exact ⟨howner.trans hT.owner, hkept.forward.trans hT.forward,
      fun hgoing => (handleMove h).reader hk (hT.reads hgoing), fun hstopped =>
        perform_stop h (hT.stop hstopped)⟩

/-- A thread that owns nothing learns nothing about handles. -/
theorem Reading.self_other (hJ : Reading w γ) (hi : w.alive i = true) {daemon : Bool}
    (hg : γ i = .other daemon) (hpre : Grip.pre a (γ i)) (h : perform i a c w = some (r, w')) :
    Gripped w' i (.other daemon) := by
  intro halive'
  have hT := hJ.threads i hi hi
  rw [hg] at hT
  exact OtherHolds.keep hT (hJ.kept hi hpre h (alive_ne_unborn hi) halive')
    (owner_none_kept h (alive_ne_unborn hi) hT.owner)

/-- A forwarder learns when it has been told to stop. -/
theorem Reading.self_forwarder (hJ : Reading w γ) (hi : w.alive i = true) {fifo pty : ℕ}
    {stopped : Bool} (hg : γ i = .forwarder fifo pty stopped) (hpre : Grip.pre a (γ i))
    (h : perform i a c w = some (r, w')) :
    Gripped w' i (Grip.post a (.forwarder fifo pty stopped) r) := by
  have hborn := alive_ne_unborn hi
  have hT := hJ.threads i hi hi
  rw [hg] at hT hpre
  have howner := owner_none_kept h hborn hT.owner
  have hforward := (perform_forward h fun hunborn => absurd hunborn hborn).trans hT.forward
  by_cases ha : ∃ worker p, a = .file (.loadStop worker p)
  · obtain ⟨worker, p, rfl⟩ := ha
    obtain ⟨rfl, rfl⟩ := hpre
    intro _
    cases h
    refine ⟨howner, hforward, fun hgoing => hT.reads ?_, id⟩
    cases stopped with
    | true => exact (hT.stop rfl).symm.trans hgoing
    | false => rfl
  · have hpost : Grip.post a (.forwarder fifo pty stopped) r = .forwarder fifo pty stopped := by
      unfold Grip.post
      split <;> first | rfl | simp_all
    rw [hpost]
    intro _
    refine ⟨howner, hforward, fun hgoing => ?_, fun hstopped => perform_stop h (hT.stop hstopped)⟩
    have hreads := hT.reads hgoing
    cases handleMove h with
    | same readers forward stop => rwa [readers]
    | opened name x path =>
      obtain ⟨_, _, hne⟩ := hpre
      cases hne
    | closed x => exact Bool.noConfusion (hgoing.symm.trans hpre)
    | passed x p j unborn =>
      obtain ⟨_, hne, -⟩ := hpre
      cases hne
    | stopped p => exact hreads

/-- An owner keeps its session, its child unless it spawns one, and its state unless
it is promoted. -/
theorem owner_own (h : perform i a c w = some (r, w')) (hborn : w.life i ≠ .unborn) {o : Ownership}
    (ho : w.owner i = some o) :
    ∃ o', w'.owner i = some o' ∧ o'.name = o.name ∧
      (o'.child = o.child ∨ ∃ command cwd path, a = .process (.spawnCommand command cwd path)) ∧
      (o'.promoted = o.promoted ∨ ∃ m, (.promote, m) ∈ a.saves) := by
  have hmap : ∀ f : Ownership → Ownership, w'.owner = Function.update w.owner i ((w.owner i).map f) →
      w'.owner i = some (f o) := by
    intro f howner
    rw [howner, Function.update_self, ho]
    rfl
  cases ownerMove h with
  | same owner => exact ⟨o, owner ▸ ho, rfl, .inl rfl, .inl rfl⟩
  | adopt m save owner => exact ⟨_, hmap _ owner, rfl, .inl rfl, .inl rfl⟩
  | promote m save owner => exact ⟨_, hmap _ owner, rfl, .inl rfl, .inr ⟨m, save⟩⟩
  | child p spawned owner unborn born => exact ⟨_, hmap _ owner, rfl, .inr spawned, .inl rfl⟩
  | spawn k o' child promoted owner unborn =>
    refine ⟨o, ?_, rfl, .inl rfl, .inl rfl⟩
    rw [owner, Function.update_of_ne ?_, ho]
    rintro rfl
    exact hborn unborn

/-- Actions that have nothing to do with handles change nothing about an owner's. -/
theorem Reading.self_aside (hJ : Reading w γ) (hi : w.alive i = true) {x : OwnerGrip}
    (hg : γ i = .owner x) (ha : Grip.aside a = true) (h : perform i a c w = some (r, w')) :
    Gripped w' i (.owner x) := by
  intro halive'
  have hborn := alive_ne_unborn hi
  have hT := hJ.threads i hi hi
  rw [hg] at hT
  have hpre : Grip.pre a (γ i) := Grip.pre_of_aside ha
  refine OwnerHolds.keep hT (hJ.kept hi hpre h hborn halive') ?_ ?_ ?_
  · obtain ⟨o, ho, hname, hchild, hpromoted⟩ := hT.owner
    obtain ⟨o', ho', hname', hchild', hpromoted'⟩ := owner_own h hborn ho
    refine ⟨o', ho', hname'.trans hname, ?_, ?_⟩
    · rcases hchild' with hsame | ⟨command, cwd, path, rfl⟩
      · exact hsame.trans hchild
      · cases ha
    · rcases hpromoted' with hsame | ⟨m, hmem⟩
      · exact hsame.trans hpromoted
      · obtain rfl := eq_of_saves hmem
        cases ha
  · intro fifo hfifo
    have hmem := hT.fifo fifo hfifo
    cases handleMove h with
    | same readers forward stop => rwa [readers]
    | opened name y path => cases ha
    | closed y => cases ha
    | passed y pty j unborn => cases ha
    | stopped pty => cases ha
  · intro hset
    cases handleMove h with
    | same readers forward stop => exact stop ▸ hset
    | opened name y path => cases ha
    | closed y => cases ha
    | passed y pty j unborn => cases ha
    | stopped pty => cases ha

/-- A thread that is alive lives in its host. -/
theorem life_of_alive {k : ℕ} (hk : w.alive k = true) : w.life k = .live (w.hostOf k) := by
  unfold World.alive at hk
  unfold World.hostOf
  split at hk
  · next host hhost => rw [hhost]
  · cases hk

/-- A handle passed on is read by the forwarder that it is passed to. -/
theorem OwnerHolds.pass {x : OwnerGrip} {fifo pty r : ℕ} (hT : w.OwnerHolds i x)
    (hi : w.alive i = true) (hpty : x.pty = some pty)
    (h : perform i (.process (.spawnForward fifo pty)) c w = some (r, w')) :
    w'.OwnerHolds i { x with fifo := none, forwarder := some r } := by
  obtain rfl := hT.pty pty hpty
  simp only [perform, performProcess] at h
  split at h <;> cases h
  next hunborn =>
  have hne : pty ≠ c.thread := by
    rintro rfl
    exact alive_ne_unborn hi hunborn
  have hlife : w.spawnThread c.thread (w.hostOf pty) pty = w.life pty := Function.update_of_ne hne ..
  refine ⟨hT.owner, ?_, ?_, hT.pty, fun f hf => (by cases hf), fun _ => .inr (.inr (by simp)),
    hT.waited, fun j hj => .inr ?_, hT.stop⟩
  · exact (Function.update_of_ne hne ..).trans hT.forward
  · rw [hostOf_of_life hlife]
    exact hT.host
  · cases hj
    refine ⟨Function.update_self .., ?_, fifo, ?_⟩
    · exact (Function.update_self ..).trans ((life_of_alive hi).symm.trans hlife.symm)
    · simp [Files.passFifo]

/-- A promotion is made by an owner that reads its FIFO. -/
theorem OwnerHolds.promote {x : OwnerGrip} {m : SessionMetadata} {r : Except String Unit}
    (hT : w.OwnerHolds i x) (hfifo : x.fifo ≠ none)
    (h : perform i (.disk (.saveMetadata .promote m)) c w = some (r, w')) :
    w'.OwnerHolds i (match r with | .ok _ => { x with promoted := true } | .error _ => x) := by
  rcases performDisk_save h with ⟨u, rfl, rfl⟩ | ⟨e, rfl, rfl⟩
  · obtain ⟨o, ho, hname, hchild, -⟩ := hT.owner
    refine ⟨⟨{ o with promoted := true }, ?_, hname, hchild, rfl⟩, hT.forward, hT.host, hT.pty,
      hT.fifo, fun _ => .inr (.inl hfifo), hT.waited, fun j hj => ?_, hT.stop⟩
    · change Function.update w.owner i _ i = _
      rw [Function.update_self, ho]
      rfl
    · exact (hT.forwarder j hj).imp id fun hf => ⟨hf.forward, hf.life, hf.reads⟩
  · exact hT

/-- An owner spawns its child before it opens its FIFO. -/
theorem OwnerHolds.spawnCommand {name : String} {pty : Option ℕ} {command : List String}
    {cwd : String} {path r : Option _} (hT : w.OwnerHolds i { name := name, pty := pty })
    (h : perform i (.process (.spawnCommand command cwd path)) c w = some (r, w')) :
    w'.OwnerHolds i { name := name, pty := pty, child := r } := by
  simp only [perform, performProcess] at h
  split at h
  · split at h <;> cases h
    obtain ⟨o, ho, hname, -, hpromoted⟩ := hT.owner
    refine ⟨⟨{ o with child := some c.pid }, ?_, hname, rfl, hpromoted⟩, hT.forward, hT.host, hT.pty,
      hT.fifo, hT.held, fun h => (by cases h), fun j hj => (by cases hj), hT.stop⟩
    change Function.update w.owner i _ i = _
    rw [Function.update_self, ho]
    rfl
  · cases h
    exact hT

/-- An owner opens its FIFO before it is promoted. -/
theorem OwnerHolds.openFifo {name : String} {pty child : Option ℕ} {r : Option ℕ}
    (hT : w.OwnerHolds i { name := name, pty := pty, child := child })
    (h : perform i (.file (.openFifo name)) c w = some (r, w')) :
    w'.OwnerHolds i { name := name, pty := pty, child := child, fifo := r } := by
  obtain ⟨f, hperform, rfl⟩ := perform_file h
  refine ⟨?_, ?_, hT.host, hT.pty, fun fifo hfifo => ?_, fun h => (by cases h), hT.waited,
    fun j hj => (by cases hj), ?_⟩
  all_goals
    simp only [performFile] at hperform
    split at hperform <;> cases hperform
  · exact hT.owner
  · exact hT.owner
  · exact hT.forward
  · exact hT.forward
  · cases hfifo
    simp
  · cases hfifo
  · exact hT.stop
  · exact hT.stop

/-- An owner closes its FIFO only before it is promoted. -/
theorem OwnerHolds.closeFifo {x : OwnerGrip} {fifo : ℕ} {r : Unit} (hT : w.OwnerHolds i x)
    (hpromoted : x.promoted = false)
    (h : perform i (.file (.closeFifo fifo)) c w = some (r, w')) :
    w'.OwnerHolds i { x with fifo := none } := by
  cases h
  refine ⟨hT.owner, hT.forward, hT.host, hT.pty, fun f hf => (by cases hf),
    fun h => Bool.noConfusion (h.symm.trans hpromoted), hT.waited, fun j hj => ?_, hT.stop⟩
  refine (hT.forwarder j hj).imp id fun hf => ⟨hf.forward, hf.life, ?_⟩
  obtain ⟨f, hmem⟩ := hf.reads
  refine ⟨f, HandleMove.reader (.closed fifo) ?_ hmem⟩
  rintro rfl
  cases hT.forward.symm.trans hf.forward

/-- An owner whose child has died is rid of its handles. -/
theorem OwnerHolds.childWait {x : OwnerGrip} {child : ℕ} {r : Option (String × ℕ)}
    (hT : w.OwnerHolds i x) (hchild : x.child = some child)
    (h : perform i (.process (.childWait child)) c w = some (r, w')) :
    w'.OwnerHolds i { x with waited := true } := by
  simp only [perform, performProcess] at h
  split at h <;> cases h
  next hdead =>
  exact ⟨hT.owner, hT.forward, hT.host, hT.pty, hT.fifo, fun _ => .inl rfl,
    fun _ => ⟨child, hchild, hdead⟩, fun _ _ => .inl rfl, fun _ => rfl⟩

/-- What an owner learns about its handles is true. -/
theorem Reading.self_owner (hJ : Reading w γ) (hi : w.alive i = true) {x : OwnerGrip}
    (hg : γ i = .owner x) (hpre : Grip.pre a (γ i)) (h : perform i a c w = some (r, w')) :
    Gripped w' i (Grip.post a (.owner x) r) := by
  have hT := hJ.threads i hi hi
  rw [hg] at hT
  by_cases ha : Grip.aside a = true
  · rw [Grip.post_of_aside ha]
    exact hJ.self_aside hi hg ha h
  rw [hg] at hpre
  intro halive'
  cases a with
  | disk a =>
    cases a
    case saveMetadata site m =>
      cases site
      case promote =>
        have hafter := OwnerHolds.promote hT hpre h
        cases r <;> exact hafter
      all_goals exact absurd rfl ha
    all_goals exact absurd rfl ha
  | process a =>
    cases a
    case spawnOwner name cwd cmd clientPath generation => cases hpre
    case openPty rows cols =>
      cases h
      refine ⟨hT.owner, hT.forward, hT.host, fun p hp => ?_, hT.fifo, hT.held, hT.waited,
        hT.forwarder, hT.stop⟩
      dsimp only at hp
      split at hp <;> cases hp
      rfl
    case spawnCommand command cwd path =>
      obtain ⟨name, pty, hx⟩ := hpre
      cases hx
      exact OwnerHolds.spawnCommand hT h
    case spawnForward fifo pty =>
      obtain ⟨y, hy, -, hpty⟩ := hpre
      cases hy
      exact OwnerHolds.pass hT hi hpty h
    case childWait pid =>
      obtain ⟨y, hy, hchild⟩ := hpre
      cases hy
      exact OwnerHolds.childWait hT hchild h
    case leave => exact Bool.noConfusion ((not_alive_of_end h (.inl rfl)).symm.trans halive')
    case processExit => exact Bool.noConfusion ((not_alive_of_end h (.inr rfl)).symm.trans halive')
    all_goals exact absurd rfl ha
  | file a =>
    cases a
    case openFifo name =>
      obtain ⟨pty, child, hx⟩ := hpre
      cases hx
      exact OwnerHolds.openFifo hT h
    case closeFifo fifo => exact OwnerHolds.closeFifo hT hpre h
    case loadStop worker pty =>
      cases h
      exact hT
    case storeStop worker pty =>
      cases worker with
      | output => exact absurd rfl ha
      | input =>
        obtain ⟨y, hy, -, hwaited⟩ := hpre
        cases hy
        cases h
        exact ⟨hT.owner, hT.forward, hT.host, hT.pty, hT.fifo, hT.held, hT.waited,
          fun _ _ => .inl hwaited, fun _ => hwaited⟩
    all_goals exact absurd rfl ha

/-- What a new thread is told about handles is true. -/
theorem Reading.fresh_act {env : Env} (hJ : Reading w γ) (hi : w.alive i = true)
    (hpre : Grip.pre a (γ i)) (h : perform i a c w = some (r, w')) {k : ℕ} {p : Prog ThreadResult}
    (hlaunched : launched env a r = some (k, p)) : Gripped w' k (Grip.fresh a (γ i) r) := by
  have hunborn := launched_unborn h hlaunched
  have hforward := hJ.handled.forwarder k hunborn
  have hnone := hJ.sound.unborn k hunborn
  have hstop : w.files.stop .input k = true → False := fun hset => hJ.handled.stop k hset hunborn
  intro _
  cases a with
  | disk a => cases hlaunched
  | file a => cases hlaunched
  | process a =>
    cases a
    case spawnSupervisor name cwd cmd =>
      simp only [perform, performProcess] at h
      split at h
      · split at h <;> cases h
        cases hlaunched
        refine ⟨⟨_, Function.update_self .., rfl, rfl, rfl⟩, hforward, ?_, fun p hp => (by cases hp),
          fun f hf => (by cases hf), fun h => (by cases h), fun h => (by cases h),
          fun j hj => (by cases hj), fun hset => (hstop hset).elim⟩
        rw [hostOf_of_live (Function.update_self ..)]
        simp
      · cases h
        cases hlaunched
    case spawnOwner name cwd cmd clientPath generation =>
      have hT := hJ.threads i hi hi
      rw [hpre] at hT
      simp only [perform, performProcess] at h
      split at h <;> cases h
      cases hlaunched
      refine ⟨⟨_, Function.update_self .., rfl, rfl, rfl⟩, hforward, ?_, fun p hp => (by cases hp),
        fun f hf => (by cases hf), fun h => (by cases h), fun h => (by cases h),
        fun j hj => (by cases hj), fun hset => (hstop hset).elim⟩
      rw [hostOf_of_live (Function.update_self ..), hT.host rfl]
      simp
    case spawnCapture name pty rows cols =>
      simp only [perform, performProcess] at h
      split at h <;> cases h
      cases hlaunched
      exact ⟨hnone, hforward, fun h => (by cases h)⟩
    case spawnForward fifo pty =>
      simp only [perform, performProcess] at h
      split at h <;> cases h
      cases hlaunched
      refine ⟨hnone, Function.update_self .., fun _ => ?_, fun h => (by cases h)⟩
      simp [Files.passFifo]
    all_goals cases hlaunched

/-- Handles stay with threads that were started. -/
theorem Reading.handled_act (hJ : Reading w γ) (hi : w.alive i = true) (hpre : Grip.pre a (γ i))
    (h : perform i a c w = some (r, w')) : Handled w' := by
  have hborn := (perform_ages hJ.sound h).born
  have hforward : ∀ j, w'.life j = .unborn → w'.files.forward j = none := by
    intro j hj
    have hunborn : w.life j = .unborn := by
      by_contra hne
      exact hborn j hne hj
    rw [perform_forward h fun _ => hj, hJ.handled.forwarder j hunborn]
  refine ⟨fun fifo j hj => ?_, hforward, fun j p hp => ?_, fun p hp => ?_⟩
  · rcases (handleMove h).reader_back hj with hold | ⟨rfl, -⟩ | ⟨pty, -, -, hnew, -⟩
    · exact hborn j (hJ.handled.reader fifo j hold)
    · exact hborn j (alive_ne_unborn hi)
    · exact hnew
  · rcases (handleMove h).forward_back hp with hold | ⟨fifo, rfl, -⟩
    · exact hborn p (hJ.handled.target j p hold)
    · obtain ⟨y, hg, -, hpty⟩ := hpre
      have hT := hJ.threads i hi hi
      rw [hg] at hT
      rw [hT.pty p hpty]
      exact hborn i (alive_ne_unborn hi)
  · rcases hJ.stop_act hi hpre h hp with hold | ⟨rfl, -⟩
    · exact hborn p (hJ.handled.stop p hold)
    · exact hborn p (alive_ne_unborn hi)

/-- The calls that owners rely on succeed. -/
theorem OwnerCalls.fact {g : Grip} (hok : w.OwnerCalls i a c)
    (h : perform i a c w = some (r, w')) : Grip.fact a g r := by
  cases a with
  | disk a => trivial
  | process a =>
    cases a
    case attempt step =>
      cases h
      cases step
      case dupMaster => exact hok rfl
      case takeWriter => exact hok rfl
      all_goals trivial
    all_goals trivial
  | file a =>
    obtain ⟨f, hperform, -⟩ := perform_file h
    cases a
    case readFifo fifo =>
      simp only [performFile, hok rfl] at hperform
      cases hperform
      exact Option.some_ne_none _
    case writePty pty bytes =>
      cases hperform
      exact hok rfl
    all_goals trivial

/-- Every action of owners whose calls succeed keeps what threads hold. -/
theorem Reading.act (env : Env) (hJ : Reading w γ) (hi : w.alive i = true)
    (hpre : Grip.pre a (γ i)) (h : perform i a c w = some (r, w')) :
    Reading w' (ghosts (bridge env) Grip.discipline Grip.fresh γ i a r) where
  sound := perform_sound hJ.sound h
  handled := hJ.handled_act hi hpre h
  threads := by
    refine threads_step env hJ.sound hi h hJ.threads (fun _ => ?_)
      (fun k hk halive _ => hJ.other_act hi hpre h hk halive) fun k p => hJ.fresh_act hi hpre h
    change Gripped w' i (Grip.post a (γ i) r)
    cases hg : γ i with
    | other daemon =>
      rw [Grip.post_other]
      exact hJ.self_other hi hg hpre h
    | owner x => exact hJ.self_owner hi hg hpre h
    | forwarder fifo pty stopped => exact hJ.self_forwarder hi hg hpre h

/-- What a disturbance leaves of handles and threads. -/
theorem disturb_handles {e : Disturbance} (h : w.disturb e = some w') :
    w'.files.readers = w.files.readers ∧ w'.files.stop = w.files.stop ∧
      ∀ k, w'.life k = w.life k ∨ (w.life k = .live .client ∧ w'.life k = .gone) := by
  cases e with
  | clientKilled i =>
    simp only [World.disturb] at h
    split at h <;> cases h
    next hclient =>
    refine ⟨rfl, rfl, fun k => ?_⟩
    by_cases hk : k = i
    · subst hk
      exact .inr ⟨hclient, Function.update_self ..⟩
    · exact .inl (Function.update_of_ne hk ..)
  | processDies pid =>
    cases h
    exact ⟨rfl, rfl, fun _ => .inl rfl⟩
  | print pty bytes =>
    cases h
    exact ⟨rfl, rfl, fun _ => .inl rfl⟩
  | discard fifo =>
    obtain ⟨-, rfl⟩ := disturb_discard h
    exact ⟨rfl, rfl, fun _ => .inl rfl⟩

/-- What happens outside the bridge opens and closes no descriptor of a living thread. -/
theorem Reading.disturb {e : Disturbance} (hJ : Reading w γ) (h : w.disturb e = some w') :
    Reading w' γ := by
  obtain ⟨hreaders, hstop, hlife⟩ := disturb_handles h
  obtain ⟨-, howner⟩ := disturb_sameDisk h
  obtain ⟨-, -, -, -, -, -, -, hforward, hunborn⟩ := disturb_files h
  have hborn : ∀ k, w.life k ≠ .unborn → w'.life k ≠ .unborn := fun k hk hk' => hk (hunborn k hk')
  refine ⟨disturb_sound hJ.sound h, ⟨fun fifo j hj => ?_, fun j hj => ?_, fun j p hp => ?_,
    fun p hp => ?_⟩, threads_disturb h hJ.threads fun k hk hT halive' => ?_⟩
  · exact hborn j (hJ.handled.reader fifo j (hreaders ▸ hj))
  · rw [hforward]
    exact hJ.handled.forwarder j (hunborn j hj)
  · exact hborn p (hJ.handled.target j p (hforward ▸ hp))
  · exact hborn p (hJ.handled.stop p (hstop ▸ hp))
  · have hsame : w'.life k = w.life k := by
      rcases hlife k with hsame | ⟨-, hgone⟩
      · exact hsame
      · simp [World.alive, hgone] at halive'
    replace hT := hT hk
    cases hg : γ k with
    | other daemon =>
      rw [hg] at hT
      refine ⟨(congrFun howner k).trans hT.owner, (congrFun hforward k).trans hT.forward, fun hd => ?_⟩
      rw [hostOf_of_life hsame]
      exact hT.host hd
    | forwarder fifo pty stopped =>
      rw [hg] at hT
      refine ⟨(congrFun howner k).trans hT.owner, (congrFun hforward k).trans hT.forward,
        fun hgoing => ?_, fun hstopped => ?_⟩
      · rw [hreaders]
        exact hT.reads hgoing
      · rw [hstop]
        exact hT.stop hstopped
    | owner x =>
      rw [hg] at hT
      refine OwnerHolds.keep hT ⟨congrFun hforward k, hsame, fun _ => (disturb_ages h).dead,
        fun j hf => .inr ⟨(congrFun hforward j).trans hf.forward, ?_, ?_⟩⟩ ?_ (fun f hf => ?_)
        fun hset => hstop ▸ hset
      · -- A forwarder of an owner is in no client.
        rcases hlife j with hsame' | ⟨hclient, -⟩
        · rw [hsame', hsame, hf.life]
        · exact absurd (hostOf_of_live (hf.life.symm.trans hclient)) hT.host
      · rw [hreaders]
        exact hf.reads
      · rw [howner]
        exact hT.owner
      · rw [hreaders]
        exact hT.fifo f hf

/-- Before the first action no FIFO is open. -/
theorem reading_fresh (requests : ℕ → Option Request) :
    Reading (World.fresh requests) fun k => Grip.asked (requests k) where
  sound := (excluded_fresh requests).sound
  handled :=
    ⟨fun fifo j hj => (by cases hj), fun _ _ => rfl, fun j p hp => (by cases hp),
      fun p hp => by cases hp⟩
  threads k hk _ := by
    refine ⟨rfl, rfl, fun hdaemon => ?_⟩
    obtain ⟨request, hrequest, hvia⟩ := (Option.any_eq_true _ _).mp hdaemon
    simp [World.hostOf, World.fresh, hrequest, hvia]

/-- When the calls of owners succeed, what threads know about handles is true. -/
theorem reading_of_reaches {env : Env} {requests : ℕ → Option Request}
    {s : Config Act Act.Response ThreadResult World}
    (h : (bridge env).Reaches OwnerCalls (boot env requests) s) :
    Outlined Grip.discipline Grip.Finished Reading s := by
  refine h.outline (Grip.covers env) ⟨?_, ?_⟩
    ⟨_, reading_fresh requests, Grip.follows_boot env requests⟩
  · intro w γ i a c r w' hJ hi hok hpre hperform
    exact ⟨hok.fact hperform, hJ.act env hi hpre hperform⟩
  · intro w γ e w' hJ hdisturb
    exact hJ.disturb hdisturb

end World

end IgnibyteBridge
