import IgnibyteBridge.Session.Orphans
import IgnibyteBridge.Session.Piping

/-!
# Delivery of input

What calls write to the FIFO of a session reaches the PTY of its run in the order
in which it was written, piece by piece. A text and its Enter are two pieces, and
other calls may write between them.
-/

namespace IgnibyteBridge

open Concurrency World

namespace World

/-- What was written to the FIFO of a session is on its PTY, in the hands of its
forwarder, or still in the FIFO, while a live thread reads the FIFO. What reached
the PTY is a front of it, and what the forwarder's writer adds when it is dropped. -/
structure Flows (env : Env) (n : String) (w : World) (γ : ℕ → Plumbing) : Prop where
  forwards : ∀ j x p, (γ j).forwards = some (x, p) →
    (γ p).forwarder = some j ∧ (γ p).fifo = some x
  /-- Nobody writes to a PTY before its forwarder starts. -/
  idle : ∀ p, (∀ j x, (γ j).forwards ≠ some (x, p)) → w.files.ptyInput p = []
  /-- Nobody writes to a FIFO before its owner opens it. -/
  unopened : ∀ x, (∀ k, (γ k).fifo ≠ some x) → w.files.writtenTo x = [] ∧ w.files.pipe x = []
  waiting : ∀ x k, w.files.fifo n = some x → w.alive k = true → (γ k).reads = some x →
    (γ k).forwards = none → w.files.writtenTo x = w.files.pipe x
  conserved : ∀ x j p, w.files.fifo n = some x → w.alive j = true → (γ j).reads = some x →
    (γ j).forwards = some (x, p) →
    w.files.writtenTo x = w.files.ptyInput p ++ w.files.inHand j ++ w.files.pipe x
  front : ∀ x j p, w.files.fifo n = some x → (γ j).forwards = some (x, p) →
    ∃ front tail eof, w.files.ptyInput p = front ++ tail ∧ front <+: w.files.writtenTo x ∧
      tail <+: env.farewell eof ∧ ((γ j).dropped = false → tail = [])

variable {env : Env} {w w' : World} {n : String} {i : ℕ} {a : Act} {c : Choice} {r : a.Response}
  {requests : ℕ → Option Request} {γ γ' : ℕ → Plumbing}

/-! ## Who reads a FIFO -/

/-- The owner of a session's FIFO owns a run of the session. -/
theorem owns_of_fifo (hT : ∀ k, Plumbed requests n w k (γ k)) {x k : ℕ}
    (hx : w.files.fifo n = some x) (hk : (γ k).fifo = some x) :
    ∃ o, w.owner k = some o ∧ o.name = n := by
  obtain ⟨m, hm, hleads⟩ := (hT k).fifo x hk
  rw [← hleads.apart n hx] at hm
  exact (hT k).own n hm

/-- One thread opens the FIFO of a session for reading. -/
theorem fifo_unique (hT : ∀ k, Plumbed requests n w k (γ k)) (howner : OneOwner n w) {x k k' : ℕ}
    (hx : w.files.fifo n = some x) (hk : (γ k).fifo = some x) (hk' : (γ k').fifo = some x) :
    k = k' := by
  obtain ⟨o, ho, hname⟩ := owns_of_fifo hT hx hk
  obtain ⟨o', ho', hname'⟩ := owns_of_fifo hT hx hk'
  exact howner k k' o o' ho ho' hname hname'

/-- The FIFO of a session has one forwarder. -/
theorem Flows.unique (hJ : Flows env n w γ) (hT : ∀ k, Plumbed requests n w k (γ k))
    (howner : OneOwner n w) {x j p j' p' : ℕ} (hx : w.files.fifo n = some x)
    (hj : (γ j).forwards = some (x, p)) (hj' : (γ j').forwards = some (x, p')) :
    j = j' ∧ p = p' := by
  obtain ⟨hforwarder, hfifo⟩ := hJ.forwards j x p hj
  obtain ⟨hforwarder', hfifo'⟩ := hJ.forwards j' x p' hj'
  obtain rfl := fifo_unique hT howner hx hfifo hfifo'
  rw [hforwarder] at hforwarder'
  exact ⟨Option.some.inj hforwarder', rfl⟩

/-- An owner that reads its FIFO itself has no forwarder. -/
theorem Flows.not_forwarded (hJ : Flows env n w γ) (hT : ∀ k, Plumbed requests n w k (γ k))
    (hG : ∀ k, Grasped w k (γ k)) (howner : OneOwner n w) {x k j p : ℕ}
    (hx : w.files.fifo n = some x) (hk : (γ k).reads = some x) (hnone : (γ k).forwards = none)
    (hj : (γ j).forwards = some (x, p)) : False := by
  obtain ⟨hforwarder, hfifo⟩ := hJ.forwards j x p hj
  rcases (hG k).handle x hk with ⟨hfifo', hnone', -⟩ | ⟨-, q, hq⟩
  · obtain rfl := fifo_unique hT howner hx hfifo hfifo'
    rw [hnone'] at hforwarder
    cases hforwarder
  · rw [hnone] at hq
    cases hq

/-- A FIFO that is read was opened. -/
theorem Flows.opened (hJ : Flows env n w γ) (hG : ∀ k, Grasped w k (γ k)) {x k : ℕ}
    (hk : (γ k).reads = some x) : ∃ q, (γ q).fifo = some x := by
  rcases (hG k).handle x hk with ⟨hfifo, -⟩ | ⟨-, p, hp⟩
  · exact ⟨k, hfifo⟩
  · exact ⟨p, (hJ.forwards k x p hp).2⟩

/-- A live thread that reads a FIFO is a reader of it. -/
theorem hasReader_of_reads (hG : ∀ k, Grasped w k (γ k)) {x k : ℕ} (hk : w.alive k = true)
    (hreads : (γ k).reads = some x) : w.hasReader x = true :=
  List.any_eq_true.mpr ⟨k, ((hG k).mem_iff x).mpr hreads, hk⟩

/-- A FIFO with a live reader is read by a thread that knows it. -/
theorem reads_of_hasReader (hG : ∀ k, Grasped w k (γ k)) {x : ℕ} (h : w.hasReader x = true) :
    ∃ k, w.alive k = true ∧ (γ k).reads = some x := by
  obtain ⟨k, hmem, halive⟩ := List.any_eq_true.mp h
  exact ⟨k, halive, ((hG k).mem_iff x).mp hmem⟩

/-- Nobody has opened a FIFO that is yet to be made. -/
theorem not_opened (hT : ∀ k, Plumbed requests n w k (γ k)) {x : ℕ}
    (hx : w.files.nextInode ≤ x) (k : ℕ) : (γ k).fifo ≠ some x := by
  intro hk
  obtain ⟨m, -, hleads⟩ := (hT k).fifo x hk
  exact absurd hleads.made (Nat.not_lt.mpr hx)

/-- A thread that reads a FIFO has been born. -/
theorem born_of_reads (hT : ∀ k, Plumbed requests n w k (γ k)) {x k : ℕ}
    (hk : (γ k).reads = some x) : w.life k ≠ .unborn := by
  intro hunborn
  rw [((hT k).unborn hunborn).2] at hk
  cases hk

/-! ## What threads know -/

/-- Threads that know what they knew, but may have closed a FIFO or dropped a writer. -/
structure Fewer (γ γ' : ℕ → Plumbing) : Prop where
  forwards : ∀ k, (γ' k).forwards = (γ k).forwards
  fifo : ∀ k, (γ' k).fifo = (γ k).fifo
  forwarder : ∀ k, (γ' k).forwarder = (γ k).forwarder
  reads : ∀ k x, (γ' k).reads = some x → (γ k).reads = some x
  dropped : ∀ k, (γ' k).dropped = false → (γ k).dropped = false

/-- A step that opens no FIFO and passes none on. -/
theorem fewer_ghosts (hT : ∀ k, Plumbed requests n w k (γ k)) (h : perform i a c w = some (r, w'))
    (hopen : ∀ name, a ≠ .file (.openFifo name))
    (hpass : ∀ fifo pty, a ≠ .process (.spawnForward fifo pty)) :
    Fewer γ (ghosts (bridge env) (Plumbing.discipline env) Plumbing.fresh γ i a r) := by
  have hsame : ∀ k,
      ((ghosts (bridge env) (Plumbing.discipline env) Plumbing.fresh γ i a r k).forwards =
        (γ k).forwards) ∧
      ((ghosts (bridge env) (Plumbing.discipline env) Plumbing.fresh γ i a r k).fifo =
        (γ k).fifo) ∧
      ((ghosts (bridge env) (Plumbing.discipline env) Plumbing.fresh γ i a r k).forwarder =
        (γ k).forwarder) ∧
      (∀ x, (ghosts (bridge env) (Plumbing.discipline env) Plumbing.fresh γ i a r k).reads = some x →
        (γ k).reads = some x) ∧
      ((ghosts (bridge env) (Plumbing.discipline env) Plumbing.fresh γ i a r k).dropped = false →
        (γ k).dropped = false) := by
    intro k
    rcases ghosts_cases (bridge env) (Plumbing.discipline env) Plumbing.fresh γ i a r k with
      ⟨p, hlaunched, heq⟩ | ⟨rfl, heq⟩ | ⟨-, heq⟩
    · rw [heq, ((hT k).unborn (launched_unborn h hlaunched)).2]
      unfold Plumbing.fresh
      split
      case h_3 => exact absurd rfl (hpass _ _)
      all_goals exact ⟨rfl, rfl, rfl, fun _ => id, id⟩
    · rw [heq]
      change (Plumbing.post a (γ k) r).forwards = _ ∧ (Plumbing.post a (γ k) r).fifo = _ ∧
        (Plumbing.post a (γ k) r).forwarder = _ ∧ (∀ x, (Plumbing.post a (γ k) r).reads = _ → _) ∧
        ((Plumbing.post a (γ k) r).dropped = _ → _)
      unfold Plumbing.post
      split
      case h_3 => exact absurd rfl (hpass _ _)
      case h_4 => exact absurd rfl (hopen _)
      case h_5 => exact ⟨rfl, rfl, rfl, fun x hx => (by cases hx), id⟩
      case h_10 => exact ⟨rfl, rfl, rfl, fun _ => id, fun hd => by cases hd⟩
      all_goals exact ⟨rfl, rfl, rfl, fun _ => id, id⟩
    · rw [heq]
      exact ⟨rfl, rfl, rfl, fun _ => id, id⟩
  exact ⟨fun k => (hsame k).1, fun k => (hsame k).2.1, fun k => (hsame k).2.2.1,
    fun k => (hsame k).2.2.2.1, fun k => (hsame k).2.2.2.2⟩

/-- The flow is as sound with fewer threads still holding a writer. -/
theorem Flows.fewer (hJ : Flows env n w γ) (h : Fewer γ γ') : Flows env n w γ' where
  forwards j x p hj := by
    rw [h.forwarder, h.fifo]
    exact hJ.forwards j x p (h.forwards j ▸ hj)
  idle p hp := hJ.idle p fun j x => h.forwards j ▸ hp j x
  unopened x hx := hJ.unopened x fun k => h.fifo k ▸ hx k
  waiting x k hx hk hreads hnone :=
    hJ.waiting x k hx hk (h.reads k x hreads) (h.forwards k ▸ hnone)
  conserved x j p hx hj hreads hforwards :=
    hJ.conserved x j p hx hj (h.reads j x hreads) (h.forwards j ▸ hforwards)
  front x j p hx hj := by
    obtain ⟨front, tail, eof, hpty, hfront, htail, hdropped⟩ :=
      hJ.front x j p hx (h.forwards j ▸ hj)
    exact ⟨front, tail, eof, hpty, hfront, htail, fun hd => hdropped (h.dropped j hd)⟩

/-! ## What an action does to input -/

/-- An action that moves nothing. -/
theorem Flows.act_still (hJ : Flows env n w γ) (hT : ∀ k, Plumbed requests n w k (γ k))
    (hG : ∀ k, Grasped w k (γ k)) (hsound : w.Sound) (h : perform i a c w = some (r, w'))
    (hmoves : moves a = false) : Flows env n w' γ := by
  obtain ⟨hinode, -, hmade⟩ := perform_relinks h
  obtain ⟨hpipe, hpieces, hinHand, hptyInput⟩ := perform_sameFlow h hmoves
  have hwritten : ∀ x, w'.files.writtenTo x = w.files.writtenTo x := by
    intro x
    simp only [Files.writtenTo, hpieces]
  have halive : ∀ {k x}, (γ k).reads = some x → w'.alive k = true → w.alive k = true :=
    fun {k x} hreads => (perform_ages hsound h).alive k (born_of_reads hT hreads)
  have hold : ∀ {x k}, w'.files.fifo n = some x → (γ k).fifo = some x → w.files.fifo n = some x := by
    intro x k hx hk
    rcases hmade n x hx with hold | ⟨rfl, -⟩
    · exact hold
    · exact absurd hk (not_opened hT (Nat.le_refl _) k)
  refine ⟨hJ.forwards, fun p hp => ?_, fun x hx => ?_, fun x k hx hk hreads hnone => ?_,
    fun x j p hx hj hreads hforwards => ?_, fun x j p hx hj => ?_⟩
  · rw [hptyInput]
    exact hJ.idle p hp
  · rw [hwritten, hpipe]
    exact hJ.unopened x hx
  · obtain ⟨q, hq⟩ := hJ.opened hG hreads
    rw [hwritten, hpipe]
    exact hJ.waiting x k (hold hx hq) (halive hreads hk) hreads hnone
  · rw [hwritten, hpipe, hptyInput, hinHand]
    exact hJ.conserved x j p (hold hx (hJ.forwards j x p hforwards).2) (halive hreads hj) hreads
      hforwards
  · rw [hwritten, hptyInput]
    exact hJ.front x j p (hold hx (hJ.forwards j x p hj).2) hj

/-- A thread that learns something keeps what this does not bear on. -/
theorem update_keeps {β : Type} (f : Plumbing → β) {g : Plumbing} (hf : f g = f (γ i)) (k : ℕ) :
    f (Function.update γ i g k) = f (γ k) := by
  by_cases hk : k = i
  · subst hk
    rw [Function.update_self, hf]
  · rw [Function.update_of_ne hk]

/-- An owner has opened the FIFO of its session, in which nobody had written. -/
theorem Flows.open_fifo (hJ : Flows env n w γ) (hT : ∀ k, Plumbed requests n w k (γ k))
    (howner : OneOwner n w) {name : String} {x : ℕ} (hunopened : (γ i).Unopened name)
    (hown : w.files.fifo n = some x → ∃ o, w.owner i = some o ∧ o.name = n) :
    Flows env n w (Function.update γ i { γ i with fifo := some x, reads := some x }) := by
  set g : Plumbing := { γ i with fifo := some x, reads := some x } with hg
  have hforwards : ∀ k, (Function.update γ i g k).forwards = (γ k).forwards :=
    update_keeps (·.forwards) rfl
  have hforwarder : ∀ k, (Function.update γ i g k).forwarder = (γ k).forwarder :=
    update_keeps (·.forwarder) rfl
  have hdropped : ∀ k, (Function.update γ i g k).dropped = (γ k).dropped :=
    update_keeps (·.dropped) rfl
  have hfifo : ∀ {k y}, (γ k).fifo = some y → k ≠ i := by
    rintro k y hk rfl
    rw [hunopened.fifo] at hk
    cases hk
  refine ⟨fun j y p hj => ?_, fun p hp => ?_, fun y hy => ?_, fun y k hy hk hreads hnone => ?_,
    fun y j p hy hj hreads hj' => ?_, fun y j p hy hj => ?_⟩
  · obtain ⟨hstarted, hopened⟩ := hJ.forwards j y p (hforwards j ▸ hj)
    rw [hforwarder, Function.update_of_ne (hfifo hopened)]
    exact ⟨hstarted, hopened⟩
  · exact hJ.idle p fun j y => hforwards j ▸ hp j y
  · refine hJ.unopened y fun k hk => hy k ?_
    rwa [Function.update_of_ne (hfifo hk)]
  · by_cases hki : k = i
    · subst hki
      rw [Function.update_self] at hreads
      cases hreads
      -- No other thread has opened the FIFO before.
      obtain ⟨hwritten, hpipe⟩ := hJ.unopened x fun q hq => by
        obtain ⟨o, ho, hname⟩ := hown hy
        obtain ⟨o', ho', hname'⟩ := owns_of_fifo hT hy hq
        exact hfifo hq (howner q k o' o ho' ho hname' hname)
      rw [hwritten, hpipe]
    · rw [Function.update_of_ne hki] at hreads hnone
      exact hJ.waiting y k hy hk hreads hnone
  · have hji : j ≠ i := by
      rintro rfl
      rw [hforwards, hunopened.forwards] at hj'
      cases hj'
    rw [Function.update_of_ne hji] at hreads hj'
    exact hJ.conserved y j p hy hj hreads hj'
  · rw [hdropped]
    exact hJ.front y j p hy (hforwards j ▸ hj)

/-- Opening the FIFO changes the notes of the opening thread only. -/
theorem ghosts_openFifo (env : Env) (γ : ℕ → Plumbing) (i : ℕ) (name : String) (r : Option ℕ) :
    ghosts (bridge env) (Plumbing.discipline env) Plumbing.fresh γ i (.file (.openFifo name)) r =
      Function.update γ i { γ i with fifo := r, reads := r } := rfl

/-- Spawning the forwarder hands the descriptors from the supervisor to it. -/
theorem ghosts_spawnForward (env : Env) (γ : ℕ → Plumbing) (i fifo pty r : ℕ) :
    ghosts (bridge env) (Plumbing.discipline env) Plumbing.fresh γ i
        (.process (.spawnForward fifo pty)) r =
      Function.update (Function.update γ i { γ i with forwarder := some r, reads := none }) r
        { forwards := some (fifo, pty), reads := some fifo } := rfl

/-- An owner has passed its FIFO on to its forwarder. -/
theorem Flows.pass_fifo {fifo r : ℕ} (hJ : Flows env n w γ)
    (hpre : Plumbing.pre env (.process (.spawnForward fifo i)) (γ i)) (hi : w.alive i = true)
    (hforwards : (γ i).forwards = none) (hr : γ r = {}) (hhand : w.files.inHand r = []) :
    Flows env n w (Function.update (Function.update γ i
      { γ i with forwarder := some r, reads := none }) r
      { forwards := some (fifo, i), reads := some fifo }) := by
  obtain ⟨-, hfifo, -, hnone, hreads⟩ := hpre
  have hri : i ≠ r := by
    rintro rfl
    rw [hr] at hfifo
    cases hfifo
  set γ₁ := Function.update γ i { γ i with forwarder := some r, reads := none } with hγ₁
  set γ₂ := Function.update γ₁ r { forwards := some (fifo, i), reads := some fifo } with hγ₂
  have hnew : γ₂ r = { forwards := some (fifo, i), reads := some fifo } := Function.update_self ..
  have hself : γ₂ i = { γ i with forwarder := some r, reads := none } := by
    rw [hγ₂, Function.update_of_ne hri, hγ₁, Function.update_self]
  have hother : ∀ {k}, k ≠ r → k ≠ i → γ₂ k = γ k := by
    intro k hkr hki
    rw [hγ₂, Function.update_of_ne hkr, hγ₁, Function.update_of_ne hki]
  -- The owner had no forwarder before, so its PTY had none.
  have hfree : ∀ j x p, (γ j).forwards = some (x, p) → p ≠ i ∧ j ≠ r ∧ j ≠ i := by
    refine fun j x p hj => ⟨?_, ?_, ?_⟩
    · rintro rfl
      rw [(hJ.forwards j x p hj).1] at hnone
      cases hnone
    · rintro rfl
      rw [hr] at hj
      cases hj
    · rintro rfl
      rw [hforwards] at hj
      cases hj
  have hcases : ∀ {j x p}, (γ₂ j).forwards = some (x, p) →
      (j = r ∧ x = fifo ∧ p = i) ∨ (γ j).forwards = some (x, p) := by
    intro j x p hj
    by_cases hjr : j = r
    · subst hjr
      rw [hnew] at hj
      cases hj
      exact .inl ⟨rfl, rfl, rfl⟩
    · by_cases hji : j = i
      · subst hji
        rw [hself] at hj
        exact .inr hj
      · rw [hother hjr hji] at hj
        exact .inr hj
  have hkept : ∀ {j x p}, (γ j).forwards = some (x, p) → (γ₂ j).forwards = some (x, p) := by
    intro j x p hj
    obtain ⟨-, hjr, hji⟩ := hfree j x p hj
    rw [hother hjr hji]
    exact hj
  have hidle : w.files.ptyInput i = [] := hJ.idle i fun j x hj => (hfree j x i hj).1 rfl
  refine ⟨fun j x p hj => ?_, fun p hp => ?_, fun x hx => ?_, fun x k hx hk hreads' hnone' => ?_,
    fun x j p hx hj hreads' hj' => ?_, fun x j p hx hj => ?_⟩
  · rcases hcases hj with ⟨rfl, rfl, rfl⟩ | hj
    · rw [hself]
      exact ⟨rfl, hfifo⟩
    · obtain ⟨hstarted, hopened⟩ := hJ.forwards j x p hj
      have hpr : p ≠ r := by
        rintro rfl
        rw [hr] at hstarted
        cases hstarted
      rw [hother hpr (hfree j x p hj).1]
      exact ⟨hstarted, hopened⟩
  · exact hJ.idle p fun j x hj => hp j x (hkept hj)
  · refine hJ.unopened x fun k hk => hx k ?_
    have hkr : k ≠ r := by
      rintro rfl
      rw [hr] at hk
      cases hk
    by_cases hki : k = i
    · subst hki
      rw [hself]
      exact hk
    · rwa [hother hkr hki]
  · have hkr : k ≠ r := by
      rintro rfl
      rw [hnew] at hnone'
      cases hnone'
    have hki : k ≠ i := by
      rintro rfl
      rw [hself] at hreads'
      cases hreads'
    rw [hother hkr hki] at hreads' hnone'
    exact hJ.waiting x k hx hk hreads' hnone'
  · rcases hcases hj' with ⟨rfl, rfl, rfl⟩ | hj'
    · rw [hJ.waiting x p hx hi hreads hforwards, hidle, hhand]
      rfl
    · obtain ⟨-, hjr, hji⟩ := hfree j x p hj'
      rw [hother hjr hji] at hreads'
      exact hJ.conserved x j p hx hj hreads' hj'
  · rcases hcases hj with ⟨rfl, rfl, rfl⟩ | hj
    · exact ⟨[], [], 0, hidle, List.nil_prefix, List.nil_prefix, fun _ => rfl⟩
    · obtain ⟨-, hjr, hji⟩ := hfree j x p hj
      rw [hother hjr hji]
      exact hJ.front x j p hx hj

/-- Appended bytes reach the FIFO they were written to and no other. -/
theorem pipe_append (f : Files) (fifo : ℕ) (bytes : List UInt8) (x : ℕ) :
    Function.update f.pipe fifo (f.pipe fifo ++ bytes) x =
      f.pipe x ++ if fifo = x then bytes else [] := by
  by_cases hx : fifo = x
  · subst hx
    simp
  · simp [hx, Function.update_of_ne (Ne.symm hx)]

/-- A call writes a piece to a FIFO that is read. -/
theorem Flows.act_write {fifo : ℕ} {bytes : List UInt8} {r : Option ℕ}
    (hJ : Flows env n w γ) (hG : ∀ k, Grasped w k (γ k))
    (h : perform i (.file (.writeFifo fifo bytes)) c w = some (r, w')) : Flows env n w' γ := by
  obtain ⟨f, hperform, rfl⟩ := perform_file h
  cases r with
  | none =>
    obtain rfl := performFile_write_none hperform
    exact hJ
  | some count =>
    have hreader := performFile_write_reader hperform
    obtain ⟨-, rfl⟩ := performFile_write hperform
    -- The piece is the last that was written to its FIFO, and the last in it.
    have hwritten := writtenTo_append w.files ⟨fifo, i, bytes.take count⟩
    have hpipe := pipe_append w.files fifo (bytes.take count)
    refine ⟨hJ.forwards, hJ.idle, fun x hx => ?_, fun x k hx hk hreads hnone => ?_,
      fun x j p hx hj hreads hforwards => ?_, fun x j p hx hj => ?_⟩
    · have hne : fifo ≠ x := by
        rintro rfl
        obtain ⟨k, -, hreads⟩ := reads_of_hasReader hG hreader
        obtain ⟨q, hq⟩ := hJ.opened hG hreads
        exact hx q hq
      obtain ⟨hnothing, hempty⟩ := hJ.unopened x hx
      refine ⟨(hwritten x).trans ?_, (hpipe x).trans ?_⟩
      · rw [hnothing, if_neg hne]
        rfl
      · rw [hempty, if_neg hne]
        rfl
    · refine (hwritten x).trans ?_
      rw [hJ.waiting x k hx hk hreads hnone]
      exact (hpipe x).symm
    · refine (hwritten x).trans ?_
      rw [hJ.conserved x j p hx hj hreads hforwards, List.append_assoc]
      exact congrArg _ (hpipe x).symm
    · obtain ⟨front, tail, eof, hpty, hfront, htail, hdropped⟩ := hJ.front x j p hx hj
      refine ⟨front, tail, eof, hpty, ?_, htail, hdropped⟩
      refine hfront.trans ?_
      exact (hwritten x).symm ▸ List.prefix_append _ _

/-- A forwarder takes bytes from its FIFO. -/
theorem Flows.act_read {fifo : ℕ} {r : Option (List UInt8)} (hJ : Flows env n w γ)
    (hT : ∀ k, Plumbed requests n w k (γ k)) (hG : ∀ k, Grasped w k (γ k)) (howner : OneOwner n w)
    (hpre : Plumbing.pre env (.file (.readFifo fifo)) (γ i))
    (h : perform i (.file (.readFifo fifo)) c w = some (r, w')) : Flows env n w' γ := by
  obtain ⟨⟨pty, hpty⟩, -, hhand⟩ := hpre
  obtain ⟨f, hperform, rfl⟩ := perform_file h
  cases r with
  | none =>
    obtain rfl := performFile_read_none hperform
    exact hJ
  | some bytes =>
    obtain ⟨left, hpipe, rfl⟩ := performFile_read hperform
    refine ⟨hJ.forwards, hJ.idle, fun x hx => ?_, fun x k hx hk hreads hnone => ?_,
      fun x j p hx hj hreads hforwards => ?_, hJ.front⟩
    · have hne : x ≠ fifo := by
        rintro rfl
        exact hx pty (hJ.forwards i x pty hpty).2
      obtain ⟨hnothing, hempty⟩ := hJ.unopened x hx
      exact ⟨hnothing, (Function.update_of_ne hne ..).trans hempty⟩
    · have hne : x ≠ fifo := by
        rintro rfl
        exact hJ.not_forwarded hT hG howner hx hreads hnone hpty
      exact (hJ.waiting x k hx hk hreads hnone).trans (Function.update_of_ne hne ..).symm
    · have hbefore := hJ.conserved x j p hx hj hreads hforwards
      dsimp only
      by_cases hxf : x = fifo
      · subst hxf
        obtain ⟨rfl, rfl⟩ := hJ.unique hT howner hx hforwards hpty
        rw [(hT j).hand [] hhand, hpipe, List.append_nil] at hbefore
        rw [Function.update_self, Function.update_self, List.append_assoc]
        exact hbefore
      · have hji : j ≠ i := by
          rintro rfl
          rw [hpty] at hforwards
          cases hforwards
          exact hxf rfl
        rw [Function.update_of_ne hxf, Function.update_of_ne hji]
        exact hbefore

/-- The forwarder of another PTY is another thread. -/
theorem Flows.pty_ne (hJ : Flows env n w γ) {fifo pty x j p : ℕ}
    (hi : (γ i).forwards = some (fifo, pty)) (hj : (γ j).forwards = some (x, p)) (hji : j ≠ i) :
    p ≠ pty := by
  rintro rfl
  have hforwarder := (hJ.forwards j x p hj).1
  rw [(hJ.forwards i fifo p hi).1] at hforwarder
  exact hji (Option.some.inj hforwarder).symm

/-- A forwarder writes to its PTY. -/
theorem Flows.act_writePty {pty : ℕ} {bytes : List UInt8} {r : Bool} (hJ : Flows env n w γ)
    (hT : ∀ k, Plumbed requests n w k (γ k)) (hi : w.alive i = true)
    (hpre : Plumbing.pre env (.file (.writePty pty bytes)) (γ i))
    (h : perform i (.file (.writePty pty bytes)) c w = some (r, w')) : Flows env n w' γ := by
  obtain ⟨⟨fifo, hfifo, hreads⟩, hhand⟩ := hpre
  obtain ⟨f, hperform, rfl⟩ := perform_file h
  obtain ⟨done, left, rfl, -, rfl⟩ := performFile_writePty hperform
  have hwhole : w.files.fifo n = some fifo →
      w.files.writtenTo fifo = w.files.ptyInput pty ++ (done ++ left) ++ w.files.pipe fifo := by
    intro hx
    rw [hJ.conserved fifo i pty hx hi hreads hfifo, (hT i).hand _ hhand]
  refine ⟨hJ.forwards, fun p hp => ?_, hJ.unopened, hJ.waiting,
    fun x j p hx hj hreads' hforwards => ?_, fun x j p hx hj => ?_⟩
  · have hne : p ≠ pty := by
      rintro rfl
      exact hp i fifo hfifo
    exact (Function.update_of_ne hne ..).trans (hJ.idle p hp)
  · by_cases hji : j = i
    · subst hji
      rw [hfifo] at hforwards
      cases hforwards
      refine (hwhole hx).trans ?_
      dsimp only
      rw [Function.update_self, Function.update_self]
      simp only [List.append_assoc]
    · dsimp only
      rw [Function.update_of_ne (hJ.pty_ne hfifo hforwards hji), Function.update_of_ne hji]
      exact hJ.conserved x j p hx hj hreads' hforwards
  · by_cases hji : j = i
    · subst hji
      rw [hfifo] at hj
      cases hj
      refine ⟨w.files.ptyInput pty ++ done, [], 0, ?_, ?_, List.nil_prefix, fun _ => rfl⟩
      · exact (Function.update_self ..).trans (List.append_nil _).symm
      · refine ⟨left ++ w.files.pipe fifo, ?_⟩
        refine Eq.trans ?_ (hwhole hx).symm
        simp only [List.append_assoc]
    · dsimp only
      rw [Function.update_of_ne (hJ.pty_ne hfifo hj hji)]
      exact hJ.front x j p hx hj

/-- A forwarder that has closed its FIFO drops its PTY writer. -/
theorem Flows.act_dropWriter {pty : ℕ} {farewell : UInt8 → List UInt8} {r : Unit}
    (hJ : Flows env n w γ) (hpre : Plumbing.pre env (.file (.dropWriter pty farewell)) (γ i))
    (h : perform i (.file (.dropWriter pty farewell)) c w = some (r, w')) :
    Flows env n w' (Function.update γ i { γ i with dropped := true }) := by
  obtain ⟨rfl, hreads, hdropped, fifo, hfifo⟩ := hpre
  obtain ⟨f, hperform, rfl⟩ := perform_file h
  obtain ⟨eof, tail, htail, rfl⟩ := performFile_dropWriter hperform
  set γ' := Function.update γ i { γ i with dropped := true } with hγ'
  have hsame : ∀ k, (γ' k).reads = (γ k).reads := update_keeps (·.reads) rfl
  have hfewer : Fewer γ γ' := by
    refine ⟨update_keeps (·.forwards) rfl, update_keeps (·.fifo) rfl,
      update_keeps (·.forwarder) rfl, fun k x hk => hsame k ▸ hk, fun k hk => ?_⟩
    · by_cases hki : k = i
      · subst hki
        exact hdropped
      · rwa [hγ', Function.update_of_ne hki] at hk
  have hJ' := hJ.fewer hfewer
  have hfifo' : (γ' i).forwards = some (fifo, pty) := (hfewer.forwards i).trans hfifo
  refine ⟨hJ'.forwards, fun p hp => ?_, hJ'.unopened, hJ'.waiting,
    fun x j p hx hj hreads' hforwards => ?_, fun x j p hx hj => ?_⟩
  · have hne : p ≠ pty := by
      rintro rfl
      exact hp i fifo hfifo'
    exact (Function.update_of_ne hne ..).trans (hJ'.idle p hp)
  · have hji : j ≠ i := by
      rintro rfl
      rw [hfewer.reads j x hreads'] at hreads
      cases hreads
    dsimp only
    rw [Function.update_of_ne (hJ'.pty_ne hfifo' hforwards hji)]
    exact hJ'.conserved x j p hx hj hreads' hforwards
  · by_cases hji : j = i
    · subst hji
      rw [hfifo'] at hj
      cases hj
      obtain ⟨front, rest, -, hpty, hfront, -, hrest⟩ := hJ.front fifo j pty hx hfifo
      obtain rfl := hrest hdropped
      refine ⟨front, tail, eof, ?_, hfront, htail, fun hd => ?_⟩
      · rw [List.append_nil] at hpty
        exact (Function.update_self ..).trans (by rw [hpty])
      · rw [hγ', Function.update_self] at hd
        cases hd
    · dsimp only
      rw [Function.update_of_ne (hJ'.pty_ne hfifo' hj hji)]
      exact hJ'.front x j p hx hj

/-- An owner opens the FIFO of its session, or fails to. -/
theorem Flows.act_openFifo {name : String} {r : Option ℕ} (hJ : Flows env n w γ)
    (hT : ∀ k, Plumbed requests n w k (γ k)) (hG : ∀ k, Grasped w k (γ k)) (hsound : w.Sound)
    (hlinked : Linked w.files) (halone : w.Alone n (.file (.openFifo name)))
    (hpre : Plumbing.pre env (.file (.openFifo name)) (γ i))
    (h : perform i (.file (.openFifo name)) c w = some (r, w')) :
    Flows env n w' (Function.update γ i { γ i with fifo := r, reads := r }) := by
  obtain ⟨hunopened, -⟩ := hpre
  have hstill := hJ.act_still hT hG hsound h rfl
  obtain ⟨f, hperform, rfl⟩ := perform_file h
  have hT' : ∀ k, Plumbed requests n { w with files := f } k (γ k) := fun k =>
    (hT k).act hsound halone h (fun hunborn => hunborn) (.inr rfl)
  cases r with
  | none =>
    set γ' := Function.update γ i { γ i with fifo := none, reads := none }
    have hreads : ∀ k, (γ' k).reads = (γ k).reads :=
      update_keeps (·.reads) hunopened.reads.symm
    have hdropped : ∀ k, (γ' k).dropped = (γ k).dropped := update_keeps (·.dropped) rfl
    exact hstill.fewer ⟨update_keeps (·.forwards) rfl, update_keeps (·.fifo) hunopened.fifo.symm,
      update_keeps (·.forwarder) rfl, fun k x hk => hreads k ▸ hk, fun k hk => hdropped k ▸ hk⟩
  | some x =>
    refine hstill.open_fifo hT' halone.owner hunopened fun hx => ?_
    -- The FIFO lies at the path of the session that the owner owns.
    have hname := performFile_openFifo hperform
    obtain ⟨hr, -⟩ | ⟨y, -, rfl⟩ := performFile_openFifo_readers hperform
    · cases hr
    · obtain rfl := hlinked.apart name n x hname hx
      exact (hT i).own name hunopened.own

/-- An owner passes its FIFO on to its forwarder. -/
theorem Flows.act_spawnForward {fifo pty r : ℕ} (hJ : Flows env n w γ)
    (hT : ∀ k, Plumbed requests n w k (γ k)) (hG : ∀ k, Grasped w k (γ k)) (hsound : w.Sound)
    (hi : w.alive i = true) (hpre : Plumbing.pre env (.process (.spawnForward fifo pty)) (γ i))
    (h : perform i (.process (.spawnForward fifo pty)) c w = some (r, w')) :
    Flows env n w' (Function.update (Function.update γ i
      { γ i with forwarder := some r, reads := none }) r
      { forwards := some (fifo, pty), reads := some fifo }) := by
  have hstill := hJ.act_still hT hG hsound h rfl
  obtain rfl : pty = i := (hT i).pty pty hpre.2.2.1
  have hforwards : (γ pty).forwards = none := by
    rcases (hG pty).handle fifo hpre.2.2.2.2 with ⟨-, -, hnone⟩ | ⟨hnone, -⟩
    · exact hnone
    · rw [hpre.2.1] at hnone
      cases hnone
  simp only [perform, performProcess] at h
  split at h <;> cases h
  next hunborn =>
  have hr : γ c.thread = {} := ((hT c.thread).unborn hunborn).2
  refine hstill.pass_fifo hpre ?_ hforwards hr ((hT c.thread).hand [] (by rw [hr]))
  have hne : pty ≠ c.thread := by
    rintro rfl
    exact alive_ne_unborn hi hunborn
  rw [← hi]
  simp only [World.alive, spawnThread, Function.update_of_ne hne, hostAlive]

/-- Input flows through the FIFO of a session, whoever acts. -/
theorem Flows.act (hJ : Flows env n w γ) (hT : ∀ k, Plumbed requests n w k (γ k))
    (hG : ∀ k, Grasped w k (γ k)) (hsound : w.Sound) (hlinked : Linked w.files)
    (halone : w.Alone n a) (hi : w.alive i = true) (hpre : Plumbing.pre env a (γ i))
    (h : perform i a c w = some (r, w')) :
    Flows env n w' (ghosts (bridge env) (Plumbing.discipline env) Plumbing.fresh γ i a r) := by
  by_cases hstill : moves a = false ∧ regrasps a = false
  · obtain ⟨hmoves, hregrasps⟩ := hstill
    have hopen : ∀ name, a ≠ .file (.openFifo name) := by
      rintro name rfl
      cases hregrasps
    have hpass : ∀ fifo pty, a ≠ .process (.spawnForward fifo pty) := by
      rintro fifo pty rfl
      cases hregrasps
    exact (hJ.act_still hT hG hsound h hmoves).fewer (fewer_ghosts hT h hopen hpass)
  · cases a with
    | disk a => exact absurd ⟨rfl, rfl⟩ hstill
    | process a =>
      cases a
      case spawnForward fifo pty =>
        rw [ghosts_spawnForward]
        exact hJ.act_spawnForward hT hG hsound hi hpre h
      all_goals exact absurd ⟨rfl, rfl⟩ hstill
    | file a =>
      cases a
      case openFifo name =>
        rw [ghosts_openFifo]
        exact hJ.act_openFifo hT hG hsound hlinked halone hpre h
      case closeFifo fifo =>
        refine (hJ.act_still hT hG hsound h rfl).fewer (fewer_ghosts hT h ?_ ?_)
        · exact fun name heq => by cases heq
        · exact fun fifo pty heq => by cases heq
      case writeFifo fifo bytes =>
        refine (hJ.act_write hG h).fewer (fewer_ghosts hT h ?_ ?_)
        · exact fun name heq => by cases heq
        · exact fun fifo pty heq => by cases heq
      case readFifo fifo =>
        refine (hJ.act_read hT hG halone.owner hpre h).fewer (fewer_ghosts hT h ?_ ?_)
        · exact fun name heq => by cases heq
        · exact fun fifo pty heq => by cases heq
      case writePty pty bytes =>
        refine (hJ.act_writePty hT hi hpre h).fewer (fewer_ghosts hT h ?_ ?_)
        · exact fun name heq => by cases heq
        · exact fun fifo pty heq => by cases heq
      case dropWriter pty farewell => exact hJ.act_dropWriter hpre h
      all_goals exact absurd ⟨rfl, rfl⟩ hstill

/-- What threads know about input, and where input is. -/
structure Delivered (env : Env) (requests : ℕ → Option Request) (n : String) (w : World)
    (γ : ℕ → Plumbing) : Prop where
  sound : w.Sound
  linked : Linked w.files
  plumbed : ∀ k, Plumbed requests n w k (γ k)
  grasped : ∀ k, Grasped w k (γ k)
  flows : Flows env n w γ

/-- One action of any thread keeps the account of every piece that was written. -/
theorem Delivered.act (hJ : Delivered env requests n w γ) (halone : w.Alone n a)
    (hi : w.alive i = true) (hpre : Plumbing.pre env a (γ i)) (h : perform i a c w = some (r, w')) :
    Plumbing.fact a (γ i) r ∧ Delivered env requests n w'
      (ghosts (bridge env) (Plumbing.discipline env) Plumbing.fresh γ i a r) := by
  obtain ⟨hfact, hself⟩ := (hJ.plumbed i).post hJ.sound hJ.linked halone hi hpre h
  have hkeep : ∀ k, (¬∃ p, launched env a r = some (k, p)) → w.life k = .unborn →
      w'.life k = .unborn := by
    intro k hlaunched hunborn
    by_contra hborn
    exact hlaunched (perform_life hi h hunborn hborn)
  refine ⟨hfact, perform_sound hJ.sound h, hJ.linked.act (perform_relinks h), fun k => ?_,
    fun k => ?_, hJ.flows.act hJ.plumbed hJ.grasped hJ.sound hJ.linked halone hi hpre h⟩
  · by_cases hlaunched : ∃ p, launched env a r = some (k, p)
    · obtain ⟨p, hlaunched⟩ := hlaunched
      rw [ghosts_launched (bridge env) _ _ γ i a r hlaunched]
      exact (hJ.plumbed k).fresh h hlaunched
    · rcases ghosts_cases (bridge env) (Plumbing.discipline env) Plumbing.fresh γ i a r k with
        ⟨p, hp, -⟩ | ⟨rfl, heq⟩ | ⟨hki, heq⟩
      · exact absurd ⟨p, hp⟩ hlaunched
      · rw [heq]
        exact hself
      · rw [heq]
        exact (hJ.plumbed k).act hJ.sound halone h (hkeep k hlaunched) (.inl hki)
  · by_cases hlaunched : ∃ p, launched env a r = some (k, p)
    · obtain ⟨p, hlaunched⟩ := hlaunched
      rw [ghosts_launched (bridge env) _ _ γ i a r hlaunched]
      have hnew : γ k = {} := ((hJ.plumbed k).unborn (launched_unborn h hlaunched)).2
      exact (hJ.grasped k).fresh (by rw [hnew]) hi h hlaunched
    · rcases ghosts_cases (bridge env) (Plumbing.discipline env) Plumbing.fresh γ i a r k with
        ⟨p, hp, -⟩ | ⟨rfl, heq⟩ | ⟨hki, heq⟩
      · exact absurd ⟨p, hp⟩ hlaunched
      · rw [heq]
        exact (hJ.grasped k).post hi hpre h
      · rw [heq]
        refine ⟨fun x => ?_, (hJ.grasped k).handle⟩
        rw [perform_readers_other h hki (hkeep k hlaunched) x]
        exact (hJ.grasped k).readers x

/-- A disturbance discards only what no live thread reads. -/
theorem Flows.disturb {e : Disturbance} (hJ : Flows env n w γ)
    (hT : ∀ k, Plumbed requests n w k (γ k)) (hG : ∀ k, Grasped w k (γ k))
    (h : w.disturb e = some w') : Flows env n w' γ := by
  have hfiles := disturb_files h
  have hwritten : ∀ x, w'.files.writtenTo x = w.files.writtenTo x := by
    intro x
    simp only [Files.writtenTo, hfiles.pieces]
  have halive : ∀ {k x}, (γ k).reads = some x → w'.alive k = true → w.alive k = true :=
    fun {k x} hreads => (disturb_ages h).alive k (born_of_reads hT hreads)
  have hpipe : ∀ {k x}, (γ k).reads = some x → w.alive k = true →
      w'.files.pipe x = w.files.pipe x := by
    intro k x hreads hk
    rcases hfiles.pipe x with hsame | ⟨hnone, -⟩
    · exact hsame
    · rw [hasReader_of_reads hG hk hreads] at hnone
      cases hnone
  refine ⟨hJ.forwards, ?_, fun x hx => ?_, fun x k hx hk hreads hnone => ?_,
    fun x j p hx hj hreads hforwards => ?_, fun x j p hx hj => ?_⟩
  · rw [hfiles.ptyInput]
    exact hJ.idle
  · obtain ⟨hnothing, hempty⟩ := hJ.unopened x hx
    refine ⟨(hwritten x).trans hnothing, ?_⟩
    rcases hfiles.pipe x with hsame | ⟨-, hdiscarded⟩
    · rw [hsame, hempty]
    · exact hdiscarded
  · rw [hfiles.fifo] at hx
    have hk' := halive hreads hk
    rw [hwritten, hpipe hreads hk']
    exact hJ.waiting x k hx hk' hreads hnone
  · rw [hfiles.fifo] at hx
    have hj' := halive hreads hj
    rw [hwritten, hpipe hreads hj', hfiles.ptyInput, hfiles.inHand]
    exact hJ.conserved x j p hx hj' hreads hforwards
  · rw [hfiles.fifo] at hx
    rw [hwritten, hfiles.ptyInput]
    exact hJ.front x j p hx hj

/-- What happens outside the bridge moves no piece. -/
theorem Delivered.disturb {e : Disturbance} (hJ : Delivered env requests n w γ)
    (h : w.disturb e = some w') : Delivered env requests n w' γ := by
  have hfiles := disturb_files h
  refine ⟨disturb_sound hJ.sound h, ⟨?_, ?_⟩, fun k => (hJ.plumbed k).disturb h,
    fun k => (hJ.grasped k).disturb h, hJ.flows.disturb hJ.plumbed hJ.grasped h⟩
  · rw [hfiles.fifo, hfiles.inode]
    exact hJ.linked.made
  · rw [hfiles.fifo]
    exact hJ.linked.apart

/-- Before the first action no piece has been written. -/
theorem delivered_fresh (env : Env) (requests : ℕ → Option Request) (n : String) :
    Delivered env requests n (World.fresh requests) fun k => Plumbing.asked (requests k) where
  sound := (excluded_fresh requests).sound
  linked := ⟨fun m x hx => (by cases hx), fun m m' x hx => by cases hx⟩
  plumbed := plumbed_fresh requests n
  grasped := grasped_fresh requests
  flows := ⟨fun j x p hj => (by cases hj), fun _ _ => rfl, fun _ _ => ⟨rfl, rfl⟩,
    fun x k hx => (by cases hx), fun x j p hx => (by cases hx), fun x j p hx => by cases hx⟩

/-- Bytes that the forwarder of a PTY has read and not yet written. -/
def Handed (w : World) (pty : ℕ) (bytes : List UInt8) : Prop :=
  (∃ j, w.files.forward j = some pty ∧ bytes = w.files.inHand j) ∨
    ((∀ j, w.files.forward j ≠ some pty) ∧ bytes = [])

/-- While a live thread reads the FIFO of a session, what was written to it is on the
PTY of its run, in the forwarder's hand, or in the FIFO. -/
theorem Delivered.read (hJ : Delivered env requests n w γ) (howner : OneOwner n w) {fifo pty : ℕ}
    {o : Ownership} (hfifo : w.files.fifo n = some fifo) (ho : w.owner pty = some o)
    (hname : o.name = n) (hreader : w.hasReader fifo = true) : ∃ hand, w.Handed pty hand ∧
      w.files.writtenTo fifo = w.files.ptyInput pty ++ hand ++ w.files.pipe fifo := by
  -- The owner of the FIFO owns the run, and has the PTY of its number.
  have hmine : ∀ {k}, (γ k).fifo = some fifo → k = pty := by
    intro k hk
    obtain ⟨o', ho', hname'⟩ := owns_of_fifo hJ.plumbed hfifo hk
    exact howner k pty o' o ho' ho hname' hname
  obtain ⟨k, hk, hreads⟩ := reads_of_hasReader hJ.grasped hreader
  rcases (hJ.grasped k).handle fifo hreads with ⟨hopened, hnone, hforwards⟩ | ⟨-, p, hforwards⟩
  · obtain rfl := hmine hopened
    have hidle : ∀ j x, (γ j).forwards ≠ some (x, k) := by
      intro j x hj
      rw [(hJ.flows.forwards j x k hj).1] at hnone
      cases hnone
    refine ⟨[], .inr ⟨fun j hj => ?_, rfl⟩, ?_⟩
    · rw [(hJ.plumbed j).forward] at hj
      obtain ⟨⟨x, p⟩, hx, rfl⟩ := Option.map_eq_some_iff.mp hj
      exact hidle j x hx
    · rw [hJ.flows.waiting fifo k hfifo hk hreads hforwards, hJ.flows.idle k hidle]
      rfl
  · obtain rfl := hmine (hJ.flows.forwards k fifo p hforwards).2
    refine ⟨_, .inl ⟨k, ?_, rfl⟩, hJ.flows.conserved fifo k p hfifo hk hreads hforwards⟩
    rw [(hJ.plumbed k).forward, hforwards]
    rfl

/-- What is on the PTY of a session's run is a front of what was written to its FIFO,
and what the forwarder's writer added when it was dropped. -/
theorem Delivered.front (hJ : Delivered env requests n w γ) {fifo pty : ℕ} {o : Ownership}
    (hfifo : w.files.fifo n = some fifo) (ho : w.owner pty = some o) (hname : o.name = n) :
    ∃ front tail eof, w.files.ptyInput pty = front ++ tail ∧ front <+: w.files.writtenTo fifo ∧
      tail <+: env.farewell eof := by
  by_cases hforwarder : ∃ j x, (γ j).forwards = some (x, pty)
  · obtain ⟨j, x, hj⟩ := hforwarder
    obtain ⟨m, hm, hleads⟩ := (hJ.plumbed pty).fifo x (hJ.flows.forwards j x pty hj).2
    obtain ⟨o', ho', hname'⟩ := (hJ.plumbed pty).own m hm
    rw [ho] at ho'
    cases ho'
    have hx := hleads.here (hname'.symm.trans hname)
    rw [hfifo] at hx
    cases hx
    obtain ⟨front, tail, eof, hpty, hfront, htail, -⟩ := hJ.flows.front fifo j pty hfifo hj
    exact ⟨front, tail, eof, hpty, hfront, htail⟩
  · push Not at hforwarder
    exact ⟨[], [], 0, hJ.flows.idle pty hforwarder, List.nil_prefix, List.nil_prefix⟩

end World

/-- **Delivery of input.** In a session that one call starts, every call writes the
parts of its message in their order, and all of them if it succeeds; parts of at
most `PIPE_BUF` bytes are one piece each. The pieces of the calls on the session, and
no others, go to its FIFO. As long as a live thread reads the FIFO, they are in that
order on the PTY of its run, which has the number of its owner's thread, in the
forwarder's hand, and in the FIFO. At any time the PTY has a front of them, and at most
what the forwarder's writer adds when it is dropped. -/
theorem input_delivered (env : Env) (requests : ℕ → Option Request) {n : String} {start : ℕ}
    {s : Config Act Act.Response ThreadResult World}
    (hreach : (bridge env).Reaches (fun _ i a _ => StartedBy n start i a) (boot env requests) s) :
    (∀ k, ∃ rest, Written (messageParts (requests k)) (s.world.files.writtenBy k) rest) ∧
    (∀ k, (∀ part ∈ messageParts (requests k), part.length ≤ pipeBuf) →
      s.world.files.writtenBy k <+: (messageParts (requests k)).filter (· ≠ [])) ∧
    (∀ k, s.thread k = .done (.replied (.ok ())) →
      (s.world.files.writtenBy k).flatten = (messageParts (requests k)).flatten) ∧
    (∀ x ∈ s.world.files.pieces,
      addressee (requests x.writer) = some n ↔ s.world.files.fifo n = some x.fifo) ∧
    ∀ fifo pty o, s.world.files.fifo n = some fifo → s.world.owner pty = some o → o.name = n →
      (s.world.hasReader fifo = true → ∃ hand, s.world.Handed pty hand ∧
        s.world.files.writtenTo fifo =
          s.world.files.ptyInput pty ++ hand ++ s.world.files.pipe fifo) ∧
      ∃ front tail eof, s.world.files.ptyInput pty = front ++ tail ∧
        front <+: s.world.files.writtenTo fifo ∧ tail <+: env.farewell eof := by
  obtain ⟨halone, howner⟩ := alone_of_reaches hreach
  obtain ⟨γ, hJ, hfollows⟩ := System.Reaches.outline (Plumbing.covers env)
    ⟨fun hJ halive halone hpre hperform => hJ.act halone halive hpre hperform,
      fun hJ hdisturb => hJ.disturb hdisturb⟩
    halone ⟨_, delivered_fresh env requests n, Plumbing.follows_boot env requests⟩
  refine ⟨fun k => ?_, fun k hsmall => ?_, fun k hk => ?_, fun x hx => ?_,
    fun fifo pty o hfifo ho hname =>
      ⟨hJ.read howner hfifo ho hname, hJ.front hfifo ho hname⟩⟩
  · rw [(hJ.plumbed k).written, ← (hJ.plumbed k).parts]
    exact (hJ.plumbed k).progress
  · rw [← (hJ.plumbed k).parts] at hsmall ⊢
    rw [(hJ.plumbed k).written]
    obtain ⟨rest, hrest⟩ := (hJ.plumbed k).progress
    exact ⟨_, hrest.pieces_of_small hsmall⟩
  · have hwhole := hfollows k
    rw [hk] at hwhole
    have hflatten := Written.flatten hwhole
    rw [(hJ.plumbed k).written, ← (hJ.plumbed k).parts, ← hflatten]
    exact (List.append_nil _).symm
  · obtain ⟨m, hm, hleads⟩ := (hJ.plumbed x.writer).sent x hx rfl
    rw [← (hJ.plumbed x.writer).session, hm]
    exact ⟨fun hmn => hleads.here (Option.some.inj hmn), fun hn => by rw [hleads.apart n hn]⟩

/-- A send of one byte and Enter to the session "demo". -/
def sendDemo (byte : UInt8) : Request := ⟨false, .send "demo" [byte] false⟩

/-- The start of a daemon's session by thread 0, up to its forwarder, thread 5. -/
def serveDemo : List (Move Choice World.Disturbance) :=
  steps 0 13 ++ [.run 0 { thread := 3 }] ++ steps 3 2 ++ [.run 3 { pid := 7, startTime := 100 }] ++
    steps 3 12 ++ [.run 3 { thread := 4 }, .run 3 { thread := 5 }]

/-- One turn of the forwarder, thread 5, that moves up to ten bytes. -/
def forwardDemo : List (Move Choice World.Disturbance) :=
  [.loop 5, .run 5 {}, .run 5 { count := 10 }, .run 5 {}]

instance (n : String) (start i : ℕ) (a : Act) : Decidable (StartedBy n start i a) :=
  inferInstanceAs (Decidable (_ → _))

/-- The test finds the threads whose request was answered with success. -/
theorem replied_of_test {s : Config Act Act.Response ThreadResult World} {k : ℕ}
    (h : repliedOk s k = true) : s.thread k = .done (.replied (.ok ())) := by
  unfold repliedOk at h
  split at h
  · assumption
  · cases h

/-- A send reaches the PTY while another one is between its text and its Enter. Then the
child exits, the forwarder closes the FIFO with that text in it, and the PTY writer
adds a newline and the end-of-file character. -/
theorem input_delivered_sent :
    (∃ s : Config Act Act.Response ThreadResult World,
      (s.world.files.writtenBy 1).flatten = [97, 0x0d] ∧
      s.world.files.ptyInput 3 = [97, 0x0d] ∧ s.world.files.pipe 0 = [98] ∧
      ∃ hand, s.world.Handed 3 hand ∧ s.world.files.writtenTo 0 =
        s.world.files.ptyInput 3 ++ hand ++ s.world.files.pipe 0) ∧
    ∃ s : Config Act Act.Response ThreadResult World,
      s.world.files.ptyInput 3 = [97, 0x0d, 0x0a, 0x04] ∧
      ∃ front tail eof, s.world.files.ptyInput 3 = front ++ tail ∧
        front <+: s.world.files.writtenTo 0 ∧ tail <+: plainEnv.farewell eof := by
  set sending : List (Move Choice Disturbance) :=
    serveDemo ++ steps 1 9 ++ forwardDemo ++ steps 2 4 with hsending
  constructor
  · obtain ⟨s, hreach, hs⟩ := System.exists_reaches_of_exec (bridge plainEnv)
      (fun _ i a _ => StartedBy "demo" 0 i a) sending
      (boot plainEnv (served [startDemo true, sendDemo 97, sendDemo 98]))
      (fun s => repliedOk s 1 && s.world.files.ptyInput 3 = [97, 0x0d] &&
        s.world.files.pipe 0 = [98] && s.world.files.fifo "demo" = some 0 && s.world.hasReader 0 &&
        (s.world.owner 3).any fun o => o.name = "demo")
      (fun _ _ _ _ h => of_decide_eq_true h) (by rw [hsending]; decide +kernel)
    simp only [Bool.and_eq_true, decide_eq_true_eq] at hs
    obtain ⟨⟨⟨⟨⟨hreply, hpty⟩, hpipe⟩, hfifo⟩, hreader⟩, howner⟩ := hs
    obtain ⟨o, ho, hname⟩ := (Option.any_eq_true _ _).mp howner
    obtain ⟨-, -, hwhole, -, hdelivered⟩ := input_delivered plainEnv _ hreach
    exact ⟨s, hwhole 1 (replied_of_test hreply), hpty, hpipe,
      (hdelivered 0 3 o hfifo ho (of_decide_eq_true hname)).1 hreader⟩
  · obtain ⟨s, hreach, hs⟩ := System.exists_reaches_of_exec (bridge plainEnv)
      (fun _ i a _ => StartedBy "demo" 0 i a)
      (sending ++ [.disturb (.processDies 7), .run 3 { error := "exited", code := 3 }] ++
        steps 3 1 ++ [.loop 5] ++ steps 5 2 ++ [.run 5 { code := 4 }])
      (boot plainEnv (served [startDemo true, sendDemo 97, sendDemo 98]))
      (fun s => s.world.files.ptyInput 3 = [97, 0x0d, 0x0a, 0x04] &&
        s.world.files.fifo "demo" = some 0 && (s.world.owner 3).any fun o => o.name = "demo")
      (fun _ _ _ _ h => of_decide_eq_true h) (by rw [hsending]; decide +kernel)
    simp only [Bool.and_eq_true, decide_eq_true_eq] at hs
    obtain ⟨⟨hpty, hfifo⟩, howner⟩ := hs
    obtain ⟨o, ho, hname⟩ := (Option.any_eq_true _ _).mp howner
    obtain ⟨-, -, -, -, hdelivered⟩ := input_delivered plainEnv _ hreach
    exact ⟨s, hpty, (hdelivered 0 3 o hfifo ho (of_decide_eq_true hname)).2⟩

/-- Bytes that begin a sequence of whole messages. -/
def BeginsMessages (messages : List (List UInt8)) (bytes : List UInt8) : Prop :=
  ∃ order : List (List UInt8), (∀ message ∈ order, message ∈ messages) ∧ bytes <+: order.flatten

/-- Two sends write their texts before their Enters, and all four pieces reach the
PTY in that order. -/
theorem messages_interleave :
    ∃ s : Config Act Act.Response ThreadResult World,
      (bridge plainEnv).Reaches (fun _ i a _ => StartedBy "demo" 0 i a)
        (boot plainEnv (served [startDemo true, sendDemo 97, sendDemo 98])) s ∧
      s.thread 1 = .done (.replied (.ok ())) ∧ s.thread 2 = .done (.replied (.ok ())) ∧
      s.world.files.ptyInput 3 = [97, 98, 0x0d, 0x0d] ∧
      ¬BeginsMessages [[97, 0x0d], [98, 0x0d]] (s.world.files.ptyInput 3) := by
  obtain ⟨s, hreach, hs⟩ := System.exists_reaches_of_exec (bridge plainEnv)
    (fun _ i a _ => StartedBy "demo" 0 i a)
    (serveDemo ++ steps 1 4 ++ steps 2 4 ++ steps 1 5 ++ steps 2 5 ++ forwardDemo)
    (boot plainEnv (served [startDemo true, sendDemo 97, sendDemo 98]))
    (fun s => repliedOk s 1 && repliedOk s 2 &&
      s.world.files.ptyInput 3 = [97, 98, 0x0d, 0x0d])
    (fun _ _ _ _ h => of_decide_eq_true h) (by decide +kernel)
  simp only [Bool.and_eq_true, decide_eq_true_eq] at hs
  obtain ⟨⟨hreply, hreply'⟩, hpty⟩ := hs
  refine ⟨s, hreach, replied_of_test hreply, replied_of_test hreply', hpty, ?_⟩
  rw [hpty]
  rintro ⟨order, hmem, rest, hrest⟩
  cases order with
  | nil => cases hrest
  | cons message order =>
    have hmessage := hmem message List.mem_cons_self
    simp only [List.mem_cons, List.not_mem_nil, or_false] at hmessage
    rcases hmessage with rfl | rfl <;> simp at hrest

end IgnibyteBridge
