import IgnibyteBridge.Daemon.Startup

/-!
# One daemon

Whoever has a bound socket open holds the daemon lock. A daemon binds after it took
the lock and closes its socket before it gives the lock back; its connection threads
only exist once it serves, and from then on it keeps the lock until it dies. So the
socket that a daemon removes is its own, or one that a dead process left behind.
-/

namespace IgnibyteBridge.Daemon

open Concurrency Program Fallible

/-- What a thread knows about the lock and the socket of its process. -/
inductive Claim where
  /-- It has no part in them. -/
  | outside
  /-- Its process holds the lock, has no other thread, and has this socket open. -/
  | claiming (socket : Option ℕ)
  /-- Its process holds the lock until it dies. -/
  | serving
  deriving DecidableEq

namespace Claim

/-- The obligation before a call. -/
def pre : Call → Claim → Prop
  | .flock, g => g = .outside
  | .closeLock, g => g = .claiming none
  | .removeSocket, g => g ≠ .outside
  | .bind, g => g = .claiming none
  | .closeSocket socket, g => g = .claiming (some socket)
  | .chmod, g => ∃ socket, g = .claiming (some socket)
  | .accept, g => g = .serving
  | _, _ => True

/-- What a thread knows after a call. -/
def post : (a : Call) → Claim → a.Response → Claim
  | .flock, _, .held => .claiming none
  | .closeLock, _, _ => .outside
  | .bind, _, some socket => .claiming (some socket)
  | .closeSocket _, _, _ => .claiming none
  | .chmod, _, true => .serving
  | _, g, _ => g

/-- The discipline of the daemon's threads. -/
def discipline : Discipline Call Call.Response Claim where
  pre := pre
  fact _ _ _ := True
  post := post

/-- A thread that waits for connections serves. -/
def Finished (result : ThreadEnd) (g : Claim) : Prop := result = .serving → g = .serving

variable {α : Type} {Q : α → Claim → Prop} {E : String → Claim → Prop} {g : Claim}

/-- A call meets its obligation, and its response teaches something. -/
@[simp] theorem meets_call (a : Call) (Q : a.Response → Claim → Prop) :
    Meets discipline Q E (call a) g ↔ pre a g ∧ ∀ r, Q r (post a g r) := by
  rw [call, meets_perform]
  exact and_congr_right fun _ => ⟨fun h r => h r trivial, fun h r _ => h r⟩

/-! ## Starting -/

/-- The lock was taken if that succeeds. -/
theorem meets_acquireDaemonLock :
    Meets discipline (fun _ g => g = .claiming none) (fun _ g => g = .outside)
      acquireDaemonLock .outside := by
  refine (meets_bind _ _ _ _).mpr ((meets_call _ _).mpr ⟨trivial, fun ok => ?_⟩)
  refine (meets_bind _ _ _ _).mpr (meets_ensure (fun _ => ?_) fun _ => rfl)
  refine (meets_bind _ _ _ _).mpr ((meets_call _ _).mpr ⟨rfl, fun r => ?_⟩)
  cases r <;> rfl

/-- A listener that is given up is closed. -/
theorem meets_bindListener (path : String) :
    Meets discipline (fun _ g => g = .serving) (fun _ g => g = .claiming none)
      (bindListener path) (.claiming none) := by
  refine (meets_bind _ _ _ _).mpr ((meets_call _ _).mpr ⟨rfl, fun r => ?_⟩)
  cases r with
  | none => rfl
  | some socket =>
    refine (meets_bind _ _ _ _).mpr (meets_orThrow ?_ fun h => by cases h)
    intro s hs
    cases hs
    refine (meets_bind _ _ _ _).mpr ((meets_call _ _).mpr ⟨trivial, fun listens => ?_⟩)
    have hclosed : ∀ {β : Type} (e : String), Meets discipline (fun (_ : β) g => g = .serving)
        (fun _ g => g = .claiming none) (call (.closeSocket socket) >>= fun _ => throw e)
        (.claiming (some socket)) := by
      intro β e
      exact (meets_bind _ _ _ _).mpr ((meets_call _ _).mpr ⟨rfl, fun _ => rfl⟩)
    cases listens with
    | false => exact hclosed _
    | true =>
      refine (meets_bind _ _ _ _).mpr ((meets_call _ _).mpr ⟨⟨socket, rfl⟩, fun restricted => ?_⟩)
      cases restricted with
      | false => exact hclosed _
      | true => rfl

/-- A daemon with the lock serves the socket that it binds, or gives it up. -/
theorem meets_claimSocket (path : String) :
    Meets discipline (fun _ g => g = .serving) (fun _ g => g = .claiming none)
      (claimSocket path) (.claiming none) := by
  refine (meets_bind _ _ _ _).mpr ((meets_call _ _).mpr ⟨trivial, fun exists_ => ?_⟩)
  cases exists_ with
  | false => exact meets_bindListener path
  | true =>
    refine (meets_bind _ _ _ _).mpr ((meets_call _ _).mpr ⟨trivial, fun answered => ?_⟩)
    cases answered with
    | true => rfl
    | false =>
      refine (meets_bind _ _ _ _).mpr ((meets_call _ _).mpr ⟨by simp [pre, post], fun removed => ?_⟩)
      exact (meets_bind _ _ _ _).mpr (meets_ensure (fun _ => meets_bindListener path) fun _ => rfl)

/-- A start-up that succeeds serves, and one that fails holds nothing. -/
theorem meets_runDaemon (path : String) :
    Meets discipline (fun _ g => g = .serving) (fun _ g => g = .outside) (runDaemon path)
      .outside := by
  refine (meets_bind _ _ _ _).mpr ((meets_call _ _).mpr ⟨trivial, fun r => ?_⟩)
  cases r with
  | error e => rfl
  | ok u =>
    refine (meets_bind _ _ _ _).mpr (Meets.mono meets_acquireDaemonLock ?_ fun _ _ => id)
    rintro - g rfl
    refine (meets_bind _ _ _ _).mpr ((meets_outcome _ _ _).mpr
      (Meets.mono (meets_claimSocket path) (fun _ _ h => h) ?_))
    rintro e g rfl
    exact (meets_bind _ _ _ _).mpr ((meets_call _ _).mpr ⟨rfl, fun _ => rfl⟩)

/-- The main thread of a daemon follows the discipline. -/
theorem follows_daemonMain (path : String) :
    (daemonMain path).Follows discipline Finished .outside := by
  refine (follows_bind _ _ _ _).mpr ((follows_run _ _ _).mpr (Meets.mono (meets_runDaemon path) ?_ ?_))
  · intro _ g hg _
    exact hg
  · intro _ g _
    exact ⟨trivial, fun _ _ h => by cases h⟩

/-! ## Serving -/

/-- Each iteration of its loop follows the discipline. -/
theorem follows_acceptConnection : acceptConnection.Follows discipline Finished .serving :=
  ⟨rfl, fun _ _ _ => rfl⟩

/-- A connection thread neither takes nor gives up anything. -/
theorem meets_handleDaemonStream :
    Meets discipline (fun _ _ => True) (fun _ _ => True) handleDaemonStream .serving := by
  have hrespond : ∀ context, Meets discipline (fun _ g => g = .serving) (fun _ _ => True)
      (call .respond >>= fun ok => ensure context ok) .serving := by
    intro context
    refine (meets_bind _ _ _ _).mpr ((meets_call _ _).mpr ⟨trivial, fun ok => ?_⟩)
    exact meets_ensure (fun _ => rfl) fun _ => trivial
  refine (meets_bind _ _ _ _).mpr ((meets_call _ _).mpr ⟨trivial, fun arrival => ?_⟩)
  cases arrival with
  | nothing => trivial
  | invalid => exact Meets.mono (hrespond _) (fun _ _ _ => trivial) fun _ _ => id
  | request =>
    refine (meets_bind _ _ _ _).mpr ((meets_call _ _).mpr ⟨trivial, fun _ => ?_⟩)
    exact Meets.mono (hrespond _) (fun _ _ _ => trivial) fun _ _ => id
  | shutdown =>
    refine (meets_bind _ _ _ _).mpr ((meets_call _ _).mpr ⟨trivial, fun ok => ?_⟩)
    refine (meets_bind _ _ _ _).mpr (meets_ensure (fun _ => ?_) fun _ => trivial)
    refine (meets_bind _ _ _ _).mpr ((meets_call _ _).mpr ⟨trivial, fun _ => ?_⟩)
    refine (meets_bind _ _ _ _).mpr ((meets_call _ _).mpr ⟨by simp [pre, post], fun _ => ?_⟩)
    exact (meets_call _ _).mpr ⟨trivial, fun _ => trivial⟩

/-- The thread of a connection follows the discipline. -/
theorem follows_connectionThread : connectionThread.Follows discipline Finished .serving := by
  refine (follows_bind _ _ _ _).mpr ((follows_run _ _ _).mpr ?_)
  exact Meets.mono meets_handleDaemonStream (fun _ _ _ h => by cases h) fun _ _ _ h => by cases h

/-- All threads that are started follow the discipline. -/
theorem covers : Covers daemons discipline Finished fun _ _ _ => .serving where
  launched := by
    intro a g r j p hlaunched _ _
    change Daemon.launched a r = some (j, p) at hlaunched
    unfold Daemon.launched at hlaunched
    split at hlaunched <;> cases hlaunched
    exact follows_connectionThread
  again := by
    intro x g p hx hagain
    cases x with
    | finished => cases hagain
    | serving =>
      cases hagain
      rw [hx rfl]
      exact follows_acceptConnection

end Claim

/-! ## The invariant -/

namespace World

/-- Two worlds with the same processes, the same lock and the same open sockets. -/
structure SameHolders (w w' : World) : Prop where
  process : w'.process = w.process
  running : w'.running = w.running
  lock : w'.lock = w.lock
  boundBy : w'.boundBy = w.boundBy

/-- What the threads know is true, and every bound socket that a live process has open
is one that a thread of it knows of. -/
structure Exclusive (w : World) (γ : ℕ → Claim) : Prop where
  held : ∀ i, γ i ≠ .outside → w.alive i = true → w.lock = w.process i
  bound : ∀ n p, w.boundBy n = some p → w.running p = true →
    ∃ i, w.process i = some p ∧ (γ i = .serving ∨ γ i = .claiming (some n))
  sole : ∀ i, γ i ≠ .serving → w.process i ≠ none → ∀ j, w.process j = w.process i → j = i
  unstarted : ∀ j, w.process j = none → γ j = .outside

variable {w w' : World} {γ : ℕ → Claim} {i : ℕ}

/-- Nothing changed hands. -/
theorem SameHolders.refl (w : World) : w.SameHolders w := ⟨rfl, rfl, rfl, rfl⟩

/-- The same threads are alive. -/
theorem SameHolders.alive (h : w.SameHolders w') (k : ℕ) : w'.alive k = w.alive k := by
  unfold World.alive
  rw [h.process, h.running]

/-- The invariant is about the holders only. -/
theorem Exclusive.same (h : w.Exclusive γ) (hsame : w.SameHolders w') : w'.Exclusive γ where
  held k hk halive := by
    rw [hsame.lock, hsame.process]
    exact h.held k hk (hsame.alive k ▸ halive)
  bound n p hn hp := by
    rw [hsame.boundBy] at hn
    rw [hsame.running] at hp
    rw [hsame.process]
    exact h.bound n p hn hp
  sole k hk hprocess := by
    rw [hsame.process] at hprocess ⊢
    exact h.sole k hk hprocess
  unstarted k hk := by
    rw [hsame.process] at hk
    exact h.unstarted k hk

/-- A thread of a running process is alive. -/
theorem alive_of_process {p : ℕ} (hprocess : w.process i = some p) (hp : w.running p = true) :
    w.alive i = true := by
  rw [World.alive, hprocess]
  exact hp

/-- Only the process that holds the lock has a bound socket open. -/
theorem Exclusive.lock_of_bound (h : w.Exclusive γ) {n p : ℕ} (hn : w.boundBy n = some p)
    (hp : w.running p = true) : w.lock = some p := by
  obtain ⟨i, hprocess, hclaim⟩ := h.bound n p hn hp
  have hinside : γ i ≠ .outside := by
    rcases hclaim with hserving | hclaiming
    · simp [hserving]
    · simp [hclaiming]
  rw [h.held i hinside (alive_of_process hprocess hp), hprocess]

/-- While a thread claims the socket, its process has no other one open. -/
theorem Exclusive.eq_of_claiming (h : w.Exclusive γ) {o : Option ℕ} (hi : γ i = .claiming o)
    {n p : ℕ} (hprocess : w.process i = some p) (hn : w.boundBy n = some p)
    (hp : w.running p = true) : o = some n := by
  obtain ⟨j, hj, hclaim⟩ := h.bound n p hn hp
  have hsole := h.sole i (by simp [hi]) (by simp [hprocess]) j (by rw [hj, hprocess])
  subst hsole
  rw [hi] at hclaim
  rcases hclaim with hserving | hclaiming
  · cases hserving
  · cases hclaiming
    rfl

/-- The thread that claims has not reached its loop: another thread of its process
would be itself. -/
theorem Exclusive.apart (h : w.Exclusive γ) (hi : γ i ≠ .serving) (hstarted : w.process i ≠ none)
    {k : ℕ} (hk : k ≠ i) : w.process k ≠ w.process i :=
  fun heq => hk (h.sole i hi hstarted k heq)

/-- One thread takes another part in the lock and the socket. -/
theorem Exclusive.claim (h : w.Exclusive γ) {g : Claim} (hprocess : w'.process = w.process)
    (hrunning : w'.running = w.running) (hstarted : w.process i ≠ none)
    (hown : g ≠ .outside → w'.lock = w.process i)
    (hothers : ∀ k, k ≠ i → γ k ≠ .outside → w.alive k = true → w'.lock = w.process k)
    (hbound : ∀ n p, w'.boundBy n = some p → w.running p = true →
      (w.process i = some p ∧ (g = .serving ∨ g = .claiming (some n))) ∨
        ∃ k, k ≠ i ∧ w.process k = some p ∧ (γ k = .serving ∨ γ k = .claiming (some n)))
    (hsole : g ≠ .serving → γ i ≠ .serving) : w'.Exclusive (Function.update γ i g) := by
  have halive : ∀ k, w'.alive k = w.alive k := by
    intro k
    unfold World.alive
    rw [hprocess, hrunning]
  constructor
  · intro k hk hlive
    rw [hprocess]
    rw [halive] at hlive
    by_cases hki : k = i
    · subst hki
      rw [Function.update_self] at hk
      exact hown hk
    · rw [Function.update_of_ne hki] at hk
      exact hothers k hki hk hlive
  · intro n p hn hp
    rw [hrunning] at hp
    rw [hprocess]
    rcases hbound n p hn hp with ⟨hi, hclaim⟩ | ⟨k, hki, hk, hclaim⟩
    · refine ⟨i, hi, ?_⟩
      rwa [Function.update_self]
    · refine ⟨k, hk, ?_⟩
      rwa [Function.update_of_ne hki]
  · intro k hk hne
    rw [hprocess] at hne ⊢
    by_cases hki : k = i
    · subst hki
      rw [Function.update_self] at hk
      exact h.sole k (hsole hk) hne
    · rw [Function.update_of_ne hki] at hk
      exact h.sole k hk hne
  · intro k hk
    rw [hprocess] at hk
    have hki : k ≠ i := by
      rintro rfl
      exact hstarted hk
    rw [Function.update_of_ne hki]
    exact h.unstarted k hk

/-- A live thread has a process. -/
theorem process_ne_none (halive : w.alive i = true) : w.process i ≠ none := by
  intro hnone
  simp [World.alive, hnone] at halive

/-- A lock that a live process holds is not free. -/
theorem not_lockFree {p : ℕ} (hlock : w.lock = some p) (hp : w.running p = true) :
    w.lockFree = false := by
  simp [World.lockFree, hlock, hp]

/-- The lock is taken when no live process has it. -/
theorem Exclusive.takeLock (h : w.Exclusive γ) (hi : γ i = .outside) (halive : w.alive i = true)
    (hfree : w.lockFree = true) :
    World.Exclusive { w with lock := w.process i } (Function.update γ i (.claiming none)) := by
  have htaken : ∀ p, w.lock = some p → w.running p = true → False := by
    intro p hlock hp
    rw [not_lockFree hlock hp] at hfree
    cases hfree
  refine h.claim rfl rfl (process_ne_none halive) (fun _ => rfl) ?_ ?_ fun _ => by simp [hi]
  · intro k _ hk hlive
    obtain ⟨p, hp, hrunning⟩ := (Option.any_eq_true _ _).mp hlive
    exact (htaken p ((h.held k hk hlive).trans hp) hrunning).elim
  · intro n p hn hp
    exact (htaken p (h.lock_of_bound hn hp) hp).elim

/-- The lock is given up by a start-up that has no socket. -/
theorem Exclusive.closeLock (h : w.Exclusive γ) (hi : γ i = .claiming none)
    (halive : w.alive i = true) :
    World.Exclusive { w with lock := if w.lock = w.process i then none else w.lock }
      (Function.update γ i .outside) := by
  have hne : γ i ≠ .serving := by simp [hi]
  have hlock : w.lock = w.process i := h.held i (by simp [hi]) halive
  have hstarted := process_ne_none halive
  refine h.claim rfl rfl hstarted (fun hout => absurd rfl hout) ?_ ?_ fun _ => hne
  · intro k hki hk hlive
    have hsame : w.process k = w.process i := (h.held k hk hlive).symm.trans hlock
    exact absurd hsame (h.apart hne hstarted hki)
  · intro n p hn hp
    have hprocess : w.process i = some p := hlock.symm.trans (h.lock_of_bound hn hp)
    cases h.eq_of_claiming hi hprocess hn hp

/-- A socket is bound under the lock. -/
theorem Exclusive.bind (h : w.Exclusive γ) (hi : γ i = .claiming none) (halive : w.alive i = true)
    {listening : ℕ → Bool} :
    World.Exclusive { w with
      socket := some w.nextSocket
      nextSocket := w.nextSocket + 1
      boundBy := Function.update w.boundBy w.nextSocket (w.process i)
      listening := listening } (Function.update γ i (.claiming (some w.nextSocket))) := by
  refine h.claim rfl rfl (process_ne_none halive) (fun _ => h.held i (by simp [hi]) halive)
    (fun k _ hk hlive => h.held k hk hlive) ?_ fun _ => by simp [hi]
  intro n p hn hp
  by_cases hnew : n = w.nextSocket
  · subst hnew
    left
    exact ⟨by simpa using hn, .inr rfl⟩
  · right
    have hold : w.boundBy n = some p := by simpa [Function.update_of_ne hnew] using hn
    obtain ⟨k, hk, hclaim⟩ := h.bound n p hold hp
    refine ⟨k, ?_, hk, hclaim⟩
    rintro rfl
    simp [hi] at hclaim

/-- A socket that is given up is bound no more. -/
theorem Exclusive.closeSocket (h : w.Exclusive γ) {socket : ℕ} (hi : γ i = .claiming (some socket))
    (halive : w.alive i = true) :
    World.Exclusive { w with boundBy := Function.update w.boundBy socket none }
      (Function.update γ i (.claiming none)) := by
  refine h.claim rfl rfl (process_ne_none halive) (fun _ => h.held i (by simp [hi]) halive)
    (fun k _ hk hlive => h.held k hk hlive) ?_ fun _ => by simp [hi]
  intro n p hn hp
  have hne : n ≠ socket := by
    rintro rfl
    simp at hn
  have hold : w.boundBy n = some p := by simpa [Function.update_of_ne hne] using hn
  obtain ⟨k, hk, hclaim⟩ := h.bound n p hold hp
  refine .inr ⟨k, ?_, hk, hclaim⟩
  rintro rfl
  rw [hi] at hclaim
  rcases hclaim with hserving | hclaiming
  · cases hserving
  · cases hclaiming
    exact hne rfl

/-- A daemon serves the socket that it bound. -/
theorem Exclusive.serve (h : w.Exclusive γ) {socket : ℕ} (hi : γ i = .claiming (some socket))
    (halive : w.alive i = true) : w.Exclusive (Function.update γ i .serving) := by
  refine h.claim rfl rfl (process_ne_none halive) (fun _ => h.held i (by simp [hi]) halive)
    (fun k _ hk hlive => h.held k hk hlive) ?_ fun hne => absurd rfl hne
  intro n p hn hp
  obtain ⟨k, hk, hclaim⟩ := h.bound n p hn hp
  by_cases hki : k = i
  · subst hki
    exact .inl ⟨hk, .inl rfl⟩
  · exact .inr ⟨k, hki, hk, hclaim⟩

/-- A connection thread takes part in what its process has. -/
theorem Exclusive.accept (h : w.Exclusive γ) (hi : γ i = .serving) (halive : w.alive i = true)
    {j : ℕ} (hj : w.process j = none) :
    World.Exclusive { w with process := Function.update w.process j (w.process i) }
      (Function.update γ j .serving) := by
  have hkept : ∀ k p, w.process k = some p → k ≠ j := by
    rintro k p hk rfl
    rw [hj] at hk
    cases hk
  constructor
  · intro k hk hlive
    by_cases hkj : k = j
    · subst hkj
      simp only [Function.update_self]
      exact h.held i (by simp [hi]) halive
    · rw [Function.update_of_ne hkj] at hk
      simp only [World.alive, Function.update_of_ne hkj] at hlive ⊢
      exact h.held k hk hlive
  · intro n p hn hp
    obtain ⟨k, hk, hclaim⟩ := h.bound n p hn hp
    have hkj := hkept k p hk
    refine ⟨k, ?_, ?_⟩
    · simpa only [Function.update_of_ne hkj] using hk
    · rwa [Function.update_of_ne hkj]
  · intro k hk hne l hl
    have hkj : k ≠ j := by
      rintro rfl
      exact hk (Function.update_self ..)
    rw [Function.update_of_ne hkj] at hk
    simp only [Function.update_of_ne hkj] at hne hl
    by_cases hlj : l = j
    · subst hlj
      rw [Function.update_self] at hl
      -- The thread that accepts serves, so it is not the one that claims.
      obtain rfl := h.sole k hk hne i hl
      exact absurd hi hk
    · rw [Function.update_of_ne hlj] at hl
      exact h.sole k hk hne l hl
  · intro k hk
    have hkj : k ≠ j := by
      rintro rfl
      simp only [Function.update_self] at hk
      exact process_ne_none halive hk
    rw [Function.update_of_ne hkj]
    simp only [Function.update_of_ne hkj] at hk
    exact h.unstarted k hk

/-- A process dies, with its threads. -/
theorem Exclusive.die (h : w.Exclusive γ) (p : ℕ) :
    World.Exclusive { w with running := Function.update w.running p false } γ := by
  have hrunning : ∀ q, Function.update w.running p false q = true → w.running q = true := by
    intro q hq
    by_cases hqp : q = p
    · subst hqp
      simp at hq
    · rwa [Function.update_of_ne hqp] at hq
  refine ⟨fun k hk hlive => ?_, fun n q hn hq => h.bound n q hn (hrunning q hq), h.sole,
    h.unstarted⟩
  obtain ⟨q, hprocess, hq⟩ := (Option.any_eq_true _ _).mp hlive
  exact h.held k hk (alive_of_process hprocess (hrunning q hq))

/-- A call that takes and gives up nothing. -/
theorem Exclusive.idle (h : w.Exclusive γ) (hsame : w.SameHolders w') :
    w'.Exclusive (Function.update γ i (γ i)) := by
  rw [Function.update_eq_self]
  exact h.same hsame

/-- Every call of a disciplined thread keeps the invariant. -/
theorem Exclusive.act (h : w.Exclusive γ) (halive : w.alive i = true) {a : Call} {c : Choice}
    {r : a.Response} (hpre : Claim.pre a (γ i)) (hperform : perform i a c w = some (r, w')) :
    w'.Exclusive (ghosts daemons Claim.discipline (fun _ _ _ => .serving) γ i a r) := by
  cases a
  case flock =>
    simp only [perform] at hperform
    split at hperform <;> cases hperform
    · exact h.idle (.refl w)
    · exact h.idle (.refl w)
    · next hfree => exact h.takeLock hpre halive hfree
  case closeLock =>
    cases hperform
    exact h.closeLock hpre halive
  case removeSocket =>
    simp only [perform] at hperform
    split at hperform <;> cases hperform
    · exact h.idle ⟨rfl, rfl, rfl, rfl⟩
    · exact h.idle (.refl w)
  case bind =>
    simp only [perform] at hperform
    split at hperform <;> cases hperform
    · exact h.bind hpre halive
    · exact h.idle (.refl w)
  case listen socket =>
    simp only [perform] at hperform
    split at hperform <;> cases hperform
    · exact h.idle ⟨rfl, rfl, rfl, rfl⟩
    · exact h.idle (.refl w)
  case closeSocket socket =>
    cases hperform
    exact h.closeSocket hpre halive
  case chmod =>
    cases hperform
    obtain ⟨socket, hi⟩ := hpre
    cases hok : c.ok with
    | false => exact h.idle (.refl w)
    | true => exact h.serve hi halive
  case accept =>
    simp only [perform] at hperform
    split at hperform
    · split at hperform <;> cases hperform
      next hj =>
        have hkept : Function.update γ i (γ i) = γ := Function.update_eq_self i γ
        have haccepted := h.accept hpre halive hj
        rw [← hkept] at haccepted
        exact haccepted
    · cases hperform
      exact h.idle (.refl w)
  case exit =>
    simp only [perform] at hperform
    split at hperform <;> cases hperform
    exact (h.die _).idle (.refl _)
  all_goals
    cases hperform
    exact h.idle (.refl w)

end World

open World

variable {path : String} {starts : ℕ → Bool} {ok : World → ℕ → Call → Choice → Prop}
  {t : Config Call Call.Response ThreadEnd World}

/-- At the beginning nobody holds anything. -/
theorem exclusive_boot : (boot path starts).world.Exclusive fun _ => .outside where
  held i hi := absurd rfl hi
  bound n p hn := by cases hn
  sole i _ hne j hj := by
    have hstarts : ∀ k, (boot path starts).world.process k = if starts k then some k else none :=
      fun _ => rfl
    rw [hstarts] at hne
    rw [hstarts, hstarts] at hj
    by_cases hi : starts i = true
    · by_cases hj' : starts j = true
      · rw [if_pos hi, if_pos hj'] at hj
        exact Option.some.inj hj
      · rw [if_pos hi, if_neg hj'] at hj
        cases hj
    · rw [if_neg hi] at hne
      exact absurd rfl hne
  unstarted j _ := rfl

/-- The invariant holds in every reachable state. -/
theorem outlined_of_reaches (h : daemons.Reaches ok (boot path starts) t) :
    Outlined Claim.discipline Claim.Finished World.Exclusive t := by
  refine h.outline Claim.covers ⟨?_, ?_⟩ ⟨fun _ => .outside, exclusive_boot, fun i => ?_⟩
  · intro w γ i a c r w' hJ halive _ hpre hperform
    exact ⟨trivial, hJ.act halive hpre hperform⟩
  · intro w γ p w' hJ hdisturb
    cases hdisturb
    exact hJ.die p
  · simp only [boot]
    split
    · exact Claim.follows_daemonMain path
    · exact fun hfinished => by cases hfinished

/-- A live process has a socket open that it bound at the socket path, whether or not
its file is still there. -/
def World.HasBound (w : World) (p : ℕ) : Prop := ∃ n, w.boundBy n = some p ∧ w.running p = true

/-- A live process has bound the socket whose file is at the socket path. -/
def World.Bound (w : World) (p : ℕ) : Prop :=
  ∃ n, w.socket = some n ∧ w.boundBy n = some p ∧ w.running p = true

/-- A socket whose file is there is bound. -/
theorem World.Bound.hasBound {w : World} {p : ℕ} (h : w.Bound p) : w.HasBound p := by
  obtain ⟨n, -, hn, hp⟩ := h
  exact ⟨n, hn, hp⟩

/-- The file at the socket path is only made or taken away by those who hold the lock. -/
theorem World.inside_of_socket_ne {w w' : World} {i : ℕ} {a : Call} {c : Choice} {r : a.Response}
    {g : Claim} (hperform : World.perform i a c w = some (r, w')) (hpre : Claim.pre a g)
    (hsocket : w'.socket ≠ w.socket) : g ≠ .outside := by
  cases a
  case removeSocket => exact hpre
  case bind =>
    have hclaiming : g = .claiming none := hpre
    simp [hclaiming]
  all_goals
    simp only [World.perform] at hperform
    (try split at hperform) <;> (try split at hperform) <;> cases hperform <;>
      exact absurd rfl hsocket

/-- **One daemon.** However start-ups, Shutdown requests and crashes are interleaved, at
most one live process has a bound socket open, and no call of a thread takes away the
file of a socket that a live process other than its own has bound. -/
theorem daemon_singleton (h : daemons.Reaches ok (boot path starts) t) :
    (∀ p q, t.world.HasBound p → t.world.HasBound q → p = q) ∧
      ∀ i a c r w', (t.thread i).head = some a → t.world.alive i = true →
        World.perform i a c t.world = some (r, w') → ∀ p, t.world.Bound p →
        w'.socket ≠ t.world.socket → t.world.process i = some p := by
  obtain ⟨γ, hexclusive, hfollows⟩ := outlined_of_reaches h
  -- Whoever has a bound socket open holds the lock, and only one process does.
  have hlock : ∀ p, t.world.HasBound p → t.world.lock = some p := by
    rintro p ⟨n, hn, hp⟩
    exact hexclusive.lock_of_bound hn hp
  constructor
  · intro p q hp hq
    exact Option.some.inj ((hlock p hp).symm.trans (hlock q hq))
  · intro i a c r w' hhead halive hperform p hp hsocket
    have hpre : Claim.pre a (γ i) := (hfollows i).pre_head hhead
    have hinside := World.inside_of_socket_ne hperform hpre hsocket
    have hheld := hexclusive.held i hinside halive
    exact hheld.symm.trans (hlock p hp.hasBound)

/-- Two start-ups. -/
def twoStarts : Config Call Call.Response ThreadEnd World := boot "/bridge/s.sock" (· < 2)

/-- The first daemon serves a Shutdown request in thread 5, while the second one finds
the lock taken. -/
def shutdownSchedule : List (Move Choice ℕ) :=
  List.replicate 7 (.run 0 {}) ++ [.loop 0, .run 0 { thread := 5 }] ++
    List.replicate 3 (.run 1 {}) ++
    [.run 5 { arrival := .shutdown }, .run 5 {}, .run 5 {}]

/-- The first daemon has its socket bound, and thread 5 is about to remove it. -/
def aboutToRemove (s : Config Call Call.Response ThreadEnd World) : Bool :=
  s.world.socket == some 0 && s.world.boundBy 0 == some 0 && s.world.running 0 &&
    s.world.alive 5 && (s.thread 5).head.any fun a => match a with
      | .removeSocket => true
      | _ => false

/-- The test finds the moment before the socket is removed. -/
theorem aboutToRemove_sound {s : Config Call Call.Response ThreadEnd World}
    (h : aboutToRemove s = true) :
    s.world.Bound 0 ∧ s.world.socket = some 0 ∧ s.world.alive 5 = true ∧
      (s.thread 5).head = some .removeSocket := by
  simp only [aboutToRemove, Bool.and_eq_true, beq_iff_eq, Option.any_eq_true] at h
  obtain ⟨⟨⟨⟨hsocket, hbound⟩, hrunning⟩, halive⟩, a, hhead, ha⟩ := h
  refine ⟨⟨0, hsocket, hbound, hrunning⟩, hsocket, halive, ?_⟩
  cases a <;> first | exact hhead | cases ha

/-- The request thread that removes the socket belongs to the daemon that bound it. -/
theorem daemon_singleton_shutdown : ∃ t, daemons.Reaches (fun _ _ _ _ => True) twoStarts t ∧
    t.world.Bound 0 ∧ (∀ q, t.world.HasBound q → q = 0) ∧ t.world.process 5 = some 0 := by
  obtain ⟨t, hreach, hcheck⟩ := System.exists_reaches_of_exec daemons System.unrestricted
    shutdownSchedule twoStarts aboutToRemove (fun _ _ _ _ _ => trivial) (by decide +kernel)
  obtain ⟨hbound, hsocket, halive, hhead⟩ := aboutToRemove_sound hcheck
  obtain ⟨hone, hown⟩ := daemon_singleton hreach
  have hremoves : World.perform 5 .removeSocket {} t.world =
      some (true, { t.world with socket := none }) := by
    simp [World.perform, hsocket]
  refine ⟨t, hreach, hbound, fun q hq => hone q 0 hq hbound.hasBound, ?_⟩
  exact hown 5 .removeSocket {} true _ hhead halive hremoves 0 hbound (by simp [hsocket])

end IgnibyteBridge.Daemon
