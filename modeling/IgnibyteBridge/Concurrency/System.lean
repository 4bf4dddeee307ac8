import IgnibyteBridge.Concurrency.Program
import Mathlib.Logic.Relation

/-!
# Interleaved threads

A system runs any number of programs over one shared world, one atomic action at
a time and in any order. `Reaches ok` is reachability through steps whose action
satisfies the condition `ok`; the rule `Reaches.outline` proves an invariant of
the world and of every thread's ghost state from one obligation for each action.
-/

namespace Concurrency

variable {A : Type} {R : A → Type} {α W C E G : Type}

/-- What the world does with the actions of its threads. A choice `c : C`
resolves whatever the environment decides about one action. -/
structure System (A : Type) (R : A → Type) (α W C E : Type) where
  /-- Whether a thread can still take a step. -/
  alive : W → ℕ → Bool
  /-- One atomic action of a thread: its response and the next world. -/
  perform : ℕ → (a : A) → C → W → Option (R a × W)
  /-- The thread an action starts, and its program. -/
  launched : (a : A) → R a → Option (ℕ × Program A R α)
  /-- The next iteration of a thread whose result asks for one. -/
  again : α → Option (Program A R α)
  /-- A change of the world that no thread makes. -/
  disturb : E → W → Option W

/-- The shared world and the remaining program of every thread. -/
structure Config (A : Type) (R : A → Type) (α W : Type) where
  /-- What the threads share. -/
  world : W
  /-- What each thread has still to do. -/
  thread : ℕ → Program A R α

/-- The next thing to happen: an action of a thread, the next iteration of a
thread's loop, or a disturbance. -/
inductive Move (C E : Type) where
  | run (i : ℕ) (c : C)
  | loop (i : ℕ)
  | disturb (e : E)

namespace System

variable (M : System A R α W C E)

/-- The threads after thread `i` received `r` for its action `a`. -/
def resume (thread : ℕ → Program A R α) (i : ℕ) (a : A) (r : R a) (p : Program A R α) :
    ℕ → Program A R α :=
  match M.launched a r with
  | none => Function.update thread i p
  | some (j, q) => Function.update (Function.update thread i p) j q

/-- One move, as a computation, if its action passes a test. -/
def advance (test : W → ℕ → A → C → Bool) :
    Move C E → Config A R α W → Option (Config A R α W)
  | .run i c, s =>
    match s.thread i with
    | .done _ => none
    | .act a next =>
      if M.alive s.world i && test s.world i a c then
        match M.perform i a c s.world with
        | none => none
        | some (r, w) => some ⟨w, M.resume s.thread i a r (next r)⟩
      else none
  | .loop i, s =>
    match s.thread i with
    | .done x =>
      match M.again x with
      | none => none
      | some p => some ⟨s.world, Function.update s.thread i p⟩
    | .act _ _ => none
  | .disturb e, s =>
    match M.disturb e s.world with
    | none => none
    | some w => some ⟨w, s.thread⟩

/-- A whole schedule. -/
def exec (test : W → ℕ → A → C → Bool) :
    List (Move C E) → Config A R α W → Option (Config A R α W)
  | [], s => some s
  | m :: ms, s =>
    match M.advance test m s with
    | none => none
    | some s' => exec test ms s'

/-- The test that every action passes. -/
def unrestricted : W → ℕ → A → C → Bool := fun _ _ _ _ => true

/-- One step of the system whose action, if it is one, satisfies `ok`. -/
inductive Step (ok : W → ℕ → A → C → Prop) : Config A R α W → Config A R α W → Prop
  | act {s : Config A R α W} {i : ℕ} {a : A} {next : R a → Program A R α} {c : C} {r : R a}
      {w : W} (thread : s.thread i = .act a next) (alive : M.alive s.world i = true)
      (allowed : ok s.world i a c) (performed : M.perform i a c s.world = some (r, w)) :
      Step ok s ⟨w, M.resume s.thread i a r (next r)⟩
  | loop {s : Config A R α W} {i : ℕ} {x : α} {p : Program A R α}
      (thread : s.thread i = .done x) (again : M.again x = some p) :
      Step ok s ⟨s.world, Function.update s.thread i p⟩
  | disturb {s : Config A R α W} {e : E} {w : W} (disturbed : M.disturb e s.world = some w) :
      Step ok s ⟨w, s.thread⟩

/-- Reachability through any number of steps that satisfy `ok`. -/
def Reaches (ok : W → ℕ → A → C → Prop) : Config A R α W → Config A R α W → Prop :=
  Relation.ReflTransGen (M.Step ok)

variable {M} {ok ok' : W → ℕ → A → C → Prop}

/-- A step that meets a condition meets a weaker one. -/
theorem Step.mono {s s' : Config A R α W} (h : M.Step ok s s')
    (hok : ∀ w i a c, ok w i a c → ok' w i a c) : M.Step ok' s s' := by
  cases h with
  | act thread alive allowed performed =>
    exact .act thread alive (hok _ _ _ _ allowed) performed
  | loop thread again => exact .loop thread again
  | disturb disturbed => exact .disturb disturbed

/-- A run that meets a condition meets a weaker one. -/
theorem Reaches.mono {s s' : Config A R α W} (h : M.Reaches ok s s')
    (hok : ∀ w i a c, ok w i a c → ok' w i a c) : M.Reaches ok' s s' :=
  Relation.ReflTransGen.mono (fun _ _ hstep => Step.mono hstep hok) _ _ h

/-- A condition that follows from what is reachable holds of every step. -/
theorem Reaches.strengthen {s s' : Config A R α W} (h : M.Reaches ok s s')
    (hok : ∀ t i a c, M.Reaches ok s t → (t.thread i).head = some a → ok t.world i a c →
      ok' t.world i a c) : M.Reaches ok' s s' := by
  induction h with
  | refl => exact .refl
  | @tail t t' hreach hstep ih =>
    refine ih.tail ?_
    cases hstep with
    | @act i a next c r w thread alive allowed performed =>
      exact .act thread alive (hok t i a c hreach (by rw [thread]; rfl) allowed) performed
    | loop thread again => exact .loop thread again
    | disturb disturbed => exact .disturb disturbed

/-- A computed move is a step. -/
theorem step_of_advance {test : W → ℕ → A → C → Bool} {m : Move C E} {s s' : Config A R α W}
    (h : M.advance test m s = some s') : M.Step (fun w i a c => test w i a c = true) s s' := by
  cases m with
  | run i c =>
    simp only [advance] at h
    split at h
    · cases h
    · rename_i a next hthread
      split at h
      · rename_i hallowed
        obtain ⟨halive, htest⟩ := (Bool.and_eq_true _ _).mp hallowed
        split at h
        · cases h
        · rename_i r w hperform
          cases h
          exact .act hthread halive htest hperform
      · cases h
  | loop i =>
    simp only [advance] at h
    split at h
    · rename_i x hthread
      split at h
      · cases h
      · rename_i p hagain
        cases h
        exact .loop hthread hagain
    · cases h
  | disturb e =>
    simp only [advance] at h
    split at h
    · cases h
    · rename_i w hdisturb
      cases h
      exact .disturb hdisturb

/-- A computed schedule is a run. -/
theorem reaches_of_exec {test : W → ℕ → A → C → Bool} {ms : List (Move C E)}
    {s s' : Config A R α W} (h : M.exec test ms s = some s') :
    M.Reaches (fun w i a c => test w i a c = true) s s' := by
  induction ms generalizing s with
  | nil =>
    cases h
    exact .refl
  | cons m ms ih =>
    simp only [exec] at h
    split at h
    · cases h
    · rename_i s₁ hadvance
      exact .head (step_of_advance hadvance) (ih h)

/-- A schedule that runs through witnesses a reachable state with whatever a check finds there. -/
theorem exists_reaches_of_exec (M : System A R α W C E) (test : W → ℕ → A → C → Bool)
    (ms : List (Move C E)) (s : Config A R α W) (check : Config A R α W → Bool)
    (hok : ∀ w i a c, test w i a c = true → ok w i a c)
    (h : (M.exec test ms s).any check = true) :
    ∃ s', M.Reaches ok s s' ∧ check s' = true := by
  obtain ⟨s', hexec, hcheck⟩ := (Option.any_eq_true _ _).mp h
  exact ⟨s', (reaches_of_exec hexec).mono hok, hcheck⟩

/-- A property of the world that no action and no disturbance can end holds
for the rest of every run. -/
theorem Reaches.stable {I : W → Prop} {s s' : Config A R α W} (h : M.Reaches ok s s')
    (hact : ∀ {w i a c r w'}, I w → M.alive w i = true → ok w i a c →
      M.perform i a c w = some (r, w') → I w')
    (hdisturb : ∀ {w e w'}, I w → M.disturb e w = some w' → I w') (h0 : I s.world) :
    I s'.world := by
  induction h with
  | refl => exact h0
  | tail _ hstep ih =>
    cases hstep with
    | act thread alive allowed performed => exact hact ih alive allowed performed
    | loop thread again => exact ih
    | disturb disturbed => exact hdisturb ih disturbed

end System

/-- The ghost states after thread `i` received `r` for its action `a`; a thread
the action started gets the ghost state `fresh`. -/
def ghosts (M : System A R α W C E) (D : Discipline A R G) (fresh : (a : A) → G → R a → G)
    (γ : ℕ → G) (i : ℕ) (a : A) (r : R a) : ℕ → G :=
  match M.launched a r with
  | none => Function.update γ i (D.post a (γ i) r)
  | some (j, _) => Function.update (Function.update γ i (D.post a (γ i) r)) j (fresh a (γ i) r)

/-- The ghost state of each thread after an action: that of the thread it
started, that of the thread that performed it, or an unchanged one. -/
theorem ghosts_cases (M : System A R α W C E) (D : Discipline A R G)
    (fresh : (a : A) → G → R a → G) (γ : ℕ → G) (i : ℕ) (a : A) (r : R a) (k : ℕ) :
    (∃ p, M.launched a r = some (k, p) ∧ ghosts M D fresh γ i a r k = fresh a (γ i) r) ∨
      (k = i ∧ ghosts M D fresh γ i a r k = D.post a (γ i) r) ∨
      (k ≠ i ∧ ghosts M D fresh γ i a r k = γ k) := by
  have hresumed : (k = i ∧ Function.update γ i (D.post a (γ i) r) k = D.post a (γ i) r) ∨
      (k ≠ i ∧ Function.update γ i (D.post a (γ i) r) k = γ k) := by
    by_cases hk : k = i
    · exact .inl ⟨hk, by rw [hk, Function.update_self]⟩
    · exact .inr ⟨hk, Function.update_of_ne hk ..⟩
  unfold ghosts
  cases hlaunched : M.launched a r with
  | none => exact .inr hresumed
  | some started =>
    obtain ⟨j, p⟩ := started
    by_cases hk : k = j
    · subst hk
      exact .inl ⟨p, rfl, Function.update_self ..⟩
    · simp only [Function.update_of_ne hk]
      exact .inr hresumed

/-- A launched thread begins with the notes made for it. -/
theorem ghosts_launched (M : System A R α W C E) (D : Discipline A R G)
    (fresh : (a : A) → G → R a → G) (γ : ℕ → G) (i : ℕ) (a : A) (r : R a) {j : ℕ}
    {p : Program A R α} (h : M.launched a r = some (j, p)) :
    ghosts M D fresh γ i a r j = fresh a (γ i) r := by
  rw [ghosts, h]
  exact Function.update_self ..

/-- Every program the system can start or repeat follows the discipline. -/
structure Covers (M : System A R α W C E) (D : Discipline A R G) (Q : α → G → Prop)
    (fresh : (a : A) → G → R a → G) : Prop where
  launched : ∀ {a g r j p}, M.launched a r = some (j, p) → D.pre a g → D.fact a g r →
    p.Follows D Q (fresh a g r)
  again : ∀ {x g p}, Q x g → M.again x = some p → p.Follows D Q g

/-- `J` relates the world to the ghost states, and every disciplined action that
satisfies `ok` and every disturbance keeps it. -/
structure Preserves (M : System A R α W C E) (D : Discipline A R G)
    (fresh : (a : A) → G → R a → G) (ok : W → ℕ → A → C → Prop) (J : W → (ℕ → G) → Prop) :
    Prop where
  act : ∀ {w γ i a c r w'}, J w γ → M.alive w i = true → ok w i a c → D.pre a (γ i) →
    M.perform i a c w = some (r, w') → D.fact a (γ i) r ∧ J w' (ghosts M D fresh γ i a r)
  disturb : ∀ {w γ e w'}, J w γ → M.disturb e w = some w' → J w' γ

/-- Every thread of `s` follows the discipline from its ghost state, and `J` holds. -/
def Outlined (D : Discipline A R G) (Q : α → G → Prop) (J : W → (ℕ → G) → Prop)
    (s : Config A R α W) : Prop :=
  ∃ γ, J s.world γ ∧ ∀ i, (s.thread i).Follows D Q (γ i)

variable {M : System A R α W C E} {D : Discipline A R G} {Q : α → G → Prop}
  {fresh : (a : A) → G → R a → G} {ok : W → ℕ → A → C → Prop} {J : W → (ℕ → G) → Prop}

/-- One step keeps every thread within its outline and keeps the invariant. -/
theorem Outlined.step {s s' : Config A R α W} (hcovers : Covers M D Q fresh)
    (hpreserves : Preserves M D fresh ok J) (h : Outlined D Q J s) (hstep : M.Step ok s s') :
    Outlined D Q J s' := by
  obtain ⟨γ, hJ, hfollows⟩ := h
  cases hstep with
  | @act i a next c r w thread alive allowed performed =>
    have hthread := hfollows i
    rw [thread] at hthread
    obtain ⟨hpre, hnext⟩ := hthread
    obtain ⟨hfact, hJ'⟩ := hpreserves.act hJ alive allowed hpre performed
    refine ⟨_, hJ', fun k => ?_⟩
    have hresumed : ∀ k, (Function.update s.thread i (next r) k).Follows D Q
        (Function.update γ i (D.post a (γ i) r) k) := by
      intro k
      by_cases hk : k = i
      · subst hk
        simpa using hnext r hfact
      · simpa [hk] using hfollows k
    unfold System.resume ghosts
    cases hlaunched : M.launched a r with
    | none => exact hresumed k
    | some started =>
      obtain ⟨j, p⟩ := started
      by_cases hk : k = j
      · subst hk
        simpa using hcovers.launched hlaunched hpre hfact
      · simpa [hk] using hresumed k
  | @loop i x p thread again =>
    refine ⟨γ, hJ, fun k => ?_⟩
    by_cases hk : k = i
    · subst hk
      have hdone := hfollows k
      rw [thread] at hdone
      simpa using hcovers.again hdone again
    · simpa [hk] using hfollows k
  | disturb disturbed => exact ⟨γ, hpreserves.disturb hJ disturbed, hfollows⟩

/-- An invariant may rely on another one. -/
theorem Preserves.and {K : W → (ℕ → G) → Prop} (h : Preserves M D fresh ok J)
    (hact : ∀ {w γ i a c r w'}, J w γ → K w γ → ok w i a c → D.pre a (γ i) →
      M.perform i a c w = some (r, w') → K w' (ghosts M D fresh γ i a r))
    (hdisturb : ∀ {w γ e w'}, K w γ → M.disturb e w = some w' → K w' γ) :
    Preserves M D fresh ok fun w γ => J w γ ∧ K w γ where
  act {w γ i a c r w'} hJ halive hok hpre hperform := by
    obtain ⟨hfact, hJ'⟩ := h.act hJ.1 halive hok hpre hperform
    exact ⟨hfact, hJ', hact hJ.1 hJ.2 hok hpre hperform⟩
  disturb hJ h' := ⟨h.disturb hJ.1 h', hdisturb hJ.2 h'⟩

/-- Some outline of the current state allows the action. -/
def Licensed (D : Discipline A R G) (J : W → (ℕ → G) → Prop) (w : W) (i : ℕ) (a : A) : Prop :=
  ∃ γ, J w γ ∧ D.pre a (γ i)

/-- In a run through outlined states every action is licensed, so a second
discipline can rely on what the first one establishes. -/
theorem System.Reaches.licensed {s s' : Config A R α W} (h : M.Reaches ok s s')
    (houtlined : ∀ t, M.Reaches ok s t → Outlined D Q J t) :
    M.Reaches (fun w i a c => ok w i a c ∧ Licensed D J w i a) s s' := by
  refine h.strengthen fun t i a c hreach hhead hallowed => ⟨hallowed, ?_⟩
  obtain ⟨γ, hJ, hfollows⟩ := houtlined t hreach
  exact ⟨γ, hJ, (hfollows i).pre_head hhead⟩

/-- **The outline rule.** An invariant that every disciplined action preserves
holds in every state that a system of disciplined threads reaches. -/
theorem System.Reaches.outline {s s' : Config A R α W} (hcovers : Covers M D Q fresh)
    (hpreserves : Preserves M D fresh ok J) (h : M.Reaches ok s s') (h0 : Outlined D Q J s) :
    Outlined D Q J s' := by
  induction h with
  | refl => exact h0
  | tail _ hstep ih => exact ih.step hcovers hpreserves hstep

end Concurrency
