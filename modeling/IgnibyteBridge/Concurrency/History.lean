import IgnibyteBridge.Concurrency.Trace

/-!
# Histories

A system that remembers what happened in it runs exactly as it would otherwise, so a
statement about a run may mention the history of the run. What each thread did is
summarised by its ghost state.
-/

namespace Concurrency

variable {A : Type} {R : A → Type} {α W C E G : Type}

/-- A step that may change the world. -/
inductive Happening (A : Type) (R : A → Type) (E : Type) where
  | act (i : ℕ) (a : A) (r : R a)
  | disturb (e : E)

/-- A world, and what has happened in it. -/
structure WithHistory (A : Type) (R : A → Type) (W E : Type) where
  world : W
  history : List (Happening A R E)

/-- What a thread did, if the step was one of this thread. -/
def Happening.event (k : ℕ) : Happening A R E → Option (Event A R)
  | .act i a r => if i = k then some ⟨a, r⟩ else none
  | .disturb _ => none

/-- What a thread did. -/
def events (k : ℕ) (history : List (Happening A R E)) : List (Event A R) :=
  history.filterMap (Happening.event k)

variable {history : List (Happening A R E)} {i k : ℕ} {a : A} {r : R a} {e : E}

/-- A thread's own action is its last event. -/
theorem events_act_self : events i (history ++ [.act i a r]) = events i history ++ [⟨a, r⟩] := by
  simp [events, Happening.event]

/-- The actions of the others are no events of its own. -/
theorem events_act_of_ne (h : k ≠ i) : events k (history ++ [.act i a r]) = events k history := by
  simp [events, Happening.event, h.symm]

/-- What happens outside is no event of any thread. -/
theorem events_disturb : events k (history ++ [.disturb e]) = events k history := by
  simp [events, Happening.event]

namespace System

/-- The system with its history. -/
def recorded (M : System A R α W C E) : System A R α (WithHistory A R W E) C E where
  alive w i := M.alive w.world i
  perform i a c w :=
    (M.perform i a c w.world).map fun x => (x.1, ⟨x.2, w.history ++ [.act i a x.1]⟩)
  launched := M.launched
  again := M.again
  disturb e w := (M.disturb e w.world).map fun w' => ⟨w', w.history ++ [.disturb e]⟩

variable {M : System A R α W C E} {ok : W → ℕ → A → C → Prop}

/-- An action of the recorded system is the action itself, written down. -/
theorem perform_recorded {c : C} {w w' : WithHistory A R W E}
    (h : M.recorded.perform i a c w = some (r, w')) :
    M.perform i a c w.world = some (r, w'.world) ∧ w'.history = w.history ++ [.act i a r] := by
  obtain ⟨⟨r', w₁⟩, hperform, heq⟩ := Option.map_eq_some_iff.mp h
  cases heq
  exact ⟨hperform, rfl⟩

/-- What happens outside the recorded system is written down. -/
theorem disturb_recorded {w w' : WithHistory A R W E} (h : M.recorded.disturb e w = some w') :
    M.disturb e w.world = some w'.world ∧ w'.history = w.history ++ [.disturb e] := by
  obtain ⟨w₁, hdisturb, heq⟩ := Option.map_eq_some_iff.mp h
  cases heq
  exact ⟨hdisturb, rfl⟩

end System

/-- A state, with what has happened before. -/
def Config.record (s : Config A R α W) (history : List (Happening A R E)) :
    Config A R α (WithHistory A R W E) :=
  ⟨⟨s.world, history⟩, s.thread⟩

/-- A state without its history. -/
def Config.forget (s : Config A R α (WithHistory A R W E)) : Config A R α W :=
  ⟨s.world.world, s.thread⟩

namespace System

variable {M : System A R α W C E} {ok : W → ℕ → A → C → Prop}

/-- Every step can be recorded. -/
theorem Step.record {s t : Config A R α W} (h : M.Step ok s t)
    (history : List (Happening A R E)) :
    ∃ history', M.recorded.Step (fun w => ok w.world) (s.record history) (t.record history') := by
  cases h with
  | @act i a next c r w thread alive allowed performed =>
    have hperform : M.recorded.perform i a c (s.record history).world =
        some (r, ⟨w, history ++ [.act i a r]⟩) := by
      simp [recorded, Config.record, performed]
    exact ⟨_, .act thread alive allowed hperform⟩
  | loop thread again => exact ⟨history, .loop thread again⟩
  | @disturb e w disturbed =>
    have hdisturb : M.recorded.disturb e (s.record history).world =
        some ⟨w, history ++ [.disturb e]⟩ := by
      simp [recorded, Config.record, disturbed]
    exact ⟨_, .disturb hdisturb⟩

/-- A recorded step is a step. -/
theorem Step.forget {s t : Config A R α (WithHistory A R W E)}
    (h : M.recorded.Step (fun w => ok w.world) s t) : M.Step ok s.forget t.forget := by
  cases h with
  | act thread alive allowed performed =>
    exact .act thread alive allowed (perform_recorded performed).1
  | loop thread again => exact .loop thread again
  | disturb disturbed => exact .disturb (disturb_recorded disturbed).1

/-- A system runs as it does without its history. -/
theorem reaches_iff_recorded {s t : Config A R α W} (history : List (Happening A R E)) :
    M.Reaches ok s t ↔ ∃ history',
      M.recorded.Reaches (fun w => ok w.world) (s.record history) (t.record history') := by
  constructor
  · intro h
    induction h with
    | refl => exact ⟨history, .refl⟩
    | tail _ hstep ih =>
      obtain ⟨history', hreach⟩ := ih
      obtain ⟨history'', hstep'⟩ := hstep.record history'
      exact ⟨history'', hreach.tail hstep'⟩
  · rintro ⟨history', h⟩
    exact h.lift Config.forget fun _ _ => Step.forget

end System

/-! ### What a thread did -/

/-- Threads that have not started: they cannot act, an action starts only such threads, and no
other thread becomes one. -/
structure Births (M : System A R α W C E) (Unborn : W → ℕ → Prop) : Prop where
  alive : ∀ {w i}, M.alive w i = true → ¬Unborn w i
  launched : ∀ {i a c w r w' k p}, M.perform i a c w = some (r, w') →
    M.launched a r = some (k, p) → Unborn w k
  act : ∀ {i a c w r w' k}, M.perform i a c w = some (r, w') → Unborn w' k → Unborn w k
  disturb : ∀ {e w w' k}, M.disturb e w = some w' → Unborn w' k → Unborn w k

/-- An invariant, where `S` says what the ghost state of a thread says about what it did. -/
structure Recalls (Unborn : W → ℕ → Prop) (J : W → (ℕ → G) → Prop)
    (S : List (Event A R) → G → Prop) (w : WithHistory A R W E) (γ : ℕ → G) : Prop where
  world : J w.world γ
  recalls : ∀ k, S (events k w.history) (γ k)
  unborn : ∀ k, Unborn w.world k → events k w.history = []

/-- What a thread's ghost state says about it. -/
structure Summarizes (M : System A R α W C E) (D : Discipline A R G)
    (fresh : (a : A) → G → R a → G) (S : List (Event A R) → G → Prop) : Prop where
  act : ∀ {log g a r}, S log g → D.pre a g → D.fact a g r → S (log ++ [⟨a, r⟩]) (D.post a g r)
  launched : ∀ {a g r k p}, M.launched a r = some (k, p) → S [] (fresh a g r)

variable {M : System A R α W C E} {D : Discipline A R G} {Q : α → G → Prop}
  {fresh : (a : A) → G → R a → G} {ok : W → ℕ → A → C → Prop} {J : W → (ℕ → G) → Prop}
  {Unborn : W → ℕ → Prop} {S : List (Event A R) → G → Prop}

/-- A discipline that covers the system covers the recorded one. -/
theorem Covers.recorded (h : Covers M D Q fresh) : Covers M.recorded D Q fresh :=
  ⟨h.launched, h.again⟩

/-- An invariant of the world is one of the world with its history, and what every thread's
ghost state says about it stays true. -/
theorem Preserves.recorded (h : Preserves M D fresh ok J) (hbirths : Births M Unborn)
    (hS : Summarizes M D fresh S) :
    Preserves M.recorded D fresh (fun w => ok w.world) (Recalls Unborn J S) where
  act {w γ i a c r w'} hJ halive hok hpre hperform := by
    obtain ⟨hperform, hhistory⟩ := System.perform_recorded hperform
    obtain ⟨hfact, hJ'⟩ := h.act hJ.world halive hok hpre hperform
    refine ⟨hfact, hJ', fun k => ?_, fun k hk => ?_⟩
    · rw [hhistory]
      rcases ghosts_cases M D fresh γ i a r k with ⟨p, hlaunched, heq⟩ | ⟨rfl, heq⟩ | ⟨hne, heq⟩
      · have hunborn : Unborn w.world k := hbirths.launched hperform hlaunched
        have hne : k ≠ i := by
          rintro rfl
          exact hbirths.alive halive hunborn
        rw [events_act_of_ne hne, hJ.unborn k hunborn]
        exact heq ▸ hS.launched hlaunched
      · rw [events_act_self]
        exact heq ▸ hS.act (hJ.recalls k) hpre hfact
      · rw [events_act_of_ne hne]
        exact heq ▸ hJ.recalls k
    · have hunborn := hbirths.act hperform hk
      have hne : k ≠ i := by
        rintro rfl
        exact hbirths.alive halive hunborn
      rw [hhistory, events_act_of_ne hne]
      exact hJ.unborn k hunborn
  disturb {w γ e w'} hJ hdisturb := by
    obtain ⟨hdisturb, hhistory⟩ := System.disturb_recorded hdisturb
    refine ⟨h.disturb hJ.world hdisturb, fun k => ?_, fun k hk => ?_⟩
    · rw [hhistory, events_disturb]
      exact hJ.recalls k
    · rw [hhistory, events_disturb]
      exact hJ.unborn k (hbirths.disturb hdisturb hk)

end Concurrency
