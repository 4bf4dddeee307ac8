import IgnibyteBridge.Concurrency.Program

/-!
# Programs that keep an invariant

An invariant of a thread's ghost state that holds before a program, and again after it,
whatever the program returns. Such programs compose without postconditions.
-/

namespace Concurrency

variable {A : Type} {R : A → Type} {G : Type} {α β ε : Type} {D : Discipline A R G} {I : G → Prop}

/-- A program leaves `I` true, whatever it returns. -/
structure Program.Maintains (D : Discipline A R G) (I : G → Prop) (p : Program A R α) : Prop where
  follows : ∀ g, I g → p.Follows D (fun _ => I) g

namespace Program

/-- A program that is done keeps everything. -/
theorem maintains_done (x : α) : (done x : Program A R α).Maintains D I := ⟨fun _ => id⟩

/-- Two programs that keep it keep it in sequence. -/
theorem Maintains.bind {p : Program A R α} {f : α → Program A R β} (h : p.Maintains D I)
    (hf : ∀ x, (f x).Maintains D I) : (p >>= f).Maintains D I := by
  constructor
  intro g hg
  rw [follows_bind]
  exact (h.follows g hg).mono fun x => (hf x).follows

/-- A program of actions that all keep `I`. -/
theorem Only.maintains {P : A → Prop} {S : α → Prop} {p : Program A R α} (h : p.Only P S)
    (hpre : ∀ a g, P a → I g → D.pre a g)
    (hpost : ∀ a g r, P a → I g → D.fact a g r → I (D.post a g r)) : p.Maintains D I := by
  constructor
  intro g hg
  exact (h.follows hpre hpost hg).mono fun _ _ h => h.2

end Program

namespace Fallible

/-- A fallible program leaves `I` true, whether it fails or not. -/
structure Keeps (D : Discipline A R G) (I : G → Prop) (p : Fallible A R ε α) : Prop where
  meets : ∀ g, I g → Meets D (fun _ => I) (fun _ => I) p g

/-- Returning keeps everything. -/
theorem keeps_pure (x : α) : Keeps D I (pure x : Fallible A R ε α) := ⟨fun _ => id⟩

/-- Raising an error keeps everything. -/
theorem keeps_throw (e : ε) : Keeps D I (throw e : Fallible A R ε α) := ⟨fun _ => id⟩

/-- A sequence keeps what both parts keep. -/
theorem Keeps.bind {p : Fallible A R ε α} {f : α → Fallible A R ε β} (h : Keeps D I p)
    (hf : ∀ x, Keeps D I (f x)) : Keeps D I (p >>= f) := by
  constructor
  intro g hg
  rw [meets_bind]
  exact Meets.mono (h.meets g hg) (fun x => (hf x).meets) fun _ _ => id

/-- A choice keeps what both alternatives keep. -/
theorem Keeps.ite {c : Prop} [Decidable c] {p q : Fallible A R ε α} (hp : Keeps D I p)
    (hq : Keeps D I q) : Keeps D I (if c then p else q) := by
  split
  · exact hp
  · exact hq

/-- A fallible program of actions that all keep `I`. -/
theorem Performs.keeps {P : A → Prop} {p : Fallible A R ε α} (h : Performs P p)
    (hpre : ∀ a g, P a → I g → D.pre a g)
    (hpost : ∀ a g r, P a → I g → D.fact a g r → I (D.post a g r)) : Keeps D I p :=
  ⟨fun _ hg => h.meets hpre hpost hg⟩

/-- A fallible program as a plain one. -/
theorem Keeps.run {p : Fallible A R ε α} (h : Keeps D I p) : p.run.Maintains D I := by
  constructor
  intro g hg
  rw [follows_run]
  exact h.meets g hg

end Fallible

end Concurrency
