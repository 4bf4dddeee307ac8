import Mathlib.Data.Nat.Notation
import Mathlib.Logic.Function.Basic

/-!
# Programs over atomic actions

A thread is a program that performs atomic actions and continues with the
responses. Programs are trees, so a thread's remaining work is a value that a
scheduler can hold between two actions. A `Discipline` says what a thread must
know before an action and what it knows after it, in a ghost state of its own;
`Follows` is the weakest precondition of a program under a discipline.
-/

namespace Concurrency

/-- A program that performs actions `a : A`, receives a response of type `R a`
to each, and finishes with a result. -/
inductive Program (A : Type) (R : A → Type) (α : Type) where
  | done (x : α)
  | act (a : A) (next : R a → Program A R α)

namespace Program

variable {A : Type} {R : A → Type} {α β γ : Type}

/-- Sequential composition: the second program runs on the first one's result. -/
def bind : Program A R α → (α → Program A R β) → Program A R β
  | .done x, f => f x
  | .act a next, f => .act a fun r => (next r).bind f

instance : Monad (Program A R) where
  pure := .done
  bind := Program.bind

/-- Returning is being done. -/
@[simp] theorem pure_eq_done (x : α) : (pure x : Program A R α) = .done x := rfl

/-- What follows a result is told of it. -/
@[simp] theorem done_bind (x : α) (f : α → Program A R β) : (done x >>= f) = f x := rfl

/-- What follows an action waits for its response. -/
@[simp] theorem act_bind (a : A) (next : R a → Program A R α) (f : α → Program A R β) :
    (act a next >>= f) = act a fun r => next r >>= f := rfl

/-- The action that a program performs next. -/
def head : Program A R α → Option A
  | .done _ => none
  | .act a _ => some a

/-- A program with a next action begins with it. -/
theorem eq_act_of_head {p : Program A R α} {a : A} (h : p.head = some a) :
    ∃ next, p = .act a next := by
  cases p with
  | done x => cases h
  | act b next =>
    cases h
    exact ⟨next, rfl⟩

/-- A single action, with its response as the result. -/
def perform (a : A) : Program A R (R a) := .act a .done

end Program

/-- What a thread must know before each action, what it may rely on about the
response, and what it knows afterwards. The ghost state `G` is the thread's own. -/
structure Discipline (A : Type) (R : A → Type) (G : Type) where
  /-- The obligation before an action. -/
  pre : A → G → Prop
  /-- What the thread may assume about the response. -/
  fact : (a : A) → G → R a → Prop
  /-- The ghost state after the response. -/
  post : (a : A) → G → R a → G

variable {A : Type} {R : A → Type} {G : Type} {α β ε : Type}

/-- The weakest precondition of a program: every action it can perform meets
its obligation, and every result it can finish with satisfies `Q`. -/
def Program.Follows (D : Discipline A R G) (Q : α → G → Prop) : Program A R α → G → Prop
  | .done x, g => Q x g
  | .act a next, g => D.pre a g ∧ ∀ r, D.fact a g r → (next r).Follows D Q (D.post a g r)

namespace Program

variable {D : Discipline A R G} {Q Q' : α → G → Prop}

/-- A result that is reached satisfies its condition. -/
@[simp] theorem follows_done (x : α) (g : G) : (done x : Program A R α).Follows D Q g ↔ Q x g :=
  Iff.rfl

/-- An action meets its obligation, and what follows relies on the response. -/
@[simp] theorem follows_act (a : A) (next : R a → Program A R α) (g : G) :
    (act a next).Follows D Q g ↔
      D.pre a g ∧ ∀ r, D.fact a g r → (next r).Follows D Q (D.post a g r) :=
  Iff.rfl

/-- A composition follows the discipline when its first part does, with the
second part's precondition as its postcondition. -/
@[simp] theorem follows_bind (p : Program A R α) (f : α → Program A R β) (Q : β → G → Prop)
    (g : G) : (p >>= f).Follows D Q g ↔ p.Follows D (fun x g => (f x).Follows D Q g) g := by
  induction p generalizing g with
  | done x => rfl
  | act a next ih => simp only [act_bind, follows_act, ih]

/-- A weaker postcondition is easier to reach. -/
theorem Follows.mono {p : Program A R α} {g : G} (h : p.Follows D Q g)
    (hQ : ∀ x g, Q x g → Q' x g) : p.Follows D Q' g := by
  induction p generalizing g with
  | done x => exact hQ x g h
  | act a next ih => exact ⟨h.1, fun r hr => ih r (h.2 r hr)⟩

/-- The next action of a disciplined program meets its obligation. -/
theorem Follows.pre_head {p : Program A R α} {g : G} {a : A} (h : p.Follows D Q g)
    (ha : p.head = some a) : D.pre a g := by
  obtain ⟨next, rfl⟩ := eq_act_of_head ha
  exact h.1

/-- The same of a single action. -/
@[simp] theorem follows_perform (a : A) (Q : R a → G → Prop) (g : G) :
    (perform a : Program A R (R a)).Follows D Q g ↔
      D.pre a g ∧ ∀ r, D.fact a g r → Q r (D.post a g r) :=
  Iff.rfl

section Eval

variable {W : Type} (answer : (a : A) → W → R a × W)

/-- Run a program alone, over a world that answers each action in one way. -/
def eval : Program A R α → W → α × W
  | .done x, w => (x, w)
  | .act a next, w => (next (answer a w).1).eval (answer a w).2

/-- The discipline of a program that runs alone, with the world as its ghost state. -/
def answering : Discipline A R W where
  pre _ _ := True
  fact a w r := r = (answer a w).1
  post a w _ := (answer a w).2

/-- The weakest precondition of a program that runs alone speaks of its one run. -/
theorem follows_answering (p : Program A R α) (Q : α → W → Prop) (w : W) :
    p.Follows (answering answer) Q w ↔ Q (p.eval answer w).1 (p.eval answer w).2 := by
  induction p generalizing w with
  | done x => rfl
  | act a next ih =>
    rw [follows_act, eval, ← ih]
    constructor
    · rintro ⟨-, h⟩
      exact h _ rfl
    · intro h
      refine ⟨trivial, fun r hr => ?_⟩
      rw [show r = (answer a w).1 from hr]
      exact h

end Eval

/-- The discipline of a thread that performs no actions but those that satisfy `P`. -/
def guard (P : A → Prop) : Discipline A R Unit where
  pre a _ := P a
  fact _ _ _ := True
  post _ _ _ := ()

/-- Every action that a program can perform satisfies `P`, and every result `S`. -/
def Only (P : A → Prop) (S : α → Prop) (p : Program A R α) : Prop :=
  p.Follows (guard P) (fun x _ => S x) ()

/-- A weaker condition holds of the same actions. -/
theorem Only.mono {P P' : A → Prop} {S : α → Prop} {p : Program A R α} (h : p.Only P S)
    (hP : ∀ a, P a → P' a) : p.Only P' S := by
  induction p with
  | done x => exact h
  | act a next ih => exact ⟨hP a h.1, fun r _ => ih r (h.2 r trivial)⟩

/-- An invariant of the actions that a program performs holds when it finishes. -/
theorem Only.follows {P : A → Prop} {S : α → Prop} {I : G → Prop} {p : Program A R α} {g : G}
    (h : p.Only P S) (hpre : ∀ a g, P a → I g → D.pre a g)
    (hpost : ∀ a g r, P a → I g → D.fact a g r → I (D.post a g r)) (hg : I g) :
    p.Follows D (fun x g => S x ∧ I g) g := by
  induction p generalizing g with
  | done x => exact ⟨h, hg⟩
  | act a next ih =>
    exact ⟨hpre a g h.1 hg, fun r hr => ih r (h.2 r trivial) (hpost a g r h.1 hg hr)⟩

end Program

/-- A program that may stop early with an error, as one that returns a result type. -/
abbrev Fallible (A : Type) (R : A → Type) (ε α : Type) := ExceptT ε (Program A R) α

/-- The weakest precondition of a fallible program: `Q` for its results and `E`
for its errors. -/
def Fallible.Meets (D : Discipline A R G) (Q : α → G → Prop) (E : ε → G → Prop)
    (p : Fallible A R ε α) (g : G) : Prop :=
  p.run.Follows D (fun r g => match r with | .ok x => Q x g | .error e => E e g) g

namespace Fallible

variable {D : Discipline A R G} {Q : α → G → Prop} {E : ε → G → Prop}

/-- A result that is returned satisfies its condition. -/
@[simp] theorem meets_pure (x : α) (g : G) :
    Meets D Q E (pure x : Fallible A R ε α) g ↔ Q x g := Iff.rfl

/-- An error that is raised satisfies its condition. -/
@[simp] theorem meets_throw (e : ε) (g : G) :
    Meets D Q E (throw e : Fallible A R ε α) g ↔ E e g := Iff.rfl

/-- A program that cannot fail has results only. -/
@[simp] theorem meets_lift (p : Program A R α) (g : G) :
    Meets D Q E (liftM p : Fallible A R ε α) g ↔ p.Follows D Q g := by
  change (p >>= fun x => Program.done (Except.ok x)).Follows D _ g ↔ _
  simp

/-- A sequence stops at the first error. -/
@[simp] theorem meets_bind (p : Fallible A R ε α) (f : α → Fallible A R ε β) (Q : β → G → Prop)
    (g : G) : Meets D Q E (p >>= f) g ↔ Meets D (fun x g => Meets D Q E (f x) g) E p g := by
  unfold Meets
  rw [ExceptT.run_bind, Program.follows_bind]
  constructor <;> refine fun h => h.mono ?_ <;> rintro (e | x) g <;> exact id

/-- A fallible program as a plain program with a result of type `Except`. -/
@[simp] theorem follows_run (p : Fallible A R ε α) (Q : Except ε α → G → Prop) (g : G) :
    p.run.Follows D Q g ↔ Meets D (fun x => Q (.ok x)) (fun e => Q (.error e)) p g := by
  unfold Meets
  constructor <;> refine fun h => h.mono ?_ <;> rintro (e | x) g <;> exact id

/-- Weaker conditions are easier to reach. -/
theorem Meets.mono {p : Fallible A R ε α} {g : G} {Q' : α → G → Prop} {E' : ε → G → Prop}
    (h : Meets D Q E p g) (hQ : ∀ x g, Q x g → Q' x g) (hE : ∀ e g, E e g → E' e g) :
    Meets D Q' E' p g := by
  refine Program.Follows.mono h ?_
  rintro (e | x) g
  · exact hE e g
  · exact hQ x g

/-- What holds after a program that never fails holds under any error condition. -/
theorem Meets.surely {p : Fallible A R ε α} {g : G} {Q' : α → G → Prop}
    (h : Meets D Q (fun _ _ => False) p g) (hQ : ∀ x g, Q x g → Q' x g) : Meets D Q' E p g :=
  Meets.mono h hQ fun _ _ => False.elim

/-- A sequence whose first part never fails. -/
theorem Meets.andThen {p : Fallible A R ε α} {f : α → Fallible A R ε β} {g : G}
    {Q' : β → G → Prop} (h : Meets D Q (fun _ _ => False) p g)
    (hf : ∀ x g, Q x g → Meets D Q' E (f x) g) : Meets D Q' E (p >>= f) g :=
  (meets_bind p f Q' g).mpr (Meets.surely h hf)

/-- A single action of a fallible program. -/
def perform (a : A) : Fallible A R ε (R a) := liftM (Program.perform (R := R) a)

/-- The outcome of a program whose error is handled. -/
def outcome (p : Fallible A R ε α) : Fallible A R ε (Except ε α) := liftM p.run

/-- The value of an optional result, or an error. -/
def orThrow (e : ε) : Option α → Fallible A R ε α
  | some x => pure x
  | none => throw e

/-- An error unless a call succeeded. -/
def ensure (e : ε) (ok : Bool) : Fallible A R ε Unit := if ok then pure () else throw e

/-- A single action has results only. -/
@[simp] theorem meets_perform (a : A) (Q : R a → G → Prop) (g : G) :
    Meets D Q E (perform a) g ↔ D.pre a g ∧ ∀ r, D.fact a g r → Q r (D.post a g r) :=
  meets_lift _ g

/-- A handled error is one more result. -/
@[simp] theorem meets_outcome (p : Fallible A R ε α) (Q : Except ε α → G → Prop) (g : G) :
    Meets D Q E (outcome p) g ↔ Meets D (fun x => Q (.ok x)) (fun e => Q (.error e)) p g :=
  (meets_lift _ g).trans (follows_run p Q g)

/-- An action of a program that runs alone has one outcome. -/
theorem meets_answered {W : Type} {answer : (a : A) → W → R a × W} {E : ε → W → Prop} {a : A}
    {Q : R a → W → Prop} {w : W} (h : Q (answer a w).1 (answer a w).2) :
    Meets (Program.answering answer) Q E (perform a) w := by
  refine (meets_perform a Q w).mpr ⟨trivial, fun r hr => ?_⟩
  rw [show r = (answer a w).1 from hr]
  exact h

/-- An optional result is there, or there is the error. -/
theorem meets_orThrow {e : ε} {x : Option α} {g : G} (hsome : ∀ a, x = some a → Q a g)
    (hnone : x = none → E e g) : Meets D Q E (orThrow e x) g := by
  cases x with
  | some a => exact hsome a rfl
  | none => exact hnone rfl

/-- A call succeeded, or there is the error. -/
theorem meets_ensure {e : ε} {ok : Bool} {Q : Unit → G → Prop} {g : G}
    (htrue : ok = true → Q () g) (hfalse : ok = false → E e g) :
    Meets D Q E (ensure e ok) g := by
  cases ok with
  | true => exact htrue rfl
  | false => exact hfalse rfl

/-- A call that succeeded is no error. -/
theorem meets_ensure_true {e : ε} {Q : Unit → G → Prop} {g : G} (h : Q () g) :
    Meets D Q E (ensure e true) g := h

section Decides

variable {C C' : Prop} {I J : G → Prop}

/-- A program succeeds exactly when `C` holds, and leaves `I` true in any case. -/
def Decides (D : Discipline A R G) (C : Prop) (I : G → Prop) (p : Fallible A R ε α) (g : G) :
    Prop :=
  Meets D (fun _ g => C ∧ I g) (fun _ g => ¬C ∧ I g) p g

/-- Equivalent conditions decide the same. -/
theorem Decides.congr {p : Fallible A R ε α} {g : G} (h : Decides D C I p g) (hC : C ↔ C') :
    Decides D C' I p g := by
  rw [Decides, ← hC]
  exact h

/-- A sequence succeeds exactly when its parts do. -/
theorem Decides.bind {p : Fallible A R ε α} {f : α → Fallible A R ε β} {g : G}
    (h : Decides D C I p g) (hf : ∀ x g, I g → Decides D C' J (f x) g) (hIJ : ∀ g, I g → J g) :
    Decides D (C ∧ C') J (p >>= f) g := by
  refine (meets_bind p f _ g).mpr (Meets.mono h ?_ ?_)
  · rintro x g ⟨hC, hI⟩
    exact Meets.mono (hf x g hI) (fun _ _ ⟨hC', hJ⟩ => ⟨⟨hC, hC'⟩, hJ⟩)
      fun _ _ ⟨hC', hJ⟩ => ⟨fun hboth => hC' hboth.2, hJ⟩
  · rintro e g ⟨hC, hI⟩
    exact ⟨fun hboth => hC hboth.1, hIJ g hI⟩

/-- A program that is done succeeded. -/
theorem decides_pure {x : α} {g : G} (hC : C) (hI : I g) :
    Decides D C I (pure x : Fallible A R ε α) g :=
  ⟨hC, hI⟩

/-- One that raises an error did not. -/
theorem decides_throw {e : ε} {g : G} (hC : ¬C) (hI : I g) :
    Decides D C I (throw e : Fallible A R ε α) g :=
  ⟨hC, hI⟩

/-- A call's success decides. -/
theorem decides_ensure {e : ε} {ok : Bool} {g : G} (hC : ok = true ↔ C) (hI : I g) :
    Decides D C I (ensure e ok) g :=
  meets_ensure (fun h => ⟨hC.mp h, hI⟩) fun h => ⟨fun hC' => absurd (hC.mpr hC') (by simp [h]), hI⟩

/-- The action that a program which runs alone begins with. -/
theorem decides_answered {W : Type} {answer : (a : A) → W → R a × W} {a : A} {I : W → Prop}
    {f : R a → Fallible A R ε β} {w : W}
    (h : Decides (Program.answering answer) C I (f (answer a w).1) (answer a w).2) :
    Decides (Program.answering answer) C I (perform a >>= f) w :=
  (meets_bind _ f _ w).mpr (meets_answered h)

end Decides

/-- Every action that a fallible program can perform satisfies `P`. -/
def Performs (P : A → Prop) (p : Fallible A R ε α) : Prop :=
  Meets (Program.guard P) (fun _ _ => True) (fun _ _ => True) p ()

section Performs

variable {P : A → Prop}

/-- Returning performs nothing. -/
@[simp] theorem performs_pure (x : α) : Performs P (pure x : Fallible A R ε α) := trivial

/-- Raising an error performs nothing. -/
@[simp] theorem performs_throw (e : ε) : Performs P (throw e : Fallible A R ε α) := trivial

/-- A sequence performs what its parts do. -/
theorem Performs.bind {p : Fallible A R ε α} {f : α → Fallible A R ε β} (h : Performs P p)
    (hf : ∀ x, Performs P (f x)) : Performs P (p >>= f) :=
  (meets_bind p f _ ()).mpr (Meets.mono h (fun x _ _ => hf x) fun _ _ => id)

/-- A program that cannot fail, as one that can. -/
theorem performs_lift {p : Program A R α} (h : p.Only P fun _ => True) :
    Performs P (liftM p : Fallible A R ε α) :=
  (meets_lift p ()).mpr h

/-- A fallible program, as one with a result of type `Except`. -/
theorem Performs.run {p : Fallible A R ε α} (h : Performs P p) : p.run.Only P fun _ => True :=
  (follows_run p _ ()).mpr h

/-- An invariant of the actions that a fallible program performs holds when it finishes. -/
theorem Performs.meets {I : G → Prop} {p : Fallible A R ε α} {g : G} (h : Performs P p)
    (hpre : ∀ a g, P a → I g → D.pre a g)
    (hpost : ∀ a g r, P a → I g → D.fact a g r → I (D.post a g r)) (hg : I g) :
    Meets D (fun _ => I) (fun _ => I) p g :=
  (follows_run p (fun _ => I) g).mp ((h.run.follows hpre hpost hg).mono fun _ _ h => h.2)

end Performs

end Fallible

end Concurrency
