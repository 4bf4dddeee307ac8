import IgnibyteBridge.Concurrency.Trace

/-!
# Programs of bounded length

How many actions a program performs at most, whatever the responses are. A bound for a
composition is the sum of the bounds of its parts.
-/

namespace Concurrency

variable {A : Type} {R : A → Type} {α β ε G : Type} {m n : ℕ}

namespace Program

/-- A program performs at most `n` actions before it finishes. -/
inductive AtMost : ℕ → Program A R α → Prop
  | done (n : ℕ) (x : α) : AtMost n (.done x)
  | act {n : ℕ} {a : A} {next : R a → Program A R α} (h : ∀ r, AtMost n (next r)) :
    AtMost (n + 1) (.act a next)

/-- A larger bound holds too. -/
theorem AtMost.mono {p : Program A R α} (h : p.AtMost m) (hmn : m ≤ n) : p.AtMost n := by
  induction h generalizing n with
  | done m x => exact .done n x
  | act _ ih =>
    obtain ⟨n, rfl⟩ : ∃ k, n = k + 1 := ⟨n - 1, by omega⟩
    exact .act fun r => ih r (by omega)

/-- The bounds of a sequence add up. -/
theorem AtMost.bind {p : Program A R α} {f : α → Program A R β} (h : p.AtMost m)
    (hf : ∀ x, (f x).AtMost n) : (p >>= f).AtMost (m + n) := by
  induction h with
  | done m x => exact (hf x).mono (by omega)
  | @act m a next _ ih =>
    rw [Nat.add_right_comm]
    exact .act ih

/-- A single action is one. -/
theorem atMost_perform (a : A) : (perform a : Program A R (R a)).AtMost 1 := .act fun r => .done 0 r

/-- What a bounded program has performed counts against its bound. -/
theorem AtMost.length_le {p q : Program A R α} {log : List (Event A R)} (h : p.AtMost n)
    (hleads : p.Leads log q) : log.length ≤ n := by
  induction hleads generalizing n with
  | refl p => exact Nat.zero_le n
  | @act a next r log q _ ih =>
    cases h with
    | act hnext =>
      have hrest := ih (hnext r)
      rw [List.length_cons]
      omega

/-- The kinds of actions that a program performs are known all along. -/
theorem Only.of_leads {P : A → Prop} {S : α → Prop} {p q : Program A R α} {log : List (Event A R)}
    (h : p.Only P S) (hleads : p.Leads log q) : q.Only P S := by
  induction hleads with
  | refl p => exact h
  | act _ ih => exact ih (h.2 _ trivial)

/-- The next action of a program is one of those that it performs. -/
theorem Only.head {P : A → Prop} {S : α → Prop} {p : Program A R α} (h : p.Only P S) {a : A}
    (ha : p.head = some a) : P a :=
  Follows.pre_head h ha

end Program

namespace Fallible

/-- A fallible program performs at most `n` actions. -/
structure AtMost (n : ℕ) (p : Fallible A R ε α) : Prop where
  run : p.run.AtMost n

/-- A larger bound holds too. -/
theorem AtMost.mono {p : Fallible A R ε α} (h : AtMost m p) (hmn : m ≤ n) : AtMost n p :=
  ⟨h.run.mono hmn⟩

/-- Returning performs nothing. -/
theorem atMost_pure (n : ℕ) (x : α) : AtMost n (pure x : Fallible A R ε α) := ⟨.done n _⟩

/-- Raising an error performs nothing. -/
theorem atMost_throw (n : ℕ) (e : ε) : AtMost n (throw e : Fallible A R ε α) := ⟨.done n _⟩

/-- The bounds of a sequence add up. -/
theorem AtMost.bind {p : Fallible A R ε α} {f : α → Fallible A R ε β} (h : AtMost m p)
    (hf : ∀ x, AtMost n (f x)) : AtMost (m + n) (p >>= f) := by
  constructor
  rw [ExceptT.run_bind]
  refine h.run.bind fun r => ?_
  cases r with
  | ok x => exact (hf x).run
  | error e => exact .done n _

/-- A check of a result that performs nothing, before the rest. -/
theorem AtMost.after {γ : Type} {p : Fallible A R ε α} {check : α → Fallible A R ε β}
    {f : β → Fallible A R ε γ} (h : AtMost m p) (hcheck : ∀ x, AtMost 0 (check x))
    (hf : ∀ y, AtMost n (f y)) : AtMost (m + n) (p >>= fun x => check x >>= f) := by
  refine h.bind fun x => ?_
  exact ((hcheck x).bind hf).mono (by omega)

/-- A branch keeps a bound that both of its sides keep. -/
theorem AtMost.ite {c : Prop} [Decidable c] {p q : Fallible A R ε α} (hp : AtMost n p)
    (hq : AtMost n q) : AtMost n (if c then p else q) := by
  split
  · exact hp
  · exact hq

/-- A program that cannot fail, as one that can. -/
theorem atMost_lift {p : Program A R α} (h : p.AtMost n) :
    AtMost n (liftM p : Fallible A R ε α) := by
  constructor
  have hdone := h.bind fun x => Program.AtMost.done 0 (Except.ok x : Except ε α)
  exact hdone

end Fallible

end Concurrency
