import Mathlib.Data.List.Basic

/-!
# Streaming transducers

A transducer consumes one input symbol at a time, carries a state and emits
output. The lemmas here say that its output does not depend on how the input is
cut into chunks, and reduce a property of a whole stream to one of a symbol.
-/

namespace Streaming

variable {σ β γ : Type}

/-- Run a transducer over an input, concatenating what it emits. -/
def feed (step : σ → β → σ × List γ) : σ → List β → σ × List γ
  | s, [] => (s, [])
  | s, b :: input =>
    ((feed step (step s b).1 input).1, (step s b).2 ++ (feed step (step s b).1 input).2)

/-- Run a transducer over successive chunks, carrying the state across them. -/
def feedChunks (step : σ → β → σ × List γ) : σ → List (List β) → σ × List γ
  | s, [] => (s, [])
  | s, chunk :: chunks =>
    ((feedChunks step (feed step s chunk).1 chunks).1,
      (feed step s chunk).2 ++ (feedChunks step (feed step s chunk).1 chunks).2)

variable (step : σ → β → σ × List γ)

/-- No input yields no output. -/
@[simp] theorem feed_nil (s : σ) : feed step s [] = (s, []) := rfl

/-- The first symbol is taken first. -/
theorem feed_cons (s : σ) (b : β) (input : List β) :
    feed step s (b :: input) =
      ((feed step (step s b).1 input).1, (step s b).2 ++ (feed step (step s b).1 input).2) := rfl

/-- One symbol is one step. -/
@[simp] theorem feed_singleton (s : σ) (b : β) : feed step s [b] = step s b := by
  simp [feed_cons]

/-- Feeding a concatenation feeds its parts in turn. -/
theorem feed_append (s : σ) (u v : List β) :
    feed step s (u ++ v) =
      ((feed step (feed step s u).1 v).1, (feed step s u).2 ++ (feed step (feed step s u).1 v).2) := by
  induction u generalizing s with
  | nil => rfl
  | cons b u ih => simp [feed_cons, ih]

/-- The output does not depend on where the input is cut. -/
theorem feedChunks_eq_feed (s : σ) (chunks : List (List β)) :
    feedChunks step s chunks = feed step s chunks.flatten := by
  induction chunks generalizing s with
  | nil => rfl
  | cons chunk chunks ih => rw [feedChunks, ih, List.flatten_cons, feed_append]

variable {step}

/-- Symbols that a transducer absorbs in one state leave it there, silent. -/
theorem feed_of_silent {s : σ} {input : List β} (h : ∀ b ∈ input, step s b = (s, [])) :
    feed step s input = (s, []) := by
  induction input with
  | nil => rfl
  | cons b input ih =>
    rw [feed_cons, h b (by simp), ih fun c hc => h c (by simp [hc])]
    rfl

/-- A property of every symbol that a step emits holds of a whole output. -/
theorem feed_emits {P : γ → Prop} (hstep : ∀ s b, ∀ c ∈ (step s b).2, P c) (s : σ)
    (input : List β) : ∀ c ∈ (feed step s input).2, P c := by
  induction input generalizing s with
  | nil => simp
  | cons b input ih =>
    intro c hc
    rw [feed_cons, List.mem_append] at hc
    rcases hc with hc | hc
    · exact hstep s b c hc
    · exact ih (step s b).1 c hc

/-- If each step passes on at most what it owed and the symbol it read, then a
whole output, with what is still owed, is found in order in the input. -/
theorem feed_sublist (owed : σ → List γ) (read : β → γ)
    (hstep : ∀ s b, ((step s b).2 ++ owed (step s b).1).Sublist (owed s ++ [read b]))
    (s : σ) (input : List β) :
    ((feed step s input).2 ++ owed (feed step s input).1).Sublist
      (owed s ++ input.map read) := by
  induction input generalizing s with
  | nil => simp
  | cons b input ih =>
    have hrest := (List.Sublist.refl (step s b).2).append (ih (step s b).1)
    have hhead := (hstep s b).append (List.Sublist.refl (input.map read))
    rw [List.append_assoc] at hhead
    rw [feed_cons, List.map_cons, List.append_assoc]
    rw [List.append_assoc, List.singleton_append] at hhead
    exact hrest.trans hhead

end Streaming
