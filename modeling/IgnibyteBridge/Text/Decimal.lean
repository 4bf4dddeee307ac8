import Mathlib.Data.List.Basic

/-!
# Decimal numbers in texts

A number is written in digits only, so a text that separates numbers by another
character can be taken apart again.
-/

namespace Text

/-- Only digits stand in a decimal number. -/
theorem isDigit_of_mem_repr {n : ℕ} {c : Char} (h : c ∈ n.repr.toList) : c.isDigit = true := by
  rw [Nat.toList_repr] at h
  exact Nat.isDigit_of_mem_toDigits (by decide) (by decide) h

/-- Two numbers with one decimal text are one number. -/
theorem repr_injective {m n : ℕ} (h : m.repr = n.repr) : m = n := by
  have hdigits : Nat.toDigits 10 m = Nat.toDigits 10 n := by
    rw [← Nat.toList_repr, ← Nat.toList_repr, h]
  rw [← Nat.ofDigitChars_ten_toDigits (n := m), hdigits, Nat.ofDigitChars_ten_toDigits]

/-- A text is cut at the first separator in one way. -/
theorem append_separator_inj {α : Type} {separator : α} {u u' v v' : List α} (hu : separator ∉ u)
    (hu' : separator ∉ u') (h : u ++ separator :: v = u' ++ separator :: v') : u = u' ∧ v = v' := by
  induction u generalizing u' with
  | nil =>
    cases u' with
    | nil => exact ⟨rfl, (List.cons.inj h).2⟩
    | cons c u' => exact absurd ((List.cons.inj h).1 ▸ List.mem_cons_self) hu'
  | cons c u ih =>
    cases u' with
    | nil => exact absurd ((List.cons.inj h).1 ▸ List.mem_cons_self) hu
    | cons c' u' =>
      obtain ⟨rfl, hrest⟩ := List.cons.inj h
      obtain ⟨rfl, rfl⟩ := ih (fun hc => hu (List.mem_cons_of_mem c hc))
        (fun hc => hu' (List.mem_cons_of_mem c hc)) hrest
      exact ⟨rfl, rfl⟩

end Text
