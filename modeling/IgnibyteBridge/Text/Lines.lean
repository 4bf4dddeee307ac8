import Mathlib.Data.List.Basic

/-!
# Lines of a text

Lines end at a newline, which takes one carriage return before it along; a last
line needs no newline. Splitting is local to newlines, so the last lines of a
text depend only on what follows an early enough newline.
-/

namespace Text

/-- A newline takes one carriage return before it along. -/
def stripCr (line : List Char) : List Char :=
  if line.getLast? = some '\r' then line.dropLast else line

/-- The lines of a text, the first of which began with `current`. -/
def linesFrom (current : List Char) : List Char → List (List Char)
  | [] => if current = [] then [] else [current]
  | c :: text =>
    if c = '\n' then stripCr current :: linesFrom [] text else linesFrom (current ++ [c]) text

/-- The lines of a text. -/
def lines (text : List Char) : List (List Char) := linesFrom [] text

/-- The last lines of a text. -/
def lastLines (text : List Char) (count : ℕ) : List (List Char) :=
  (lines text).drop ((lines text).length - count)

/-- The lines up to a newline do not depend on what follows it. -/
theorem linesFrom_newline (current text rest : List Char) :
    linesFrom current (text ++ '\n' :: rest) =
      linesFrom current (text ++ ['\n']) ++ lines rest := by
  induction text generalizing current with
  | nil => rfl
  | cons c text ih =>
    by_cases hc : c = '\n'
    · simp only [List.cons_append, linesFrom, hc, ite_true, ih]
    · simp only [List.cons_append, linesFrom, hc, ite_false, ih]

/-- Splitting is local to newlines. -/
theorem lines_newline (text rest : List Char) :
    lines (text ++ '\n' :: rest) = lines (text ++ ['\n']) ++ lines rest :=
  linesFrom_newline [] text rest

example : lines ['a', '\r', '\n', '\n', 'b', '\r'] = [['a'], [], ['b', '\r']] := by decide

/-- There are at least as many lines as newlines. -/
theorem count_newline_le_linesFrom (current text : List Char) :
    text.count '\n' ≤ (linesFrom current text).length := by
  induction text generalizing current with
  | nil => exact Nat.zero_le _
  | cons c text ih =>
    rw [List.count_cons, linesFrom]
    by_cases hc : c = '\n'
    · have hrest := ih []
      simp only [hc, beq_self_eq_true, ite_true, List.length_cons]
      omega
    · have hrest := ih (current ++ [c])
      simp only [beq_iff_eq, hc, ite_false]
      omega

/-- Every newline ends a line. -/
theorem count_newline_le_lines (text : List Char) :
    text.count '\n' ≤ (lines text).length :=
  count_newline_le_linesFrom [] text

/-- Enough newlines after a newline decide the last lines. -/
theorem lastLines_newline {text rest : List Char} {count : ℕ} (hcount : count ≤ rest.count '\n') :
    lastLines (text ++ '\n' :: rest) count = lastLines rest count := by
  have hlines := count_newline_le_lines rest
  rw [lastLines, lastLines, lines_newline, List.length_append, List.drop_append,
    List.drop_eq_nil_of_le (by omega), List.nil_append]
  congr 1
  omega

end Text
