import IgnibyteBridge.Text.Fields
import IgnibyteBridge.Text.Lines
import IgnibyteBridge.Text.Records
import Mathlib.Data.List.DropRight

/-!
# Trimmed lines

Lines that do not end in whitespace and of which the last is not empty. Each ended
by a newline, such lines are read back by either way to take a text apart: no
newline finds a carriage return before it.
-/

namespace Text

/-- A line without the whitespace at its end. -/
def trimEnd (line : List Char) : List Char := line.rdropWhile isWhitespace

/-- Lines without the empty ones at their end. -/
def dropEmptyEnd (lines : List (List Char)) : List (List Char) := lines.rdropWhile (·.isEmpty)

/-- A line of nothing but whitespace. -/
def Blank (line : List Char) : Prop := ∀ c ∈ line, isWhitespace c = true

/-- Lines that trimming does not change. -/
structure Trimmed (lines : List (List Char)) : Prop where
  single : ∀ line ∈ lines, '\n' ∉ line
  tight : ∀ line ∈ lines, ∀ c ∈ line.getLast?, isWhitespace c = false
  filled : ∀ line ∈ lines.getLast?, line ≠ []

/-! ## One line -/

/-- Dropping from the end stops at an element that is kept. -/
theorem getLast?_rdropWhile {α : Type} (p : α → Bool) (l : List α) :
    ∀ x ∈ (l.rdropWhile p).getLast?, p x = false := by
  intro x hx
  have hfilled : l.rdropWhile p ≠ [] := by
    intro h
    rw [h] at hx
    cases hx
  have hlast := List.rdropWhile_last_not p l hfilled
  rw [Option.mem_def, List.getLast?_eq_some_getLast hfilled] at hx
  rw [Option.some.inj hx] at hlast
  exact Bool.eq_false_iff.mpr hlast

/-- A list that ends in an element which is kept stays as it is. -/
theorem rdropWhile_eq_self {α : Type} {p : α → Bool} {l : List α}
    (h : ∀ x ∈ l.getLast?, p x = false) : l.rdropWhile p = l :=
  List.rdropWhile_eq_self_iff.mpr fun hfilled =>
    Bool.eq_false_iff.mp (h (l.getLast hfilled) (List.getLast?_eq_some_getLast hfilled))

/-- Nothing is left of a line exactly when it is blank. -/
theorem trimEnd_eq_nil_iff {line : List Char} : trimEnd line = [] ↔ Blank line :=
  List.rdropWhile_eq_nil_iff

/-- Trimming takes characters away and adds none. -/
theorem trimEnd_sublist (line : List Char) : (trimEnd line).Sublist line :=
  (List.rdropWhile_prefix isWhitespace line).sublist

/-- A trimmed line does not end in whitespace. -/
theorem isWhitespace_getLast_trimEnd (line : List Char) :
    ∀ c ∈ (trimEnd line).getLast?, isWhitespace c = false :=
  getLast?_rdropWhile isWhitespace line

/-- A line that does not end in whitespace is trimmed. -/
theorem trimEnd_eq_self {line : List Char} (h : ∀ c ∈ line.getLast?, isWhitespace c = false) :
    trimEnd line = line :=
  rdropWhile_eq_self h

/-- A line that does not end in whitespace has no carriage return to lose. -/
theorem stripCr_eq_self {line : List Char} (h : ∀ c ∈ line.getLast?, isWhitespace c = false) :
    stripCr line = line := by
  refine if_neg fun hcr => ?_
  have hc := h '\r' hcr
  revert hc
  decide

/-! ## Lines of a text -/

/-- Dropping the carriage return takes characters away and adds none. -/
theorem stripCr_sublist (line : List Char) : (stripCr line).Sublist line := by
  rw [stripCr]
  split
  · exact List.dropLast_sublist line
  · exact List.Sublist.refl line

/-- No line has a newline in it. -/
theorem newline_not_mem_linesFrom {current text line : List Char} (hcurrent : '\n' ∉ current)
    (hline : line ∈ linesFrom current text) : '\n' ∉ line := by
  induction text generalizing current with
  | nil =>
    rw [linesFrom] at hline
    split at hline
    · cases hline
    · rw [List.mem_singleton.mp hline]
      exact hcurrent
  | cons c text ih =>
    rw [linesFrom] at hline
    split at hline
    · rcases List.mem_cons.mp hline with rfl | hline
      · exact fun hmem => hcurrent ((stripCr_sublist current).subset hmem)
      · exact ih (by simp) hline
    · next hc =>
      refine ih ?_ hline
      simp only [List.mem_append, List.mem_singleton, not_or]
      exact ⟨hcurrent, fun h => hc h.symm⟩

/-- No line holds a newline. -/
theorem newline_not_mem_lines {text line : List Char} (hline : line ∈ lines text) : '\n' ∉ line :=
  newline_not_mem_linesFrom (by simp) hline

/-- The first line ends at the first newline. -/
theorem linesFrom_append {current line : List Char} (hline : '\n' ∉ line) (rest : List Char) :
    linesFrom current (line ++ '\n' :: rest) = stripCr (current ++ line) :: lines rest := by
  induction line generalizing current with
  | nil =>
    rw [List.append_nil, List.nil_append, linesFrom, if_pos rfl]
    rfl
  | cons c line ih =>
    have hc : c ≠ '\n' := fun h => hline (by simp [h])
    have hrest := @ih (current ++ [c]) fun h => hline (List.mem_cons_of_mem c h)
    rw [List.cons_append, linesFrom, if_neg hc, hrest, List.append_assoc, List.singleton_append]

/-- A text up to its first newline is its first line. -/
theorem lines_append {line : List Char} (hline : '\n' ∉ line) (rest : List Char) :
    lines (line ++ '\n' :: rest) = stripCr line :: lines rest :=
  linesFrom_append hline rest

/-- Lines that neither hold a newline nor end in whitespace are read back. -/
theorem lines_terminated {records : List (List Char)} (hsingle : ∀ r ∈ records, '\n' ∉ r)
    (htight : ∀ r ∈ records, ∀ c ∈ r.getLast?, isWhitespace c = false) :
    lines (terminated records) = records := by
  induction records with
  | nil => rfl
  | cons record records ih =>
    have hrest := ih (fun r hr => hsingle r (List.mem_cons_of_mem _ hr))
      fun r hr => htight r (List.mem_cons_of_mem _ hr)
    rw [terminated_cons, lines_append (hsingle record (by simp)),
      stripCr_eq_self (htight record (by simp)), hrest]

/-! ## Trimmed lines -/

/-- Trimming trims. -/
theorem trimmed_dropEmptyEnd {records : List (List Char)} (h : ∀ r ∈ records, '\n' ∉ r) :
    Trimmed (dropEmptyEnd (records.map trimEnd)) := by
  have hsource : ∀ line ∈ dropEmptyEnd (records.map trimEnd), ∃ r ∈ records, trimEnd r = line :=
    fun line hline => List.mem_map.mp ((List.rdropWhile_prefix _ _).subset hline)
  refine ⟨?_, ?_, ?_⟩
  · intro line hline hmem
    obtain ⟨r, hr, rfl⟩ := hsource line hline
    exact h r hr ((trimEnd_sublist r).subset hmem)
  · intro line hline
    obtain ⟨r, -, rfl⟩ := hsource line hline
    exact isWhitespace_getLast_trimEnd r
  · rintro line hline rfl
    have hkept : ([] : List Char).isEmpty = false :=
      getLast?_rdropWhile _ (records.map trimEnd) [] hline
    cases hkept

namespace Trimmed

variable {records : List (List Char)}

/-- Trimmed records are read back as the lines of their text. -/
theorem lines (h : Trimmed records) : lines (terminated records) = records :=
  lines_terminated h.single h.tight

/-- Trimmed records are read back as the pieces of their text between newlines. -/
theorem splitLines (h : Trimmed records) : splitLines (terminated records) = records :=
  splitLines_terminated h.single

/-- Trimming changes nothing. -/
theorem dropEmptyEnd_map (h : Trimmed records) : dropEmptyEnd (records.map trimEnd) = records := by
  have hmap : records.map trimEnd = records := by
    rw [List.map_congr_left fun line hline => trimEnd_eq_self (h.tight line hline), List.map_id']
  rw [hmap]
  exact rdropWhile_eq_self fun line hline => List.isEmpty_eq_false_iff.mpr (h.filled line hline)

/-- A text of trimmed lines is empty or ends with a line that is not blank. -/
theorem terminated_cases (h : Trimmed records) :
    terminated records = [] ∨ ∃ front line, terminated records = terminated front ++ line ++ ['\n'] ∧
      '\n' ∉ line ∧ ¬Blank line := by
  rcases List.eq_nil_or_concat' records with rfl | ⟨front, line, rfl⟩
  · exact .inl rfl
  · have hmem : line ∈ front ++ [line] := by simp
    have hfilled := h.filled line (by simp)
    refine .inr ⟨front, line, by simp [terminated], h.single line hmem, fun hblank => hfilled ?_⟩
    rw [← trimEnd_eq_self (h.tight line hmem)]
    exact trimEnd_eq_nil_iff.mpr hblank

end Trimmed

/-- What trimming leaves out are the blank lines behind the last one that is not blank. -/
theorem dropEmptyEnd_map_trimEnd (records : List (List Char)) :
    ∃ kept blanks, records = kept ++ blanks ∧ (∀ line ∈ blanks, Blank line) ∧
      (∀ line ∈ kept.getLast?, ¬Blank line) ∧
      dropEmptyEnd (records.map trimEnd) = kept.map trimEnd := by
  induction records using List.reverseRecOn with
  | nil => exact ⟨[], [], rfl, by simp, by simp, rfl⟩
  | append_singleton records line ih =>
    by_cases hblank : Blank line
    · obtain ⟨kept, blanks, rfl, hblanks, hlast, hdrop⟩ := ih
      refine ⟨kept, blanks ++ [line], by simp, ?_, hlast, ?_⟩
      · intro r hr
        rcases List.mem_append.mp hr with hr | hr
        · exact hblanks r hr
        · rw [List.mem_singleton.mp hr]
          exact hblank
      · rw [List.map_append, List.map_singleton, dropEmptyEnd, List.rdropWhile_concat_pos]
        · exact hdrop
        · rw [trimEnd_eq_nil_iff.mpr hblank]
          rfl
    · refine ⟨records ++ [line], [], by simp, by simp, ?_, ?_⟩
      · intro r hr
        rw [List.getLast?_concat] at hr
        obtain rfl := Option.some.inj hr
        exact hblank
      · rw [List.map_append, List.map_singleton, dropEmptyEnd, List.rdropWhile_concat_neg]
        intro hempty
        exact hblank (trimEnd_eq_nil_iff.mp (List.isEmpty_iff.mp hempty))

end Text
