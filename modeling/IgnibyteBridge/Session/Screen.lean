import IgnibyteBridge.Session.Operations
import IgnibyteBridge.Text.Trimmed

/-!
# The stored screen

`trim_screen_snapshot` of `logs.rs` and what `read_screen_text` makes of its result.
A capture stores the trimmed contents of its terminal; a report takes the stored
text apart again and ends the last of its lines by newlines.
-/

namespace IgnibyteBridge

open Concurrency Fallible Text

/-- `trim_screen_snapshot`. -/
def trimScreenSnapshot (contents : List Char) : List Char :=
  let lines := dropEmptyEnd ((lines contents).map trimEnd)
  if lines = [] then [] else ['\n'].intercalate lines ++ ['\n']

/-- The lines of a trimmed screen. -/
def screenLines (contents : List Char) : List (List Char) :=
  dropEmptyEnd ((lines contents).map trimEnd)

/-- No line of a snapshot ends in white space, and the last is not blank. -/
theorem trimmed_screenLines (contents : List Char) : Trimmed (screenLines contents) :=
  trimmed_dropEmptyEnd fun _ => newline_not_mem_lines

/-- Lines between newlines and one more newline are lines that a newline each ends. -/
theorem intercalate_newline {records : List (List Char)} (h : records ≠ []) :
    ['\n'].intercalate records ++ ['\n'] = terminated records := by
  induction records with
  | nil => exact absurd rfl h
  | cons record records ih =>
    cases records with
    | nil => simp [terminated]
    | cons next records =>
      rw [terminated_cons, ← ih (List.cons_ne_nil next records)]
      simp [List.intercalate]

/-- The stored snapshot is those lines, each with its newline. -/
theorem trimScreenSnapshot_eq (contents : List Char) :
    trimScreenSnapshot contents = terminated (screenLines contents) := by
  by_cases h : screenLines contents = []
  · rw [h]
    exact if_pos h
  · rw [← intercalate_newline h]
    exact if_neg h

example : trimScreenSnapshot ['a', ' ', '\n', '\n', 'b', '\r', '\n', '\t', '\n'] =
    ['a', '\n', '\n', 'b', '\n'] := by decide

/-- Both ways to take a trimmed screen apart give its lines. -/
theorem lines_trimScreenSnapshot (contents : List Char) :
    lines (trimScreenSnapshot contents) = screenLines contents := by
  rw [trimScreenSnapshot_eq, (trimmed_screenLines contents).lines]

/-- The lines of a trimmed screen are read back as they were stored. -/
theorem splitLines_trimScreenSnapshot (contents : List Char) :
    splitLines (trimScreenSnapshot contents) = screenLines contents := by
  rw [trimScreenSnapshot_eq, (trimmed_screenLines contents).splitLines]

/-- Trimming a trimmed screen changes nothing. -/
theorem trimScreenSnapshot_idempotent (contents : List Char) :
    trimScreenSnapshot (trimScreenSnapshot contents) = trimScreenSnapshot contents := by
  rw [trimScreenSnapshot_eq (trimScreenSnapshot contents), screenLines, lines_trimScreenSnapshot,
    (trimmed_screenLines contents).dropEmptyEnd_map, trimScreenSnapshot_eq]

/-- The tail of a trimmed screen is made of its last lines. -/
theorem tailLines_trimScreenSnapshot (contents : List Char) (tail : ℕ) :
    tailLines (trimScreenSnapshot contents) tail =
      terminated ((splitLines (trimScreenSnapshot contents)).rtake tail) := by
  rw [splitLines_trimScreenSnapshot, tailLines, lastLines, lines_trimScreenSnapshot]
  rfl

/-- A tail of all lines is the trimmed screen. -/
theorem tailLines_trimScreenSnapshot_of_le {contents : List Char} {tail : ℕ}
    (htail : (splitLines (trimScreenSnapshot contents)).length ≤ tail) :
    tailLines (trimScreenSnapshot contents) tail = trimScreenSnapshot contents := by
  rw [tailLines_trimScreenSnapshot, List.rtake, Nat.sub_eq_zero_of_le htail, List.drop_zero,
    splitLines_trimScreenSnapshot, trimScreenSnapshot_eq]

/-- What a report may rely on while nothing changes in the world and its reads succeed. -/
def World.reading (w : World) : Discipline Access Access.Response Unit where
  pre _ _ := True
  fact a _ r := ∃ i c, c.ok = true ∧ World.access i a c w = some (r, w)
  post _ _ _ := ()

/-- A report of an accepted session prints the tail of the stored screen. -/
theorem meets_readScreenText (env : Env) {name : String} {tail : ℕ} {w : World}
    {contents : List Char} (hscreen : w.files.screen name = some contents) :
    Meets w.reading (fun text _ => text = tailLines contents tail)
      (fun _ _ => validateSessionName name ≠ .ok ()) (readScreenText env name tail) () := by
  unfold readScreenText sessionDir
  cases hname : validateSessionName name with
  | error e => exact fun h => nomatch h
  | ok u =>
    refine ⟨trivial, ?_⟩
    rintro r ⟨i, c, hok, hread⟩
    obtain rfl : some contents = r := by
      rw [World.access, if_pos hok, hscreen] at hread
      exact (Prod.mk.inj (Option.some.inj hread)).1
    rfl

/-- Trimmed screens are a normal form, and a report of any length prints their last
lines as they are stored. -/
theorem screen_normal_form (contents : List Char) :
    let screen := trimScreenSnapshot contents
    trimScreenSnapshot screen = screen ∧
    (screen = [] ∨ ∃ front line, screen = terminated front ++ line ++ ['\n'] ∧
      '\n' ∉ line ∧ ¬Blank line) ∧
    (∀ line ∈ splitLines screen, ∀ c ∈ line.getLast?, isWhitespace c = false) ∧
    (∃ kept blanks, lines contents = kept ++ blanks ∧ (∀ line ∈ blanks, Blank line) ∧
      (∀ line ∈ kept.getLast?, ¬Blank line) ∧ splitLines screen = kept.map trimEnd) ∧
    (∀ tail, tailLines screen tail = terminated ((splitLines screen).rtake tail) ∧
      ((splitLines screen).length ≤ tail → tailLines screen tail = screen)) ∧
    ∀ (env : Env) (name : String) (tail : ℕ) (w : World), w.files.screen name = some screen →
      Meets w.reading
        (fun text _ => text = terminated ((splitLines screen).rtake tail) ∧
          ((splitLines screen).length ≤ tail → text = screen))
        (fun _ _ => validateSessionName name ≠ .ok ()) (readScreenText env name tail) () := by
  intro screen
  have hscreen : screen = terminated (screenLines contents) := trimScreenSnapshot_eq contents
  have hsplit : splitLines screen = screenLines contents := splitLines_trimScreenSnapshot contents
  have htrimmed := trimmed_screenLines contents
  have htail : ∀ tail, tailLines screen tail = terminated ((splitLines screen).rtake tail) ∧
      ((splitLines screen).length ≤ tail → tailLines screen tail = screen) :=
    fun tail => ⟨tailLines_trimScreenSnapshot contents tail, tailLines_trimScreenSnapshot_of_le⟩
  refine ⟨trimScreenSnapshot_idempotent contents, ?_, ?_, ?_, htail, ?_⟩
  · rw [hscreen]
    exact htrimmed.terminated_cases
  · rw [hsplit]
    exact htrimmed.tight
  · rw [hsplit]
    exact dropEmptyEnd_map_trimEnd (lines contents)
  · intro env name tail w hstored
    refine Meets.mono (meets_readScreenText env hstored) ?_ fun _ _ => id
    rintro text - rfl
    exact htail tail

/-- A snapshot with trailing white space and blank lines within and after it. -/
theorem screen_normal_form_stored :
    let contents := ['a', ' ', ' ', '\n', 'b', '\n', '\n', '\n']
    let screen := ['a', '\n', 'b', '\n']
    trimScreenSnapshot contents = screen ∧ tailLines screen 2 = screen ∧
      ∃ w, World.perform 0 (.file (.writeScreen "demo" screen)) { ok := true }
          (World.fresh fun _ => none) = some (true, w) ∧
        Meets w.reading (fun text _ => text = ['b', '\n']) (fun _ _ => False)
          (readScreenText plainEnv "demo" 1) () := by
  intro contents screen
  have hscreen : trimScreenSnapshot contents = screen := by decide
  obtain ⟨-, -, -, -, htail, hread⟩ := screen_normal_form contents
  rw [hscreen] at htail hread
  refine ⟨hscreen, (htail 2).2 (by decide), _, rfl, ?_⟩
  refine Meets.mono (hread plainEnv "demo" 1 _ ?_) ?_ ?_
  · rfl
  · rintro text - ⟨rfl, -⟩
    decide
  · intro e _ hinvalid
    exact hinvalid (by decide)

end IgnibyteBridge
