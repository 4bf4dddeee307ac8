import IgnibyteBridge.Clean.Segments

/-!
# Escape sequences and line breaks

A carriage return waits for a newline, and an `ESC` ends the wait. So a sequence
changes the lines of a text only where it stands between the two bytes of one
line end, which it makes two.
-/

namespace IgnibyteBridge.AnsiCleaner

/-- The output for an input, with a newline for a carriage return pending at its end. -/
def flushed (self : AnsiCleaner) (input : List UInt8) : List UInt8 :=
  (clean self input).2 ++ owed (clean self input).1.pendingCr

/-- What is flushed after two inputs begins with the output of the first. -/
theorem flushed_append {self next : AnsiCleaner} {u out : List UInt8}
    (h : clean self u = (next, out)) (v : List UInt8) :
    flushed self (u ++ v) = out ++ flushed next v := by
  simp only [clean] at h
  simp only [flushed, clean, Streaming.feed_append, h, List.append_assoc]

/-- A sequence ends the wait of a carriage return for a newline. -/
theorem clean_sequence_pending (s : EscapeSequence) (pendingCr : Bool) :
    clean ⟨.ground, pendingCr⟩ s.bytes = (⟨.ground, false⟩, owed pendingCr) := by
  have hsilent := clean_sequence s
  obtain ⟨rest, hrest⟩ : ∃ rest, s.bytes = 0x1b :: rest := by
    cases s <;> exact ⟨_, rfl⟩
  rw [hrest, clean_esc] at hsilent
  rw [hrest]
  simp only [clean] at hsilent ⊢
  have hstep : step ⟨.ground, pendingCr⟩ 0x1b = (⟨.escape, false⟩, owed pendingCr) := rfl
  rw [Streaming.feed_cons, hstep, hsilent, List.append_nil]

/-- A carriage return that no newline follows is a line break of its own. -/
theorem flushed_pending {v : List UInt8} (hv : v.head? ≠ some 0x0a) :
    flushed ⟨.ground, true⟩ v = 0x0a :: flushed ⟨.ground, false⟩ v := by
  have hstep : ∀ b : UInt8, b ≠ 0x0a → step ⟨.ground, true⟩ b =
      ((step ⟨.ground, false⟩ b).1, 0x0a :: (step ⟨.ground, false⟩ b).2) := by
    grind [step, ground, owed]
  cases v with
  | nil => rfl
  | cons b v =>
    have hb : b ≠ 0x0a := by simpa using hv
    simp only [flushed, clean, Streaming.feed_cons, hstep b hb, List.cons_append]

/-- Text leaves the cleaner in `ground`, waiting if it ended in a carriage return. -/
theorem clean_text {u : List UInt8} (hu : ∀ b ∈ u, b ≠ 0x1b) :
    ∃ pendingCr out, clean {} u = (⟨.ground, pendingCr⟩, out) ∧
      (pendingCr = true ↔ u.getLast? = some 0x0d) := by
  obtain ⟨pendingCr, hstate, hlast, -⟩ := clean_run_readable hu false []
  refine ⟨pendingCr, (clean {} u).2, Prod.ext hstate rfl, ?_⟩
  by_cases hempty : u = []
  · subst hempty
    have hpending : false = pendingCr := congrArg AnsiCleaner.pendingCr hstate
    simp [← hpending]
  · exact hlast hempty

/-- **Sequences and line breaks.** A complete sequence leaves the output as it is,
unless it stands between a carriage return and its newline. There one more newline
stands between the output of the text before it and that of the text after it. -/
theorem flushed_sequence {u v : List UInt8} (hu : ∀ b ∈ u, b ≠ 0x1b) (s : EscapeSequence) :
    (¬(u.getLast? = some 0x0d ∧ v.head? = some 0x0a) →
      flushed {} (u ++ s.bytes ++ v) = flushed {} (u ++ v)) ∧
    (u.getLast? = some 0x0d ∧ v.head? = some 0x0a →
      flushed {} (u ++ v) = (clean {} u).2 ++ flushed {} v ∧
        flushed {} (u ++ s.bytes ++ v) = (clean {} u).2 ++ 0x0a :: flushed {} v) := by
  obtain ⟨pendingCr, out, hclean, hpending⟩ := clean_text hu
  have hwith : flushed {} (u ++ s.bytes ++ v) =
      out ++ (owed pendingCr ++ flushed ⟨.ground, false⟩ v) := by
    rw [List.append_assoc, flushed_append hclean,
      flushed_append (clean_sequence_pending s pendingCr)]
  have hwithout := flushed_append hclean v
  constructor
  · intro hapart
    rw [hwith, hwithout]
    cases pendingCr with
    | false => rfl
    | true =>
      have hv : v.head? ≠ some 0x0a := fun hv => hapart ⟨hpending.mp rfl, hv⟩
      rw [flushed_pending hv]
      rfl
  · rintro ⟨hlast, hhead⟩
    obtain rfl := hpending.mpr hlast
    obtain ⟨v', rfl⟩ := List.head?_eq_some_iff.mp hhead
    rw [hclean]
    -- The newline is the one that the carriage return waits for.
    exact ⟨hwithout, hwith⟩

/-- A reset of colors, `ESC [ 0 m`. -/
def resetColors : EscapeSequence := .csi [0x30] 0x6d parameter_zero final_m

/-- A reset of colors after a carriage return that stands alone. -/
theorem flushed_sequence_reset :
    flushed {} ([0x61, 0x0d] ++ resetColors.bytes ++ [0x62]) =
      flushed {} ([0x61, 0x0d] ++ [0x62]) :=
  (flushed_sequence (by simp) resetColors).1 (by decide)

/-- A reset of colors between a carriage return and its newline adds a line. -/
theorem flushed_sequence_splits :
    (∀ b ∈ ([0x61, 0x0d] : List UInt8), b ≠ 0x1b) ∧ (∀ b ∈ ([0x0a, 0x62] : List UInt8), b ≠ 0x1b) ∧
      flushed {} ([0x61, 0x0d] ++ [0x0a, 0x62]) = [0x61, 0x0a, 0x62] ∧
      flushed {} ([0x61, 0x0d] ++ resetColors.bytes ++ [0x0a, 0x62]) =
        [0x61, 0x0a, 0x0a, 0x62] := by
  refine ⟨by simp, by simp, by decide, by decide⟩

end IgnibyteBridge.AnsiCleaner
