import IgnibyteBridge.Clean.Segments

/-!
# What the cleaner keeps of any input

Nothing is assumed of the bytes here: sequences may be cut short, nested or
never end. The cleaner deletes bytes and reads carriage returns as newlines; it
does nothing else. A pending carriage return is a newline that is still owed.
-/

namespace IgnibyteBridge.AnsiCleaner

/-- A carriage return counts as a newline. -/
def readNewline (byte : UInt8) : UInt8 := if byte = 0x0d then 0x0a else byte

/-- A byte that may stand in a clean log: no C0 control but tab and newline, and no DEL. -/
def Printed (byte : UInt8) : Prop := (byte < 0x20 → byte = 0x09 ∨ byte = 0x0a) ∧ byte ≠ 0x7f

instance (byte : UInt8) : Decidable (Printed byte) :=
  inferInstanceAs (Decidable ((byte < 0x20 → byte = 0x09 ∨ byte = 0x0a) ∧ byte ≠ 0x7f))

/-- The newline that is owed may be printed. -/
theorem owed_printed {pendingCr : Bool} {byte : UInt8} (h : byte ∈ owed pendingCr) :
    Printed byte := by
  cases pendingCr with
  | false => cases h
  | true =>
    obtain rfl := List.mem_singleton.mp h
    decide

/-- A byte of text is dropped, deferred or passed on as it is. -/
theorem groundByte_sublist (byte : UInt8) :
    ((groundByte byte).2 ++ owed (groundByte byte).1.pendingCr).Sublist [readNewline byte] := by
  have h : ∀ b : UInt8, (groundByte b).2 ++ owed (groundByte b).1.pendingCr = [] ∨
      (groundByte b).2 ++ owed (groundByte b).1.pendingCr = [readNewline b] := by
    grind [groundByte, owed, readNewline]
  rcases h byte with hnone | hone
  · rw [hnone]
    exact List.nil_sublist _
  · rw [hone]

/-- Every byte that the ground state lets through may be printed. -/
theorem groundByte_printed (byte : UInt8) : ∀ c ∈ (groundByte byte).2, Printed c := by
  grind [groundByte, Printed, isDropped]

/-- A step emits and defers at most what was pending and the byte it read. -/
theorem step_sublist (self : AnsiCleaner) (byte : UInt8) :
    ((step self byte).2 ++ owed (step self byte).1.pendingCr).Sublist
      (owed self.pendingCr ++ [readNewline byte]) := by
  unfold step
  split_ifs with hesc hground
  · -- `ESC` releases the newline that was owed.
    rw [show owed (({ state := .escape } : AnsiCleaner)).pendingCr = [] from rfl]
    exact (List.Sublist.refl _).append (List.nil_sublist _)
  · unfold ground
    split_ifs with hnewline
    · -- The newline of a pair is the one that was owed.
      rw [hnewline.1]
      apply List.Sublist.append (List.Sublist.refl [0x0a])
      exact List.nil_sublist _
    · rw [List.append_assoc]
      exact (List.Sublist.refl _).append (groundByte_sublist byte)
  · -- Inside a sequence, whatever was owed stays owed.
    apply List.sublist_append_left

/-- Every byte that any step emits may be printed. -/
theorem step_printed (self : AnsiCleaner) (byte : UInt8) :
    ∀ c ∈ (step self byte).2, Printed c := by
  intro c hc
  unfold step at hc
  split_ifs at hc with hesc hground
  · exact owed_printed hc
  · unfold ground at hc
    split_ifs at hc with hnewline
    · obtain rfl := List.mem_singleton.mp hc
      decide
    · rcases List.mem_append.mp hc with hc | hc
      · exact owed_printed hc
      · exact groundByte_printed byte c hc
  · cases hc

/-- The line breaks of an input read with `readNewline` are its carriage returns and newlines. -/
theorem count_readNewline (input : List UInt8) :
    (input.map readNewline).count 0x0a = input.count 0x0d + input.count 0x0a := by
  induction input with
  | nil => rfl
  | cons b input ih =>
    rw [List.map_cons, List.count_cons, List.count_cons, List.count_cons, ih]
    by_cases hcr : b = 0x0d
    · subst hcr
      have hread : (readNewline 0x0d == 0x0a) = true := rfl
      have hnewline : ((0x0d : UInt8) == 0x0a) = false := rfl
      rw [if_pos hread, if_pos (beq_self_eq_true _), hnewline, if_neg Bool.false_ne_true]
      omega
    · have hread : readNewline b = b := if_neg hcr
      have hne : (b == 0x0d) = false := by simpa using hcr
      rw [hread, hne, if_neg Bool.false_ne_true]
      omega

/-- **Conservation.** From every state and for every input, however it is cut, the
output holds no control byte but tab and newline; with the newline that a pending
carriage return still owes, it is the input with bytes left out and carriage returns
read as newlines; so it breaks no more lines than the input does. -/
theorem cleanChunks_conserves (self : AnsiCleaner) (chunks : List (List UInt8)) :
    (∀ byte ∈ (cleanChunks self chunks).2, Printed byte) ∧
    ((cleanChunks self chunks).2 ++ owed (cleanChunks self chunks).1.pendingCr).Sublist
      (owed self.pendingCr ++ chunks.flatten.map readNewline) ∧
    ((cleanChunks self chunks).2 ++ owed (cleanChunks self chunks).1.pendingCr).count 0x0a ≤
      (owed self.pendingCr).length + (chunks.flatten.count 0x0d + chunks.flatten.count 0x0a) := by
  have hprinted := Streaming.feed_emits step_printed self chunks.flatten
  have hsublist := Streaming.feed_sublist (fun s => owed s.pendingCr) readNewline step_sublist self
    chunks.flatten
  rw [← clean, ← cleanChunks_eq_clean] at hprinted hsublist
  have hcount := hsublist.count_le 0x0a
  have howed : (owed self.pendingCr).count 0x0a ≤ (owed self.pendingCr).length :=
    List.count_le_length
  refine ⟨hprinted, hsublist, ?_⟩
  have hread := count_readNewline chunks.flatten
  calc ((cleanChunks self chunks).2 ++ owed (cleanChunks self chunks).1.pendingCr).count 0x0a
      ≤ (owed self.pendingCr ++ chunks.flatten.map readNewline).count 0x0a := hcount
    _ = (owed self.pendingCr).count 0x0a + (chunks.flatten.map readNewline).count 0x0a :=
        List.count_append
    _ ≤ _ := by omega

end IgnibyteBridge.AnsiCleaner
