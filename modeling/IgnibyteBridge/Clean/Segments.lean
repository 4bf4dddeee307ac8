import IgnibyteBridge.Clean.AnsiCleaner

/-!
# Text and complete escape sequences

A terminal stream is cut into runs of text and complete escape sequences. The
cleaner is shown to keep exactly the text: each sequence takes it from `ground`
back to `ground` in silence, and each run comes out with its line ends
normalized and its control bytes removed.
-/

namespace IgnibyteBridge

/-- A nonempty run of bytes without `ESC`. -/
structure TextRun where
  bytes : List UInt8
  nonempty : bytes ≠ []
  escFree : ∀ b ∈ bytes, b ≠ 0x1b

/-- The bytes that introduce the longer sequences after `ESC`. -/
def introducers : List UInt8 := [0x5b, 0x5d, 0x50, 0x58, 0x5e, 0x5f]

/-- The introducers of DCS, SOS, PM and APC strings. -/
def stringIntroducers : List UInt8 := [0x50, 0x58, 0x5e, 0x5f]

/-- A complete escape sequence. -/
inductive EscapeSequence where
  /-- `ESC [`, parameter and intermediate bytes, and a final byte. -/
  | csi (body : List UInt8) (final : UInt8) (hbody : ∀ b ∈ body, 0x20 ≤ b ∧ b ≤ 0x3f)
      (hfinal : 0x40 ≤ final ∧ final ≤ 0x7e)
  /-- `ESC ]` and a payload, terminated by `BEL`. -/
  | oscBel (payload : List UInt8) (hpayload : ∀ b ∈ payload, b ≠ 0x07 ∧ b ≠ 0x1b)
  /-- `ESC ]` and a payload, terminated by `ESC \`. -/
  | oscSt (payload : List UInt8) (hpayload : ∀ b ∈ payload, b ≠ 0x07 ∧ b ≠ 0x1b)
  /-- `ESC P`, `ESC X`, `ESC ^` or `ESC _` and a payload, terminated by `ESC \`. -/
  | string (introducer : UInt8) (payload : List UInt8) (hintroducer : introducer ∈ stringIntroducers)
      (hpayload : ∀ b ∈ payload, b ≠ 0x1b)
  /-- `ESC`, intermediate bytes and a final byte. -/
  | short (intermediates : List UInt8) (final : UInt8)
      (hintermediates : ∀ b ∈ intermediates, 0x20 ≤ b ∧ b ≤ 0x2f)
      (hfinal : 0x30 ≤ final ∧ final ≤ 0x7e) (hshort : intermediates = [] → final ∉ introducers)

/-- The bytes of a sequence. -/
def EscapeSequence.bytes : EscapeSequence → List UInt8
  | .csi body final _ _ => 0x1b :: 0x5b :: (body ++ [final])
  | .oscBel payload _ => 0x1b :: 0x5d :: (payload ++ [0x07])
  | .oscSt payload _ => 0x1b :: 0x5d :: (payload ++ [0x1b, 0x5c])
  | .string introducer payload _ _ => 0x1b :: introducer :: (payload ++ [0x1b, 0x5c])
  | .short intermediates final _ _ _ => 0x1b :: (intermediates ++ [final])

/-- One piece of a terminal stream. -/
inductive Segment where
  | run (text : TextRun)
  | sequence (s : EscapeSequence)

/-- The bytes of a segment as they arrive. -/
def Segment.bytes : Segment → List UInt8
  | .run text => text.bytes
  | .sequence s => s.bytes

/-- The text bytes of a segment. -/
def Segment.text : Segment → List UInt8
  | .run text => text.bytes
  | .sequence _ => []

/-- Every `CR LF` and every other `CR` becomes one `LF`. -/
def normalizeNewlines : List UInt8 → List UInt8
  | [] => []
  | [b] => if b = 0x0d then [0x0a] else [b]
  | b :: c :: rest =>
    if b = 0x0d then
      if c = 0x0a then 0x0a :: normalizeNewlines rest else 0x0a :: normalizeNewlines (c :: rest)
    else b :: normalizeNewlines (c :: rest)

/-- Remove the C0 bytes other than tab and newline, and DEL. -/
def dropControls (bytes : List UInt8) : List UInt8 :=
  bytes.filter fun b => !((b < 0x20 && b != 0x09 && b != 0x0a) || b == 0x7f)

/-- What a reader of the clean log should see of a text. -/
def readable (text : List UInt8) : List UInt8 := dropControls (normalizeNewlines text)

/-- No run directly followed by a sequence ends in a carriage return. -/
def NoCrBeforeSequence (segments : List Segment) : Prop :=
  ∀ before text s after, segments = before ++ .run text :: .sequence s :: after →
    text.bytes.getLast? ≠ some 0x0d

/-- A byte other than CR is kept. -/
theorem normalizeNewlines_cons {b : UInt8} (hb : b ≠ 0x0d) (rest : List UInt8) :
    normalizeNewlines (b :: rest) = b :: normalizeNewlines rest := by
  cases rest with
  | nil => simp [normalizeNewlines, hb]
  | cons c rest => simp [normalizeNewlines, hb]

/-- CR LF is one line break. -/
theorem normalizeNewlines_cr_lf (rest : List UInt8) :
    normalizeNewlines (0x0d :: 0x0a :: rest) = 0x0a :: normalizeNewlines rest := by
  simp [normalizeNewlines]

/-- A lone CR is another. -/
theorem normalizeNewlines_cr {rest : List UInt8} (hrest : rest.head? ≠ some 0x0a) :
    normalizeNewlines (0x0d :: rest) = 0x0a :: normalizeNewlines rest := by
  cases rest with
  | nil => simp [normalizeNewlines]
  | cons c rest =>
    have hc : c ≠ 0x0a := by simpa using hrest
    simp [normalizeNewlines, hc]

namespace AnsiCleaner

/-- The carriage return that a pending flag stands for. -/
def deferred (pendingCr : Bool) : List UInt8 := if pendingCr then [0x0d] else []

/-- Apart from the carriage return, the cleaner drops the controls that readable text lacks. -/
theorem isControl_eq_isDropped {b : UInt8} (hcr : b ≠ 0x0d) :
    ((b < 0x20 && b != 0x09 && b != 0x0a) || b == 0x7f) = isDropped b := by
  rw [Bool.eq_iff_iff]
  simp only [isDropped, Bool.or_eq_true, Bool.and_eq_true, decide_eq_true_eq, bne_iff_ne,
    beq_iff_eq]
  grind

/-- A dropped byte is gone from readable text. -/
theorem dropControls_cons_of_dropped {b : UInt8} (hcr : b ≠ 0x0d) (hdropped : isDropped b = true)
    (rest : List UInt8) : dropControls (b :: rest) = dropControls rest := by
  simp only [dropControls, List.filter_cons, isControl_eq_isDropped hcr, hdropped, Bool.not_true,
    Bool.false_eq_true, if_false]

/-- A kept one is in it. -/
theorem dropControls_cons_of_kept {b : UInt8} (hcr : b ≠ 0x0d) (hkept : isDropped b = false)
    (rest : List UInt8) : dropControls (b :: rest) = b :: dropControls rest := by
  simp only [dropControls, List.filter_cons, isControl_eq_isDropped hcr, hkept, Bool.not_false,
    if_true]

/-- A line break is kept. -/
theorem readable_lf (rest : List UInt8) : dropControls (0x0a :: rest) = 0x0a :: dropControls rest :=
  dropControls_cons_of_kept (by decide) (by decide) rest

/-- One byte of text with no carriage return pending: what is emitted now and
what the flag still owes make up the readable text. -/
theorem groundByte_readable {b : UInt8} (hesc : b ≠ 0x1b) (rest : List UInt8) :
    (groundByte b).1 = ⟨.ground, b == 0x0d⟩ ∧
      readable (b :: rest) = (groundByte b).2 ++ readable (deferred (b == 0x0d) ++ rest) := by
  by_cases hcr : b = 0x0d
  · subst hcr
    exact ⟨rfl, rfl⟩
  · have hnormal : readable (b :: rest) = dropControls (b :: normalizeNewlines rest) := by
      rw [readable, normalizeNewlines_cons hcr]
    have hflag : (b == 0x0d) = false := by simpa using hcr
    by_cases hkeep : b = 0x0a ∨ b = 0x09
    · have hbyte : groundByte b = ({}, [b]) := by
        simp only [groundByte, hesc, hcr, hkeep, if_true, if_false]
      have hkept : isDropped b = false := by rcases hkeep with rfl | rfl <;> decide
      rw [hnormal, dropControls_cons_of_kept hcr hkept, hbyte, hflag]
      exact ⟨rfl, rfl⟩
    · cases hdropped : isDropped b with
      | true =>
        have hbyte : groundByte b = ({}, []) := by
          simp only [groundByte, hesc, hcr, hkeep, hdropped, if_true, if_false]
        rw [hnormal, dropControls_cons_of_dropped hcr hdropped, hbyte, hflag]
        exact ⟨rfl, rfl⟩
      | false =>
        have hbyte : groundByte b = ({}, [b]) := by
          simp only [groundByte, hesc, hcr, hkeep, hdropped, if_false, Bool.false_eq_true]
        rw [hnormal, dropControls_cons_of_kept hcr hdropped, hbyte, hflag]
        exact ⟨rfl, rfl⟩

/-- One byte of text: the carriage return that was pending, if any, is settled first. -/
theorem step_readable {b : UInt8} (hesc : b ≠ 0x1b) (pendingCr : Bool) (rest : List UInt8) :
    ∃ pendingCr', (step ⟨.ground, pendingCr⟩ b).1 = ⟨.ground, pendingCr'⟩ ∧
      (pendingCr' = true ↔ b = 0x0d) ∧
      readable (deferred pendingCr ++ b :: rest) =
        (step ⟨.ground, pendingCr⟩ b).2 ++ readable (deferred pendingCr' ++ rest) := by
  have hstep : step ⟨.ground, pendingCr⟩ b = ground ⟨.ground, pendingCr⟩ b := by
    simp [step, hesc]
  obtain ⟨hstate, hreadable⟩ := groundByte_readable hesc rest
  rw [hstep]
  cases pendingCr with
  | false =>
    refine ⟨b == 0x0d, ?_, by simp, ?_⟩
    · simpa [ground] using hstate
    · simpa [ground, owed, deferred] using hreadable
  | true =>
    by_cases hlf : b = 0x0a
    · subst hlf
      refine ⟨false, rfl, by decide, ?_⟩
      change readable (0x0d :: 0x0a :: rest) = 0x0a :: readable rest
      rw [readable, normalizeNewlines_cr_lf, readable_lf, readable]
    · refine ⟨b == 0x0d, ?_, by simp, ?_⟩
      · simpa [ground, hlf] using hstate
      · have hcr : readable (0x0d :: b :: rest) = 0x0a :: readable (b :: rest) := by
          rw [readable, normalizeNewlines_cr (by simpa using hlf), readable_lf, readable]
        simpa [ground, hlf, owed, deferred, hcr] using hreadable

/-- A run of text keeps the cleaner in `ground`; afterwards a carriage return is
pending exactly when the run ended in one. -/
theorem clean_run_readable {bytes : List UInt8} (hesc : ∀ b ∈ bytes, b ≠ 0x1b) (pendingCr : Bool)
    (rest : List UInt8) :
    ∃ pendingCr', (clean ⟨.ground, pendingCr⟩ bytes).1 = ⟨.ground, pendingCr'⟩ ∧
      (bytes ≠ [] → (pendingCr' = true ↔ bytes.getLast? = some 0x0d)) ∧
      readable (deferred pendingCr ++ (bytes ++ rest)) =
        (clean ⟨.ground, pendingCr⟩ bytes).2 ++ readable (deferred pendingCr' ++ rest) := by
  induction bytes generalizing pendingCr with
  | nil => exact ⟨pendingCr, rfl, fun h => absurd rfl h, rfl⟩
  | cons b bytes ih =>
    obtain ⟨middle, hmiddle, hlast, hreadable⟩ :=
      step_readable (hesc b (by simp)) pendingCr (bytes ++ rest)
    obtain ⟨pendingCr', hstate, hlast', hreadable'⟩ := ih (fun c hc => hesc c (by simp [hc])) middle
    refine ⟨pendingCr', ?_, fun _ => ?_, ?_⟩
    · simpa [clean, Streaming.feed_cons, hmiddle] using hstate
    · cases bytes with
      | nil =>
        have hsame : pendingCr' = middle := by
          have h : (⟨.ground, middle⟩ : AnsiCleaner) = ⟨.ground, pendingCr'⟩ := hstate
          exact (congrArg AnsiCleaner.pendingCr h).symm
        rw [hsame, hlast]
        simp
      | cons c bytes => simpa using hlast' (by simp)
    · rw [List.cons_append, hreadable, hreadable']
      simp [clean, Streaming.feed_cons, hmiddle]

/-- `ESC` in normal text opens a sequence. -/
theorem clean_esc (rest : List UInt8) :
    clean ⟨.ground, false⟩ (0x1b :: rest) = clean ⟨.escape, false⟩ rest := by
  simp [clean, Streaming.feed_cons, step, CleanerState.awaitsTerminator, owed]

/-- A byte inside a sequence only moves the state. -/
theorem step_inside {state : CleanerState} {b : UInt8} (hstate : state ≠ .ground)
    (hesc : b ≠ 0x1b ∨ state.awaitsTerminator = true) :
    step ⟨state, false⟩ b = (⟨inside state b, false⟩, []) := by
  have hstep : ¬(b = 0x1b ∧ state.awaitsTerminator = false) := by
    rcases hesc with h | h <;> simp [h]
  simp [step, hstep, hstate]

/-- Inside a sequence the cleaner emits nothing while it absorbs a body and then
takes the bytes that end the sequence. -/
theorem clean_body {state : CleanerState} {body : List UInt8} (ending : List UInt8)
    (hstate : state ≠ .ground) (hbody : ∀ b ∈ body, b ≠ 0x1b ∧ inside state b = state) :
    clean ⟨state, false⟩ (body ++ ending) = clean ⟨state, false⟩ ending := by
  have hsilent : Streaming.feed step ⟨state, false⟩ body = (⟨state, false⟩, []) := by
    apply Streaming.feed_of_silent
    intro b hb
    obtain ⟨hesc, hinside⟩ := hbody b hb
    rw [step_inside hstate (Or.inl hesc), hinside]
  simp [clean, Streaming.feed_append, hsilent]

/-- `ESC [` opens a CSI sequence. -/
theorem csi_introducer : (0x5b : UInt8) ≠ 0x1b ∧ inside .escape 0x5b = .csi := by decide

/-- `ESC ]` opens an OSC sequence. -/
theorem osc_introducer : (0x5d : UInt8) ≠ 0x1b ∧ inside .escape 0x5d = .osc := by decide

/-- Bytes with the high bit clear and at most `0x3f` stay inside a CSI sequence. -/
theorem csi_body {b : UInt8} (h : 0x20 ≤ b ∧ b ≤ 0x3f) : b ≠ 0x1b ∧ inside .csi b = .csi := by
  grind [inside]

/-- A final byte ends a CSI sequence. -/
theorem csi_final {b : UInt8} (h : 0x40 ≤ b ∧ b ≤ 0x7e) : b ≠ 0x1b ∧ inside .csi b = .ground := by
  grind [inside]

/-- Up to its end an OSC sequence absorbs everything. -/
theorem osc_payload {b : UInt8} (h : b ≠ 0x07 ∧ b ≠ 0x1b) : b ≠ 0x1b ∧ inside .osc b = .osc := by
  simp [inside, h]

/-- Up to its end a string absorbs everything. -/
theorem string_payload {b : UInt8} (h : b ≠ 0x1b) :
    b ≠ 0x1b ∧ inside .stringSeq b = .stringSeq := by
  simp [inside, h]

/-- Every introducer of a string leads into its body. -/
theorem string_introducer {b : UInt8} (h : b ∈ stringIntroducers) :
    b ≠ 0x1b ∧ inside .escape b = .stringSeq := by
  simp only [stringIntroducers, List.mem_cons, List.not_mem_nil, or_false] at h
  rcases h with rfl | rfl | rfl | rfl <;> decide

/-- An intermediate after `ESC` waits for a final byte. -/
theorem intermediate_first {b : UInt8} (h : 0x20 ≤ b ∧ b ≤ 0x2f) :
    b ≠ 0x1b ∧ inside .escape b = .escapeIntermediate := by
  grind [inside, escape]

/-- More intermediates after `ESC` still wait for a final byte. -/
theorem intermediate_next {b : UInt8} (h : 0x20 ≤ b ∧ b ≤ 0x2f) :
    b ≠ 0x1b ∧ inside .escapeIntermediate b = .escapeIntermediate := by
  grind [inside]

/-- A final byte ends the sequence. -/
theorem intermediate_final {b : UInt8} (h : 0x30 ≤ b ∧ b ≤ 0x7e) :
    b ≠ 0x1b ∧ inside .escapeIntermediate b = .ground := by
  grind [inside]

/-- Without intermediates the final byte is none that opens a longer sequence. -/
theorem short_final {b : UInt8} (h : 0x30 ≤ b ∧ b ≤ 0x7e) (hshort : b ∉ introducers) :
    b ≠ 0x1b ∧ inside .escape b = .ground := by
  grind [inside, escape, introducers]

/-- One byte inside a sequence, with the state it leads to. -/
theorem clean_inside {state state' : CleanerState} {b : UInt8} (rest : List UInt8)
    (hstate : state ≠ .ground) (hb : b ≠ 0x1b ∧ inside state b = state') :
    clean ⟨state, false⟩ (b :: rest) = clean ⟨state', false⟩ rest := by
  obtain ⟨hesc, rfl⟩ := hb
  simp [clean, Streaming.feed_cons, step_inside hstate (Or.inl hesc)]

/-- A complete sequence leads from `ground` back to `ground` and emits nothing. -/
theorem clean_sequence (s : EscapeSequence) :
    clean ⟨.ground, false⟩ s.bytes = (⟨.ground, false⟩, []) := by
  cases s with
  | csi body final hbody hfinal =>
    rw [EscapeSequence.bytes, clean_esc, clean_inside _ (by decide) csi_introducer,
      clean_body _ (by decide) fun b hb => csi_body (hbody b hb),
      clean_inside _ (by decide) (csi_final hfinal)]
    rfl
  | oscBel payload hpayload =>
    rw [EscapeSequence.bytes, clean_esc, clean_inside _ (by decide) osc_introducer,
      clean_body _ (by decide) fun b hb => osc_payload (hpayload b hb)]
    rfl
  | oscSt payload hpayload =>
    rw [EscapeSequence.bytes, clean_esc, clean_inside _ (by decide) osc_introducer,
      clean_body _ (by decide) fun b hb => osc_payload (hpayload b hb)]
    rfl
  | string introducer payload hintroducer hpayload =>
    rw [EscapeSequence.bytes, clean_esc,
      clean_inside _ (by decide) (string_introducer hintroducer),
      clean_body _ (by decide) fun b hb => string_payload (hpayload b hb)]
    rfl
  | short intermediates final hintermediates hfinal hshort =>
    cases intermediates with
    | nil =>
      rw [EscapeSequence.bytes, clean_esc, List.nil_append,
        clean_inside _ (by decide) (short_final hfinal (hshort rfl))]
      rfl
    | cons b intermediates =>
      rw [EscapeSequence.bytes, clean_esc, List.cons_append,
        clean_inside _ (by decide) (intermediate_first (hintermediates b (by simp))),
        clean_body _ (by decide) fun c hc => intermediate_next (hintermediates c (by simp [hc])),
        clean_inside _ (by decide) (intermediate_final hfinal)]
      rfl

/-- The condition on a longer list bears on its tail. -/
theorem noCrBeforeSequence_tail {segment : Segment} {segments : List Segment}
    (h : NoCrBeforeSequence (segment :: segments)) : NoCrBeforeSequence segments :=
  fun before text s after hsplit =>
    h (segment :: before) text s after (by rw [hsplit, List.cons_append])

/-- Cleaning a list of segments from `ground`, with a carriage return pending
only where no sequence follows at once. -/
theorem clean_segments {segments : List Segment} (hcr : NoCrBeforeSequence segments)
    (pendingCr : Bool)
    (hpending : pendingCr = true → ∀ s after, segments ≠ .sequence s :: after) :
    ∃ pendingCr',
      (clean ⟨.ground, pendingCr⟩ (segments.flatMap Segment.bytes)).1 = ⟨.ground, pendingCr'⟩ ∧
      readable (deferred pendingCr ++ segments.flatMap Segment.text) =
        (clean ⟨.ground, pendingCr⟩ (segments.flatMap Segment.bytes)).2 ++ owed pendingCr' := by
  induction segments generalizing pendingCr with
  | nil =>
    refine ⟨pendingCr, rfl, ?_⟩
    cases pendingCr <;> rfl
  | cons segment segments ih =>
    cases segment with
    | run text =>
      obtain ⟨middle, hmiddle, hlast, hreadable⟩ :=
        clean_run_readable text.escFree pendingCr (segments.flatMap Segment.text)
      -- A run that leaves a carriage return pending ends in one, so no sequence is next.
      have hnext : middle = true → ∀ s after, segments ≠ .sequence s :: after := by
        intro hpend s after hsegments
        have hend := (hlast text.nonempty).mp hpend
        exact hcr [] text s after (by rw [hsegments, List.nil_append]) hend
      obtain ⟨pendingCr', hstate, hreadable'⟩ := ih (noCrBeforeSequence_tail hcr) middle hnext
      refine ⟨pendingCr', ?_, ?_⟩
      · simp only [List.flatMap_cons, Segment.bytes, clean, Streaming.feed_append]
        simp only [clean] at hmiddle hstate
        rw [hmiddle, hstate]
      · simp only [List.flatMap_cons, Segment.bytes, Segment.text, clean, Streaming.feed_append]
        simp only [clean] at hmiddle hreadable hreadable'
        rw [hreadable, hreadable', hmiddle, List.append_assoc]
    | sequence s =>
      have hfree : pendingCr = false := by
        cases pendingCr with
        | false => rfl
        | true => exact absurd rfl (hpending rfl s segments)
      subst hfree
      obtain ⟨pendingCr', hstate, hreadable⟩ :=
        ih (noCrBeforeSequence_tail hcr) false (fun h => absurd h (by decide))
      have hsilent := clean_sequence s
      refine ⟨pendingCr', ?_, ?_⟩
      · simp only [List.flatMap_cons, Segment.bytes, clean, Streaming.feed_append]
        simp only [clean] at hsilent hstate
        rw [hsilent, hstate]
      · simp only [List.flatMap_cons, Segment.bytes, Segment.text, clean, Streaming.feed_append,
          List.nil_append]
        simp only [clean] at hsilent hreadable
        rw [hsilent, hreadable, List.nil_append]

/-- **Strip correctness.** However a stream of text runs and complete escape
sequences is cut into chunks, the cleaner keeps exactly the readable form of the
text, the newline for a carriage return still pending at the end included. -/
theorem cleanChunks_segments {segments : List Segment} (hcr : NoCrBeforeSequence segments)
    {chunks : List (List UInt8)} (hchunks : chunks.flatten = segments.flatMap Segment.bytes) :
    (cleanChunks {} chunks).2 ++ owed (cleanChunks {} chunks).1.pendingCr =
      readable (segments.flatMap Segment.text) := by
  obtain ⟨pendingCr', hstate, hreadable⟩ :=
    clean_segments hcr false (fun h => absurd h (by decide))
  rw [cleanChunks_eq_clean, hchunks]
  change (clean {} _).1 = _ at hstate
  rw [hstate]
  exact hreadable.symm

/-- The parameter of a reset. -/
theorem parameter_zero : ∀ b ∈ ([0x30] : List UInt8), 0x20 ≤ b ∧ b ≤ 0x3f := by simp

/-- The parameter of bold text. -/
theorem parameter_one : ∀ b ∈ ([0x31] : List UInt8), 0x20 ≤ b ∧ b ≤ 0x3f := by simp

/-- The final byte of a colour sequence. -/
theorem final_m : (0x40 : UInt8) ≤ 0x6d ∧ (0x6d : UInt8) ≤ 0x7e := by decide

/-- The stream `a`, `ESC [ 1 m`, `b CR LF c`, of a colored word and two lines. -/
def coloredSegments : List Segment :=
  [.run ⟨[0x61], by decide, by simp⟩, .sequence (.csi [0x31] 0x6d parameter_one final_m),
    .run ⟨[0x62, 0x0d, 0x0a, 0x63], by decide, by simp⟩]

/-- No CR stands before a sequence of that text. -/
theorem coloredSegments_noCr : NoCrBeforeSequence coloredSegments := by
  intro before text s after hsplit
  match before, hsplit with
  | [], hsplit =>
    obtain rfl : TextRun.mk [0x61] (by decide) (by simp) = text := by
      simpa using (List.cons.inj hsplit).1
    decide
  | [_], hsplit => simp [coloredSegments] at hsplit
  | [_, _], hsplit => simp [coloredSegments] at hsplit
  | _ :: _ :: _ :: before, hsplit => simp [coloredSegments] at hsplit

/-- The stream cut inside the sequence and inside the line end. -/
theorem cleanChunks_coloredSegments :
    (cleanChunks {} [[0x61, 0x1b, 0x5b], [0x31, 0x6d, 0x62, 0x0d], [0x0a, 0x63]]).2 ++
        owed (cleanChunks {} [[0x61, 0x1b, 0x5b], [0x31, 0x6d, 0x62, 0x0d], [0x0a, 0x63]]).1.pendingCr =
      readable (coloredSegments.flatMap Segment.text) :=
  cleanChunks_segments coloredSegments_noCr (by decide)

end AnsiCleaner

end IgnibyteBridge
