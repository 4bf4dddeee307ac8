import IgnibyteBridge.Clean.Segments

/-!
# Aborted escape sequences

A stream can break off an escape sequence and start another one. Outside OSC and
string sequences the `ESC` of the second cancels the first, and both are dropped.
Inside them the `ESC` begins the terminator, whatever byte follows it.
-/

namespace IgnibyteBridge

/-- A sequence whose body is a string: OSC, DCS, SOS, PM or APC. -/
def EscapeSequence.hasString : EscapeSequence → Bool
  | .oscBel .. | .oscSt .. | .string .. => true
  | _ => false

/-- One fragment of a terminal stream in which sequences may be aborted. -/
inductive Fragment where
  /-- Printable text. -/
  | text (bytes : List UInt8) (hprintable : ∀ b ∈ bytes, 0x20 ≤ b ∧ b ≠ 0x7f)
  | complete (s : EscapeSequence)
  /-- A proper prefix of a sequence, its `ESC` included. -/
  | aborted (s : EscapeSequence) (n : ℕ) (hpositive : 0 < n) (hproper : n < s.bytes.length)

namespace Fragment

/-- The bytes of a fragment as they arrive. -/
def bytes : Fragment → List UInt8
  | text bytes _ => bytes
  | complete s => s.bytes
  | aborted s n _ _ => s.bytes.take n

/-- The text of a fragment. -/
def shown : Fragment → List UInt8
  | text bytes _ => bytes
  | _ => []

/-- A fragment that starts with `ESC`. -/
def isSequence : Fragment → Bool
  | text .. => false
  | _ => true

/-- An aborted fragment that `ESC` cancels: it ends before the body of a string. -/
def cancels : Fragment → Bool
  | aborted s n _ _ => !s.hasString || n == 1
  | _ => true

end Fragment

/-- Every aborted sequence is directly followed by another sequence that is not `ESC \`. -/
def Followed : List Fragment → Prop
  | [] => True
  | fragment :: fragments =>
    (∀ s n hpositive hproper, fragment = .aborted s n hpositive hproper →
      ∃ next after, fragments = next :: after ∧ next.isSequence = true ∧
        ¬[0x1b, 0x5c] <+: (fragments.flatMap Fragment.bytes)) ∧
    Followed fragments

namespace AnsiCleaner

/-- Every escape sequence begins with ESC. -/
theorem bytes_esc (s : EscapeSequence) : ∃ rest, s.bytes = 0x1b :: rest := by
  cases s <;> exact ⟨_, rfl⟩

/-- `ESC` restarts a sequence wherever it does not begin a terminator. -/
theorem clean_restart {state : CleanerState} (hstate : state.awaitsTerminator = false)
    (rest : List UInt8) :
    clean ⟨state, false⟩ (0x1b :: rest) = clean ⟨.ground, false⟩ (0x1b :: rest) := by
  rw [clean_esc]
  simp [clean, Streaming.feed_cons, step, hstate, owed]

/-- Printable text comes out as it is. -/
theorem clean_printable {bytes : List UInt8}
    (hprintable : ∀ b ∈ bytes, 0x20 ≤ b ∧ b ≠ 0x7f) :
    clean ⟨.ground, false⟩ bytes = (⟨.ground, false⟩, bytes) := by
  have hstep : ∀ b : UInt8, 0x20 ≤ b ∧ b ≠ 0x7f →
      step ⟨.ground, false⟩ b = (⟨.ground, false⟩, [b]) := by
    intro b hb
    have hkept : isDropped b = false := by grind [isDropped]
    grind [step, ground, groundByte, owed]
  induction bytes with
  | nil => rfl
  | cons b bytes ih =>
    have hrest := ih fun c hc => hprintable c (List.mem_cons_of_mem b hc)
    simp only [clean] at hrest ⊢
    rw [Streaming.feed_cons, hstep b (hprintable b List.mem_cons_self), hrest]
    rfl

/-- An aborted CSI or short sequence leaves the cleaner where `ESC` restarts it. -/
theorem clean_aborted {s : EscapeSequence} {n : ℕ} (hpositive : 0 < n)
    (hproper : n < s.bytes.length) (hcancels : s.hasString = false ∨ n = 1) :
    ∃ state, state.awaitsTerminator = false ∧
      clean ⟨.ground, false⟩ (s.bytes.take n) = (⟨state, false⟩, []) := by
  obtain ⟨k, rfl⟩ : ∃ k, n = k + 1 := ⟨n - 1, by omega⟩
  cases k with
  | zero =>
    obtain ⟨rest, hrest⟩ := bytes_esc s
    refine ⟨.escape, rfl, ?_⟩
    rw [hrest]
    rfl
  | succ k =>
    have hplain : s.hasString = false := hcancels.resolve_right (by omega)
    cases s with
    | csi body final hbody hfinal =>
      have hk : k ≤ body.length := by
        simp [EscapeSequence.bytes] at hproper
        omega
      have htake : (EscapeSequence.csi body final hbody hfinal).bytes.take (k + 1 + 1) =
          0x1b :: 0x5b :: (body.take k ++ []) := by
        simp [EscapeSequence.bytes, List.take_append_of_le_length hk]
      refine ⟨.csi, rfl, ?_⟩
      rw [htake, clean_esc, clean_inside _ (by decide) csi_introducer,
        clean_body _ (by decide) fun b hb => csi_body (hbody b (List.mem_of_mem_take hb))]
      rfl
    | short intermediates final hintermediates hfinal hshort =>
      cases intermediates with
      | nil =>
        have hlength : (EscapeSequence.short [] final hintermediates hfinal hshort).bytes.length = 2 :=
          rfl
        rw [hlength] at hproper
        omega
      | cons b intermediates =>
        have hk : k ≤ intermediates.length := by
          simp [EscapeSequence.bytes] at hproper
          omega
        have htake : (EscapeSequence.short (b :: intermediates) final hintermediates hfinal
            hshort).bytes.take (k + 1 + 1) = 0x1b :: b :: (intermediates.take k ++ []) := by
          simp [EscapeSequence.bytes, List.take_append_of_le_length hk]
        refine ⟨.escapeIntermediate, rfl, ?_⟩
        rw [htake, clean_esc,
          clean_inside _ (by decide) (intermediate_first (hintermediates b (by simp))),
          clean_body _ (by decide) fun c hc =>
            intermediate_next (hintermediates c (by simp [List.mem_of_mem_take hc]))]
        rfl
    | _ => cases hplain

/-- Cleaning fragments from a state where `ESC` restarts a sequence keeps their text. -/
theorem clean_fragments {fragments : List Fragment} (hfollowed : Followed fragments)
    (hcancels : ∀ fragment ∈ fragments, fragment.cancels = true) {state : CleanerState}
    (hstate : state = .ground ∨ state.awaitsTerminator = false ∧
      ∃ next after, fragments = next :: after ∧ next.isSequence = true) :
    (clean ⟨state, false⟩ (fragments.flatMap Fragment.bytes)).2 = fragments.flatMap Fragment.shown := by
  induction fragments generalizing state with
  | nil => rfl
  | cons fragment fragments ih =>
    obtain ⟨hnext, hfollowed⟩ := hfollowed
    have hcancels' : ∀ p ∈ fragments, _ := fun p hp => hcancels p (List.mem_cons_of_mem _ hp)
    have hrest := @ih hfollowed hcancels'
    -- A sequence is cleaned as from `ground`.
    have hground : clean ⟨state, false⟩ ((fragment :: fragments).flatMap Fragment.bytes) =
        clean ⟨.ground, false⟩ ((fragment :: fragments).flatMap Fragment.bytes) := by
      rcases hstate with rfl | ⟨hstate, next, after, heq, hsequence⟩
      · rfl
      · cases heq
        have hesc : ∃ rest, fragment.bytes = 0x1b :: rest := by
          cases fragment with
          | text bytes hprintable => cases hsequence
          | complete s => exact bytes_esc s
          | aborted s n hpositive hproper =>
            obtain ⟨rest, hrest⟩ := bytes_esc s
            obtain ⟨k, rfl⟩ : ∃ k, n = k + 1 := ⟨n - 1, by omega⟩
            exact ⟨rest.take k, by rw [Fragment.bytes, hrest, List.take_succ_cons]⟩
        obtain ⟨rest, hrest⟩ := hesc
        rw [List.flatMap_cons, hrest, List.cons_append, clean_restart hstate]
    have hfragment : ∃ state', (state' = .ground ∨ state'.awaitsTerminator = false ∧
        ∃ next after, fragments = next :: after ∧ next.isSequence = true) ∧
        clean ⟨.ground, false⟩ fragment.bytes = (⟨state', false⟩, fragment.shown) := by
      cases fragment with
      | text bytes hprintable => exact ⟨.ground, .inl rfl, clean_printable hprintable⟩
      | complete s => exact ⟨.ground, .inl rfl, clean_sequence s⟩
      | aborted s n hpositive hproper =>
        have hkind : s.hasString = false ∨ n = 1 := by
          simpa [Fragment.cancels] using hcancels _ List.mem_cons_self
        obtain ⟨state', hstate', hclean⟩ := clean_aborted hpositive hproper hkind
        obtain ⟨next, after, heq, hsequence, -⟩ := hnext s n hpositive hproper rfl
        exact ⟨state', .inr ⟨hstate', next, after, heq, hsequence⟩, hclean⟩
    obtain ⟨state', hstate', hclean⟩ := hfragment
    rw [hground]
    simp only [clean] at hclean hrest ⊢
    rw [List.flatMap_cons, List.flatMap_cons, Streaming.feed_append, hclean, hrest hstate']

/-- **Aborted sequences.** An aborted CSI or short sequence, or one that broke off
right after its `ESC`, is dropped with the sequence that cancels it, so exactly the
text remains. In the body of a string, `ESC` and the byte after it end the string. -/
theorem cleanChunks_aborted :
    (∀ fragments chunks, Followed fragments → (∀ fragment ∈ fragments, fragment.cancels = true) →
      chunks.flatten = fragments.flatMap Fragment.bytes →
      (cleanChunks {} chunks).2 = fragments.flatMap Fragment.shown) ∧
    (∀ payload : List UInt8, (∀ b ∈ payload, b ≠ 0x07 ∧ b ≠ 0x1b) → ∀ b rest,
      clean {} (0x1b :: 0x5d :: (payload ++ 0x1b :: b :: rest)) = clean {} rest) ∧
    ∀ introducer ∈ stringIntroducers, ∀ payload : List UInt8, (∀ b ∈ payload, b ≠ 0x1b) →
      ∀ b rest,
        clean {} (0x1b :: introducer :: (payload ++ 0x1b :: b :: rest)) = clean {} rest := by
  refine ⟨fun fragments chunks hfollowed hcancels hchunks => ?_, fun payload hpayload b rest => ?_,
    fun introducer hintroducer payload hpayload b rest => ?_⟩
  · rw [cleanChunks_eq_clean, hchunks]
    exact clean_fragments hfollowed hcancels (.inl rfl)
  · rw [clean_esc, clean_inside _ (by decide) osc_introducer,
      clean_body _ (by decide) fun b hb => osc_payload (hpayload b hb)]
    simp [clean, Streaming.feed_cons, step, CleanerState.awaitsTerminator, inside]
  · rw [clean_esc, clean_inside _ (by decide) (string_introducer hintroducer),
      clean_body _ (by decide) fun b hb => string_payload (hpayload b hb)]
    simp [clean, Streaming.feed_cons, step, CleanerState.awaitsTerminator, inside]

/-- The stream `a`, `ESC [ 1`, `ESC [ 0 m`, `c`, of two characters with a color sequence
that broke off between them. -/
def abortedColor : List Fragment :=
  [.text [0x61] (by simp), .aborted (.csi [0x31] 0x6d parameter_one final_m) 3 (by decide) (by decide),
    .complete (.csi [0x30] 0x6d parameter_zero final_m), .text [0x63] (by simp)]

/-- The stream cut inside both sequences. -/
theorem cleanChunks_aborted_color :
    (cleanChunks {} [[0x61, 0x1b, 0x5b], [0x31, 0x1b], [0x5b, 0x30, 0x6d, 0x63]]).2 =
      [0x61, 0x63] := by
  have hfollowed : Followed abortedColor :=
    ⟨fun _ _ _ _ h => (by cases h), fun _ _ _ _ _ => ⟨_, _, rfl, rfl, by decide⟩,
      fun _ _ _ _ h => (by cases h), fun _ _ _ _ h => (by cases h), trivial⟩
  exact cleanChunks_aborted.1 abortedColor _ hfollowed
    (by simp [abortedColor, Fragment.cancels, EscapeSequence.hasString]) rfl

/-- A window title that broke off, and a sequence that resets colors. -/
def abortedTitle : List Fragment :=
  [.aborted (.oscBel [0x74] (by simp)) 3 (by decide) (by decide),
    .complete (.csi [0x30] 0x6d parameter_zero final_m)]

/-- After an aborted window title the tail of a color sequence comes out as text. -/
theorem cleanChunks_aborted_title :
    Followed abortedTitle ∧
      (cleanChunks {} [abortedTitle.flatMap Fragment.bytes]).2 ≠
        abortedTitle.flatMap Fragment.shown := by
  refine ⟨⟨fun s n hpositive hproper _ => ⟨_, _, rfl, rfl, by decide⟩, fun s n _ _ h => ?_, trivial⟩,
    by decide⟩
  cases h

end AnsiCleaner

end IgnibyteBridge
