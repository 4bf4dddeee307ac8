import IgnibyteBridge.Clean.Segments
import IgnibyteBridge.Text.Characters

/-!
# Multi-byte characters

The cleaner reads bytes, and three of its states end with whatever byte comes
next. A multi-byte character that arrives in one of them loses its first byte,
and the rest of it comes out as text. In terms of the text that is where such a
character directly follows an `ESC` that starts a sequence or ends a string.
-/

namespace IgnibyteBridge

open Text

/-! ### The text -/

/-- The character that starts a sequence, and the terminator of a string. -/
def esc : Char := '\u001b'

/-- The character that ends an OSC. -/
def bel : Char := '\u0007'

/-- The characters that open an OSC (the first) or another string after `ESC`. -/
def stringOpeners : List Char := [']', 'P', 'X', '^', '_']

/-- Whether the body of a string with this opener goes no further: at an `ESC`, and in
an OSC at a `BEL`. -/
def endsBody (opener c : Char) : Bool := c = esc || (opener = ']' && c = bel)

/-- Texts in which a character of one byte, or none, follows each `ESC` that starts a
sequence and each `ESC` that ends a string. -/
inductive Whole : List Char → Prop
  | nil : Whole []
  /-- A character outside strings, be it of normal text or of a sequence. -/
  | char {c : Char} {text : List Char} (hc : c ≠ esc) (rest : Whole text) : Whole (c :: text)
  /-- An `ESC` that the next one cancels, or the last character. -/
  | lone {text : List Char} (hnext : text = [] ∨ text.head? = some esc) (rest : Whole text) :
    Whole (esc :: text)
  /-- The beginning of a sequence without a string. -/
  | sequence {c : Char} {text : List Char} (hsize : c.utf8Size = 1) (hc : c ≠ esc)
    (hopener : c ∉ stringOpeners) (rest : Whole text) : Whole (esc :: c :: text)
  /-- A string that the text breaks off, in its body or at the `ESC` of its terminator. -/
  | unterminated {opener : Char} {body tail : List Char} (hopener : opener ∈ stringOpeners)
    (hbody : ∀ c ∈ body, endsBody opener c = false) (htail : tail = [] ∨ tail = [esc]) :
    Whole (esc :: opener :: (body ++ tail))
  /-- An OSC that ends with `BEL`. -/
  | bel {body text : List Char} (hbody : ∀ c ∈ body, endsBody ']' c = false) (rest : Whole text) :
    Whole (esc :: ']' :: (body ++ bel :: text))
  /-- A string that ends with `ESC` and whatever character comes next. -/
  | terminated {opener c : Char} {body text : List Char} (hopener : opener ∈ stringOpeners)
    (hbody : ∀ c ∈ body, endsBody opener c = false) (hsize : c.utf8Size = 1) (rest : Whole text) :
    Whole (esc :: opener :: (body ++ esc :: c :: text))

/-! ### The states -/

/-- The states that one byte ends, whichever it is: the byte after an `ESC` that
starts a sequence or a terminator. -/
def CleanerState.endsWithAnyByte : CleanerState → Bool
  | .escape | .oscEsc | .stringEsc => true
  | _ => false

/-- The states of normal text and of sequences whose `ESC` is behind. -/
def CleanerState.isOutside : CleanerState → Bool
  | .ground | .csi | .escapeIntermediate => true
  | _ => false

/-- The state in the body of a string. -/
def CleanerState.ofString (opener : Char) : CleanerState := if opener = ']' then .osc else .stringSeq

/-- The state after the `ESC` that ends the body of a string. -/
def CleanerState.ofTerminator (opener : Char) : CleanerState :=
  if opener = ']' then .oscEsc else .stringEsc

/-- A string body does not end with any byte. -/
theorem CleanerState.ofString_ends (opener : Char) :
    (CleanerState.ofString opener).endsWithAnyByte = false := by
  unfold CleanerState.ofString
  split <;> rfl

/-- After ESC in a string body, any byte ends it. -/
theorem CleanerState.ofTerminator_ends (opener : Char) :
    (CleanerState.ofTerminator opener).endsWithAnyByte = true := by
  unfold CleanerState.ofTerminator
  split <;> rfl

/-- Outside every sequence no byte ends one. -/
theorem CleanerState.isOutside_ends {state : CleanerState} (h : state.isOutside = true) :
    state.endsWithAnyByte = false ∧ state.awaitsTerminator = false := by
  cases state <;> simp_all [isOutside, endsWithAnyByte, awaitsTerminator]

namespace AnsiCleaner

/-- No multi-byte character arrives where one byte ends the state. -/
def Intact (self : AnsiCleaner) (chars : List Char) : Prop :=
  ∀ before c after, chars = before ++ c :: after → 1 < c.utf8Size →
    (clean self (encode before)).1.state.endsWithAnyByte = false

/-- The newline that is owed is a character of its own. -/
theorem owed_ascii (pendingCr : Bool) : IsUtf8 (owed pendingCr) :=
  isUtf8_ascii (by cases pendingCr <;> simp [owed])

/-- Outside ASCII normal text is kept. -/
theorem step_ground_kept {b : UInt8} (hb : 0x80 ≤ b) (pendingCr : Bool) :
    step ⟨.ground, pendingCr⟩ b = (⟨.ground, false⟩, owed pendingCr ++ [b]) := by
  have hkept : isDropped b = false := by grind [isDropped]
  grind [step, ground, groundByte]

/-- Outside ASCII a byte ends three of the states and is absorbed by the others. -/
theorem step_dropped {b : UInt8} (hb : 0x80 ≤ b) (pendingCr : Bool) {state : CleanerState}
    (hground : state ≠ .ground) : step ⟨state, pendingCr⟩ b =
      (⟨if state.endsWithAnyByte then .ground else state, pendingCr⟩, []) := by
  cases state <;> grind [step, inside, escape, CleanerState.endsWithAnyByte]

/-- ASCII in, ASCII out. -/
theorem step_ascii {b : UInt8} (hb : b < 0x80) (self : AnsiCleaner) :
    ∀ c ∈ (step self b).2, c < 0x80 := by
  have hground : ∀ c ∈ (self.ground b).2, c < 0x80 := by grind [ground, groundByte, owed]
  grind [step, owed]

/-- Cleaning two inputs in turn is cleaning them joined. -/
theorem clean_append (self : AnsiCleaner) (u v : List UInt8) :
    clean self (u ++ v) =
      ((clean (clean self u).1 v).1, (clean self u).2 ++ (clean (clean self u).1 v).2) :=
  Streaming.feed_append step self u v

/-- The bytes of a character in normal text come out together. -/
theorem clean_ground_kept {bytes : List UInt8} (hbytes : ∀ b ∈ bytes, 0x80 ≤ b) (hne : bytes ≠ [])
    (pendingCr : Bool) :
    clean ⟨.ground, pendingCr⟩ bytes = (⟨.ground, false⟩, owed pendingCr ++ bytes) := by
  induction bytes generalizing pendingCr with
  | nil => exact absurd rfl hne
  | cons b bytes ih =>
    have hstep := step_ground_kept (hbytes b List.mem_cons_self) pendingCr
    simp only [clean] at ih ⊢
    rw [Streaming.feed_cons, hstep]
    cases bytes with
    | nil => simp
    | cons c bytes =>
      rw [ih (fun d hd => hbytes d (List.mem_cons_of_mem b hd)) (by simp)]
      simp [owed]

/-- The bytes of a character inside a sequence leave it where it is. -/
theorem clean_inside_dropped {bytes : List UInt8} (hbytes : ∀ b ∈ bytes, 0x80 ≤ b)
    {state : CleanerState} (hground : state ≠ .ground) (hends : state.endsWithAnyByte = false)
    (pendingCr : Bool) : clean ⟨state, pendingCr⟩ bytes = (⟨state, pendingCr⟩, []) := by
  refine Streaming.feed_of_silent fun b hb => ?_
  rw [step_dropped (hbytes b hb) pendingCr hground, hends]
  rfl

/-- One character, in any state: what comes out of it is valid, unless the character
has several bytes and the state ends with the first of them. -/
theorem clean_char (self : AnsiCleaner) (c : Char) :
    IsUtf8 (clean self (String.utf8EncodeChar c)).2 ∨
      1 < c.utf8Size ∧ self.state.endsWithAnyByte = true := by
  obtain ⟨state, pendingCr⟩ := self
  rcases utf8EncodeChar_shape c with ⟨b, hc, hb⟩ | ⟨lead, second, rest, hc, hall, -⟩
  · left
    rw [hc]
    refine isUtf8_ascii ?_
    simp only [clean, Streaming.feed_singleton]
    exact step_ascii hb ⟨state, pendingCr⟩
  · by_cases hground : state = .ground
    · subst hground
      left
      rw [hc, clean_ground_kept hall (by simp), isUtf8_append (owed_ascii pendingCr), ← hc]
      exact ⟨[c], by simp [encode]⟩
    · cases hends : state.endsWithAnyByte with
      | true => exact .inr ⟨by rw [← String.length_utf8EncodeChar, hc]; simp, rfl⟩
      | false =>
        left
        rw [hc, clean_inside_dropped hall hground hends]
        exact ⟨[], rfl⟩

/-- A state that one byte ends loses the first byte of a multi-byte character only. -/
theorem clean_char_torn {self : AnsiCleaner} {c : Char} (hc : 1 < c.utf8Size)
    (hends : self.state.endsWithAnyByte = true) (rest : List UInt8) :
    ¬IsUtf8 (clean self (String.utf8EncodeChar c ++ rest)).2 := by
  obtain ⟨state, pendingCr⟩ := self
  rcases utf8EncodeChar_shape c with ⟨b, hbyte, -⟩ | ⟨lead, second, tail, hbytes, hall, hsecond⟩
  · rw [← String.length_utf8EncodeChar, hbyte] at hc
    simp at hc
  · have hground : state ≠ .ground := by
      rintro rfl
      cases hends
    have hlead := step_dropped (hall lead (by simp)) pendingCr hground
    have hnext := step_ground_kept (hall second (by simp)) pendingCr
    simp only [hends, if_true] at hlead
    rw [hbytes]
    simp only [clean, List.cons_append, Streaming.feed_cons, hlead, hnext, List.nil_append,
      List.append_assoc]
    rw [isUtf8_append (owed_ascii pendingCr)]
    exact not_isUtf8_cons hsecond

/-- No character is torn exactly when the first is not and none of the rest is. -/
theorem intact_cons {self : AnsiCleaner} {c : Char} {chars : List Char} :
    Intact self (c :: chars) ↔
      (1 < c.utf8Size → self.state.endsWithAnyByte = false) ∧
        Intact (clean self (String.utf8EncodeChar c)).1 chars := by
  have hnext : ∀ before : List Char, (clean self (encode (c :: before))).1 =
      (clean (clean self (String.utf8EncodeChar c)).1 (encode before)).1 := by
    intro before
    rw [encode_cons, clean_append]
  constructor
  · intro h
    refine ⟨fun hsize => h [] c chars rfl hsize, fun before d after heq hsize => ?_⟩
    rw [← hnext]
    exact h (c :: before) d after (by rw [heq, List.cons_append]) hsize
  · rintro ⟨hhead, htail⟩ before d after heq hsize
    cases before with
    | nil =>
      obtain ⟨rfl, rfl⟩ := List.cons.inj heq
      exact hhead hsize
    | cons e before =>
      obtain ⟨rfl, rfl⟩ := List.cons.inj heq
      rw [hnext]
      exact htail before d after rfl hsize

/-- From any state, a text comes out as valid UTF-8 exactly when no multi-byte
character of it arrives where one byte ends the state. -/
theorem clean_isUtf8 (self : AnsiCleaner) (chars : List Char) :
    IsUtf8 (clean self (encode chars)).2 ↔ Intact self chars := by
  induction chars generalizing self with
  | nil =>
    refine ⟨fun _ before c after heq => ?_, fun _ => ⟨[], rfl⟩⟩
    cases before <;> cases heq
  | cons c chars ih =>
    rw [encode_cons, intact_cons]
    by_cases htorn : 1 < c.utf8Size ∧ self.state.endsWithAnyByte = true
    · refine iff_of_false (clean_char_torn htorn.1 htorn.2 _) fun h => ?_
      rw [h.1 htorn.1] at htorn
      cases htorn.2
    · have hvalid := (clean_char self c).resolve_right htorn
      rw [clean_append, isUtf8_append hvalid, ih]
      refine (and_iff_right fun hsize => ?_).symm
      simpa using fun hends => htorn ⟨hsize, hends⟩

/-! ### The states along a text -/

/-- No character of the empty input is torn. -/
theorem intact_nil (self : AnsiCleaner) : Intact self [] := by
  intro before c after heq
  cases before <;> cases heq

/-- A character of one byte is an ASCII byte. -/
theorem exists_byte_of_utf8Size {c : Char} (hsize : c.utf8Size = 1) :
    ∃ b, String.utf8EncodeChar c = [b] ∧ b < 0x80 := by
  rcases utf8EncodeChar_shape c with hbyte | ⟨lead, second, rest, hbytes, -⟩
  · exact hbyte
  · rw [← String.length_utf8EncodeChar, hbytes] at hsize
    simp at hsize

/-- A character of one byte is the ASCII character of that byte. -/
theorem ne_of_utf8EncodeChar {c d : Char} {b e : UInt8} (hc : String.utf8EncodeChar c = [b])
    (hd : String.utf8EncodeChar d = [e]) (hne : c ≠ d) : b ≠ e := by
  rintro rfl
  have hsame : String.utf8EncodeChar c ++ [] = String.utf8EncodeChar d ++ [] := by rw [hc, hd]
  exact hne (utf8EncodeChar_append_inj hsame).1

/-- A byte other than ESC does not lead into a sequence. -/
theorem step_outside {b : UInt8} (hb : b ≠ 0x1b) (pendingCr : Bool) {state : CleanerState}
    (hstate : state.isOutside = true) : (step ⟨state, pendingCr⟩ b).1.state.isOutside = true := by
  cases state <;> grind [CleanerState.isOutside, step, inside, ground, groundByte]

/-- Outside strings a character other than `ESC` leads to no other state. -/
theorem clean_char_outside {self : AnsiCleaner} (hself : self.state.isOutside = true) {c : Char}
    (hc : c ≠ esc) : (clean self (String.utf8EncodeChar c)).1.state.isOutside = true := by
  obtain ⟨state, pendingCr⟩ := self
  rcases utf8EncodeChar_shape c with ⟨b, hbyte, -⟩ | ⟨lead, second, rest, hbytes, hall, -⟩
  · have hb := ne_of_utf8EncodeChar hbyte (d := esc) rfl hc
    rw [hbyte, clean, Streaming.feed_singleton]
    exact step_outside hb pendingCr hself
  · rw [hbytes]
    by_cases hground : state = .ground
    · subst hground
      rw [clean_ground_kept hall (by simp)]
      rfl
    · rw [clean_inside_dropped hall hground (by cases state <;> simp_all [CleanerState.isOutside,
        CleanerState.endsWithAnyByte])]
      exact hself

/-- Outside strings, and right after another one, `ESC` starts a sequence. -/
theorem clean_char_esc {self : AnsiCleaner} (hself : self.state.awaitsTerminator = false) :
    (clean self (String.utf8EncodeChar esc)).1 = ⟨.escape, false⟩ := by
  obtain ⟨state, pendingCr⟩ := self
  change (clean _ [0x1b]).1 = _
  simp only [clean, Streaming.feed_singleton, step, hself, and_self, if_true]

/-- An opener after `ESC` opens a string. -/
theorem clean_char_opener {opener : Char} (hopener : opener ∈ stringOpeners) (pendingCr : Bool) :
    (clean ⟨.escape, pendingCr⟩ (String.utf8EncodeChar opener)).1 =
      ⟨.ofString opener, pendingCr⟩ := by
  simp only [stringOpeners, List.mem_cons, List.not_mem_nil, or_false] at hopener
  rcases hopener with rfl | rfl | rfl | rfl | rfl <;> rfl

/-- Any other character of one byte after `ESC` leads outside strings. -/
theorem clean_char_sequence {c : Char} (hsize : c.utf8Size = 1) (hc : c ≠ esc)
    (hopener : c ∉ stringOpeners) (pendingCr : Bool) :
    (clean ⟨.escape, pendingCr⟩ (String.utf8EncodeChar c)).1.state.isOutside = true := by
  have hstep : ∀ b : UInt8, b < 0x80 → b ∉ [0x1b, 0x5d, 0x50, 0x58, 0x5e, 0x5f] →
      ∀ pendingCr : Bool, (step ⟨.escape, pendingCr⟩ b).1.state.isOutside = true := by
    grind [CleanerState.isOutside, step, inside, escape]
  obtain ⟨b, hbyte, hb⟩ := exists_byte_of_utf8Size hsize
  have hne : ∀ d ∈ esc :: stringOpeners, ∀ e, String.utf8EncodeChar d = [e] → b ≠ e := by
    intro d hd e he
    refine ne_of_utf8EncodeChar hbyte he ?_
    rintro rfl
    exact (List.mem_cons.mp hd).elim hc hopener
  rw [hbyte, clean, Streaming.feed_singleton]
  refine hstep b hb ?_ pendingCr
  simp only [List.mem_cons, List.not_mem_nil, or_false, not_or]
  exact ⟨hne esc (by simp) _ rfl, hne ']' (by decide) _ rfl, hne 'P' (by decide) _ rfl,
    hne 'X' (by decide) _ rfl, hne '^' (by decide) _ rfl, hne '_' (by decide) _ rfl⟩

/-- The body of a string leads to no other state. -/
theorem clean_char_body {opener c : Char} (hc : endsBody opener c = false) (pendingCr : Bool) :
    (clean ⟨.ofString opener, pendingCr⟩ (String.utf8EncodeChar c)).1 =
      ⟨.ofString opener, pendingCr⟩ := by
  simp only [endsBody, Bool.or_eq_false_iff, decide_eq_false_iff_not, Bool.and_eq_false_imp,
    decide_eq_true_eq] at hc
  obtain ⟨hesc, hbel⟩ := hc
  rcases utf8EncodeChar_shape c with ⟨b, hbyte, -⟩ | ⟨lead, second, rest, hbytes, hall, -⟩
  · have hb : b ≠ 0x1b := ne_of_utf8EncodeChar hbyte (d := esc) rfl hesc
    rw [hbyte, clean, Streaming.feed_singleton]
    unfold CleanerState.ofString
    split
    · next hosc =>
      have hb' : b ≠ 0x07 := ne_of_utf8EncodeChar hbyte (d := bel) rfl (hbel hosc)
      simp [step, inside, hb, hb']
    · simp [step, inside, hb]
  · have hground : CleanerState.ofString opener ≠ .ground := by
      unfold CleanerState.ofString
      split <;> simp
    rw [hbytes, clean_inside_dropped hall hground (CleanerState.ofString_ends opener)]

/-- `ESC` in the body of a string begins its terminator. -/
theorem clean_char_ofString_esc (opener : Char) (pendingCr : Bool) :
    (clean ⟨.ofString opener, pendingCr⟩ (String.utf8EncodeChar esc)).1 =
      ⟨.ofTerminator opener, pendingCr⟩ := by
  change (clean _ [0x1b]).1 = _
  unfold CleanerState.ofString CleanerState.ofTerminator
  split <;> rfl

/-- `BEL` ends an OSC. -/
theorem clean_char_bel (pendingCr : Bool) :
    (clean ⟨.ofString ']', pendingCr⟩ (String.utf8EncodeChar bel)).1 =
      ⟨.ground, pendingCr⟩ := rfl

/-- A character of one byte ends a string. -/
theorem clean_char_terminator {c : Char} (hsize : c.utf8Size = 1) (opener : Char)
    (pendingCr : Bool) :
    (clean ⟨.ofTerminator opener, pendingCr⟩ (String.utf8EncodeChar c)).1 =
      ⟨.ground, pendingCr⟩ := by
  obtain ⟨b, hbyte, -⟩ := exists_byte_of_utf8Size hsize
  rw [hbyte, clean, Streaming.feed_singleton]
  unfold CleanerState.ofTerminator
  split <;> simp [step, inside, CleanerState.awaitsTerminator]

/-- A character of one byte passes in any state. -/
theorem intact_cons_byte {self : AnsiCleaner} {c : Char} {chars : List Char}
    (hsize : c.utf8Size = 1) :
    Intact self (c :: chars) ↔ Intact (clean self (String.utf8EncodeChar c)).1 chars := by
  rw [intact_cons]
  exact and_iff_right fun hlarge => by omega

/-- Outside strings the text from an `ESC` on is the same as right after another `ESC`. -/
theorem intact_esc {self : AnsiCleaner} {chars : List Char}
    (hself : self.state.awaitsTerminator = false) :
    Intact self (esc :: chars) ↔ Intact ⟨.escape, false⟩ chars := by
  rw [intact_cons_byte rfl, clean_char_esc hself]

/-- The body of a string passes. -/
theorem intact_body {opener : Char} {body : List Char}
    (hbody : ∀ c ∈ body, endsBody opener c = false) (pendingCr : Bool) (rest : List Char) :
    Intact ⟨.ofString opener, pendingCr⟩ (body ++ rest) ↔
      Intact ⟨.ofString opener, pendingCr⟩ rest := by
  induction body with
  | nil => rfl
  | cons c body ih =>
    rw [List.cons_append, intact_cons, clean_char_body (hbody c List.mem_cons_self),
      ih fun d hd => hbody d (List.mem_cons_of_mem c hd)]
    exact and_iff_right fun _ => CleanerState.ofString_ends opener

/-- From an `ESC` outside strings and an opener on the text is that of the string. -/
theorem intact_string {self : AnsiCleaner} {opener : Char} {body rest : List Char}
    (hself : self.state.awaitsTerminator = false) (hopener : opener ∈ stringOpeners)
    (hbody : ∀ c ∈ body, endsBody opener c = false) :
    Intact self (esc :: opener :: (body ++ rest)) ↔ Intact ⟨.ofString opener, false⟩ rest := by
  have hsize : opener.utf8Size = 1 := by
    simp only [stringOpeners, List.mem_cons, List.not_mem_nil, or_false] at hopener
    rcases hopener with rfl | rfl | rfl | rfl | rfl <;> rfl
  rw [intact_esc hself, intact_cons_byte hsize, clean_char_opener hopener,
    intact_body hbody]

/-- At the `ESC` that ends a string a character of one byte must follow, if any. -/
theorem intact_terminator {opener c : Char} {pendingCr : Bool} {rest : List Char} :
    Intact ⟨.ofString opener, pendingCr⟩ (esc :: c :: rest) ↔
      c.utf8Size = 1 ∧ Intact ⟨.ground, pendingCr⟩ rest := by
  rw [intact_cons_byte rfl, clean_char_ofString_esc]
  constructor
  · intro h
    have hsize : c.utf8Size = 1 := by
      by_contra hlarge
      have hpositive := c.utf8Size_pos
      have hends := (intact_cons.mp h).1 (by omega)
      rw [CleanerState.ofTerminator_ends] at hends
      cases hends
    rw [intact_cons_byte hsize, clean_char_terminator hsize] at h
    exact ⟨hsize, h⟩
  · rintro ⟨hsize, h⟩
    rwa [intact_cons_byte hsize, clean_char_terminator hsize]

/-- In a whole text no multi-byte character arrives where one byte ends the state. -/
theorem intact_of_whole {chars : List Char} (h : Whole chars)
    {self : AnsiCleaner} (hself : self.state.isOutside = true) : Intact self chars := by
  induction h generalizing self with
  | nil => exact intact_nil self
  | char hc rest ih =>
    exact intact_cons.mpr ⟨fun _ => (CleanerState.isOutside_ends hself).1,
      ih (clean_char_outside hself hc)⟩
  | lone hnext rest ih =>
    rw [intact_esc (CleanerState.isOutside_ends hself).2]
    rcases hnext with rfl | hhead
    · exact intact_nil _
    · obtain ⟨text, rfl⟩ := List.head?_eq_some_iff.mp hhead
      rw [intact_esc rfl]
      exact (intact_esc rfl).mp (@ih ⟨.ground, false⟩ rfl)
  | sequence hsize hc hopener rest ih =>
    rw [intact_esc (CleanerState.isOutside_ends hself).2, intact_cons_byte hsize]
    exact ih (clean_char_sequence hsize hc hopener false)
  | unterminated hopener hbody htail =>
    rw [intact_string (CleanerState.isOutside_ends hself).2 hopener hbody]
    rcases htail with rfl | rfl
    · exact intact_nil _
    · rw [intact_cons_byte rfl]
      exact intact_nil _
  | bel hbody rest ih =>
    rw [intact_string (CleanerState.isOutside_ends hself).2 (by decide) hbody, intact_cons_byte rfl,
      clean_char_bel]
    exact ih rfl
  | terminated hopener hbody hsize rest ih =>
    rw [intact_string (CleanerState.isOutside_ends hself).2 hopener hbody, intact_terminator]
    exact ⟨hsize, ih rfl⟩

/-- The body of a string goes on to the end of the text, or ends somewhere. -/
theorem exists_body (opener : Char) (text : List Char) :
    ∃ body tail, text = body ++ tail ∧ (∀ c ∈ body, endsBody opener c = false) ∧
      (tail = [] ∨ ∃ c rest, tail = c :: rest ∧ endsBody opener c = true) := by
  induction text with
  | nil => exact ⟨[], [], rfl, fun c hc => (by cases hc), .inl rfl⟩
  | cons c text ih =>
    cases hc : endsBody opener c with
    | true => exact ⟨[], c :: text, rfl, fun d hd => (by cases hd), .inr ⟨c, text, rfl, hc⟩⟩
    | false =>
      obtain ⟨body, tail, rfl, hbody, htail⟩ := ih
      refine ⟨c :: body, tail, rfl, fun d hd => ?_, htail⟩
      rcases List.mem_cons.mp hd with rfl | hd
      · exact hc
      · exact hbody d hd

/-- A text in which no multi-byte character arrives where one byte ends the state is whole. -/
theorem whole_of_intact {self : AnsiCleaner} {chars : List Char}
    (hself : self.state.isOutside = true) (h : Intact self chars) : Whole chars := by
  induction hlength : chars.length using Nat.strongRecOn generalizing self chars with
  | _ n ih =>
    subst hlength
    have hawaits := (CleanerState.isOutside_ends hself).2
    have hground : ∀ {text : List Char} {pendingCr : Bool}, text.length < chars.length →
        Intact ⟨.ground, pendingCr⟩ text → Whole text :=
      fun hshorter htext => ih _ hshorter rfl htext rfl
    cases chars with
    | nil => exact .nil
    | cons c text =>
      by_cases hc : c = esc
      · subst hc
        cases text with
        | nil => exact .lone (.inl rfl) .nil
        | cons d text =>
          have hd := (intact_esc hawaits).mp h
          have hsize : d.utf8Size = 1 := by
            by_contra hlarge
            have hpositive := d.utf8Size_pos
            cases (intact_cons.mp hd).1 (by omega)
          by_cases hesc : d = esc
          · -- The second `ESC` starts anew.
            subst hesc
            have hsecond : Intact ⟨.ground, false⟩ (esc :: text) :=
              (intact_esc rfl).mpr ((intact_esc rfl).mp hd)
            exact .lone (.inr rfl) (hground (by simp) hsecond)
          · by_cases hopener : d ∈ stringOpeners
            · obtain ⟨body, tail, rfl, hbody, htail⟩ := exists_body d text
              have hstring := (intact_string hawaits hopener hbody).mp h
              rcases htail with rfl | ⟨e, rest, rfl, he⟩
              · exact .unterminated hopener hbody (.inl rfl)
              · simp only [endsBody, Bool.or_eq_true, Bool.and_eq_true, decide_eq_true_eq] at he
                rcases he with rfl | ⟨rfl, rfl⟩
                · cases rest with
                  | nil => exact .unterminated hopener hbody (.inr rfl)
                  | cons f rest =>
                    obtain ⟨hlast, hrest⟩ := intact_terminator.mp hstring
                    exact .terminated hopener hbody hlast
                      (hground (by simp only [List.length_cons, List.length_append]; omega) hrest)
                · rw [intact_cons_byte rfl, clean_char_bel] at hstring
                  exact .bel hbody
                    (hground (by simp only [List.length_cons, List.length_append]; omega) hstring)
            · rw [intact_cons_byte hsize] at hd
              have hshorter : text.length < (esc :: d :: text).length := by
                simp only [List.length_cons]
                omega
              exact .sequence hsize hesc hopener
                (ih _ hshorter (clean_char_sequence hsize hesc hopener false) hd rfl)
      · exact .char hc (ih _ (by simp) (clean_char_outside hself hc) (intact_cons.mp h).2 rfl)

/-- **Multi-byte characters.** However a text is cut into chunks, its clean output is
valid UTF-8 exactly when no multi-byte character directly follows an `ESC` that starts
a sequence or ends a string. -/
theorem cleanChunks_isUtf8 {chars : List Char} {chunks : List (List UInt8)}
    (hchunks : chunks.flatten = encode chars) :
    IsUtf8 (cleanChunks {} chunks).2 ↔ Whole chars := by
  rw [cleanChunks_eq_clean, hchunks, clean_isUtf8]
  exact ⟨whole_of_intact rfl, fun h => intact_of_whole h rfl⟩

/-- A title with an `é` in it, and the two bytes of another `é` in different chunks. -/
theorem cleanChunks_isUtf8_title :
    IsUtf8 (cleanChunks {} [[0x1b, 0x5d, 0xc3], [0xa9, 0x07, 0xc3], [0xa9]]).2 := by
  have htitle : Whole (esc :: ']' :: (['é'] ++ bel :: ['é'])) := by
    refine .bel (fun c hc => ?_) (.char (by decide) .nil)
    obtain rfl := List.mem_singleton.mp hc
    decide
  exact (cleanChunks_isUtf8 (by decide)).mpr htitle

/-- A lone `ESC` takes the first byte of the character after it. -/
theorem cleanChunks_isUtf8_lone_esc :
    encode ['\u001b', 'é'] = [0x1b, 0xc3, 0xa9] ∧
      (cleanChunks {} [[0x1b, 0xc3, 0xa9]]).2 = [0xa9] ∧ ¬IsUtf8 [0xa9] :=
  ⟨by decide, by decide, not_isUtf8_cons (by decide)⟩

end AnsiCleaner

end IgnibyteBridge
