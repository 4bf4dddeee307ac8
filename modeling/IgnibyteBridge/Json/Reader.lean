import IgnibyteBridge.Json.Grammar

/-!
# Reading JSON texts

An executable reader, exact for the grammar: it accepts what denotes a value and
nothing else. A value is read off the front of a text whatever follows it, so no
text of an object has another text as a strict prefix.
-/

namespace Json

/-- A text without the white space in front of it. -/
def skip (s : List Char) : List Char := s.dropWhile isSpace

/-- The rest of a literal name. -/
def readWord (word : List Char) (v : Value) (s : List Char) : Option (Value × List Char) :=
  if s.take word.length = word then some (v, s.drop word.length) else none

/-- The longest run of numeric characters, if it is a number. -/
def readNumber (s : List Char) : Option (Value × List Char) :=
  if h : isNumber (s.takeWhile isNumeric) = true then
    some (.number ⟨s.takeWhile isNumeric, h⟩, s.dropWhile isNumeric)
  else none

/-- An escape for one code unit, or for a surrogate pair, after `\u`. -/
def readUnit (s : List Char) : Option (Char × List Char) := do
  let unit ← codeUnit (s.take 4)
  if isHigh unit = true then
    if (s.drop 4).take 2 = ['\\', 'u'] then
      let low ← codeUnit ((s.drop 6).take 4)
      if isLow low = true then some (paired unit low, s.drop 10) else none
    else none
  else if isLow unit = true then none
  else some (Char.ofNat unit, s.drop 4)

/-- One character of a string. -/
def readChar : List Char → Option (Char × List Char)
  | [] => none
  | c :: s =>
    if c = '\\' then
      match s with
      | [] => none
      | e :: s => if e = 'u' then readUnit s else (escapes.lookup e).map fun c => (c, s)
    else if c = '"' ∨ c.toNat < 0x20 then none
    else some (c, s)

/-- The characters of a string, after its opening quote. -/
def readChars : ℕ → List Char → Option (List Char × List Char)
  | 0, _ => none
  | n + 1, s =>
    if s.head? = some '"' then some ([], s.tail)
    else
      match readChar s with
      | none => none
      | some (c, s) => (readChars n s).map fun (chars, s) => (c :: chars, s)

/-- The key of a field and the colon after it. -/
def readKey (n : ℕ) (s : List Char) : Option (List Char × List Char) :=
  if s.head? = some '"' then
    match readChars n s.tail with
    | none => none
    | some (key, s) => if (skip s).head? = some ':' then some (key, (skip s).tail) else none
  else none

/-- What follows an item of a list: more of them, or the end of it. -/
def readMore {α : Type} (close : Char) (more : List Char → Option (List α × List Char)) (x : α)
    (s : List Char) : Option (List α × List Char) :=
  if (skip s).head? = some ',' then (more (skip s).tail).map fun (xs, s) => (x :: xs, s)
  else if (skip s).head? = some close then some ([x], (skip s).tail)
  else none

mutual

/-- A value at the front of a text. -/
def readValue : ℕ → List Char → Option (Value × List Char)
  | 0, _ => none
  | _ + 1, [] => none
  | n + 1, c :: s =>
    if c = 'n' then readWord ['u', 'l', 'l'] .null s
    else if c = 't' then readWord ['r', 'u', 'e'] (.bool true) s
    else if c = 'f' then readWord ['a', 'l', 's', 'e'] (.bool false) s
    else if c = '"' then (readChars n s).map fun (chars, s) => (.string chars, s)
    else if c = '[' then
      if (skip s).head? = some ']' then some (.array [], (skip s).tail)
      else (readItems n s).map fun (items, s) => (.array items, s)
    else if c = '{' then
      if (skip s).head? = some '}' then some (.object [], (skip s).tail)
      else (readFields n s).map fun (fields, s) => (.object fields, s)
    else readNumber (c :: s)

/-- The items of an array, up to its end. -/
def readItems : ℕ → List Char → Option (List Value × List Char)
  | 0, _ => none
  | n + 1, s =>
    match readValue n (skip s) with
    | none => none
    | some (v, s) => readMore ']' (readItems n) v s

/-- The fields of an object, up to its end. -/
def readFields : ℕ → List Char → Option (List (List Char × Value) × List Char)
  | 0, _ => none
  | n + 1, s =>
    match readKey n (skip s) with
    | none => none
    | some (key, s) =>
      match readValue n (skip s) with
      | none => none
      | some (v, s) => readMore '}' (readFields n) (key, v) s

end

/-- A value with nothing but white space around it. -/
def read (s : List Char) : Option Value :=
  match readValue (s.length + 1) (skip s) with
  | none => none
  | some (v, s) => if (skip s).isEmpty then some v else none

/-! ## What denotes a value is read -/

section Complete

variable {s t w : List Char} {c : Char} {v : Value}

/-- White space is skipped. -/
theorem skip_append (h : Blank s) : skip (s ++ w) = skip w :=
  List.dropWhile_append_of_pos h

/-- Nothing else is. -/
theorem skip_cons (h : isSpace c = false) : skip (c :: s) = c :: s :=
  List.dropWhile_cons_of_neg (by simp [h])

/-- A number does not go on in a text. -/
def Ends (w : List Char) : Prop := ∀ c ∈ w.head?, isNumeric c = false

/-- A number goes as far as its characters. -/
theorem span_numeric (hs : ∀ c ∈ s, isNumeric c = true) (hw : Ends w) :
    (s ++ w).takeWhile isNumeric = s ∧ (s ++ w).dropWhile isNumeric = w := by
  rw [List.takeWhile_append_of_pos hs, List.dropWhile_append_of_pos hs]
  cases w with
  | nil => simp
  | cons c w =>
    have hc : isNumeric c = false := hw c rfl
    simp [hc]

/-- A number is read. -/
theorem readNumber_append (n : Number) (hw : Ends w) :
    readNumber (n.val ++ w) = some (.number n, w) := by
  obtain ⟨htake, hdrop⟩ := span_numeric (numeric_of_isNumber n.property) hw
  have hnumber : isNumber ((n.val ++ w).takeWhile isNumeric) = true := by
    rw [htake]
    exact n.property
  have hvalue : (⟨_, hnumber⟩ : Number) = n := Subtype.ext htake
  unfold readNumber
  rw [dif_pos hnumber, hdrop, hvalue]

/-- A code unit has four digits. -/
theorem length_of_codeUnit {unit : ℕ} (h : codeUnit s = some unit) : s.length = 4 := by
  unfold codeUnit at h
  split at h
  · rfl
  · cases h

/-- A code unit that is no surrogate is a character. -/
theorem readUnit_append {unit : ℕ} (h : codeUnit s = some unit) (hhigh : isHigh unit = false)
    (hlow : isLow unit = false) : readUnit (s ++ w) = some (Char.ofNat unit, w) := by
  have hlength := length_of_codeUnit h
  have htake : (s ++ w).take 4 = s := by rw [← hlength, List.take_left]
  have hdrop : (s ++ w).drop 4 = w := by rw [← hlength, List.drop_left]
  simp [readUnit, htake, hdrop, h, hhigh, hlow]

/-- A pair of surrogates is one character. -/
theorem readUnit_pair {high low : ℕ} (h : codeUnit s = some high) (h' : codeUnit t = some low)
    (hhigh : isHigh high = true) (hlow : isLow low = true) :
    readUnit (s ++ '\\' :: 'u' :: (t ++ w)) = some (paired high low, w) := by
  have hlength := length_of_codeUnit h
  have hlength' := length_of_codeUnit h'
  have htake : (s ++ '\\' :: 'u' :: (t ++ w)).take 4 = s := by rw [← hlength, List.take_left]
  have hdrop : (s ++ '\\' :: 'u' :: (t ++ w)).drop 4 = '\\' :: 'u' :: (t ++ w) := by
    rw [← hlength, List.drop_left]
  have hdrop' : (s ++ '\\' :: 'u' :: (t ++ w)).drop 6 = t ++ w := by
    rw [show 6 = 4 + 2 from rfl, ← List.drop_drop, hdrop]
    rfl
  have hdrop'' : (s ++ '\\' :: 'u' :: (t ++ w)).drop 10 = w := by
    rw [show 10 = 6 + 4 from rfl, ← List.drop_drop, hdrop', ← hlength', List.drop_left]
  have htake' : (t ++ w).take 4 = t := by rw [← hlength', List.take_left]
  simp [readUnit, htake, hdrop, hdrop', hdrop'', htake', h, h', hhigh, hlow]

/-- The short escapes are found in their table. -/
theorem lookup_escapes {e : Char} (h : (e, c) ∈ escapes) :
    e ≠ 'u' ∧ escapes.lookup e = some c := by
  simp only [escapes, List.mem_cons, Prod.mk.injEq, List.not_mem_nil, or_false] at h
  rcases h with ⟨rfl, rfl⟩ | ⟨rfl, rfl⟩ | ⟨rfl, rfl⟩ | ⟨rfl, rfl⟩ | ⟨rfl, rfl⟩ | ⟨rfl, rfl⟩ |
    ⟨rfl, rfl⟩ | ⟨rfl, rfl⟩ <;> decide

/-- A character of a string is read off the front of a text. -/
theorem readChar_append (h : IsChar c s) : readChar (s ++ w) = some (c, w) := by
  cases h with
  | plain hcontrol hquote hslash =>
    have hprintable : ¬(c = '"' ∨ c.toNat < 0x20) := by
      rintro (h | h)
      · exact hquote h
      · omega
    simp [readChar, hslash, hprintable]
  | escape h =>
    obtain ⟨hu, hlookup⟩ := lookup_escapes h
    simp [readChar, hu, hlookup]
  | unit h hhigh hlow =>
    have hunit := readUnit_append (w := w) h hhigh hlow
    simpa [readChar] using hunit
  | pair h h' hhigh hlow =>
    have hunit := readUnit_pair (w := w) h h' hhigh hlow
    simpa [readChar] using hunit

/-- A character of a string does not start with a quote. -/
theorem head_of_isChar (h : IsChar c s) : ∃ d u, s = d :: u ∧ d ≠ '"' := by
  cases h with
  | plain hcontrol hquote hslash => exact ⟨c, [], rfl, hquote⟩
  | escape h => exact ⟨_, _, rfl, by decide⟩
  | unit h hhigh hlow => exact ⟨_, _, rfl, by decide⟩
  | pair h h' hhigh hlow => exact ⟨_, _, rfl, by decide⟩

/-- A string is read to its closing quote. -/
theorem readChars_append {chars : List Char} (h : IsChars chars s) {n : ℕ} (hn : s.length < n) :
    readChars n (s ++ '"' :: w) = some (chars, w) := by
  induction h generalizing n with
  | nil =>
    obtain ⟨n, rfl⟩ := Nat.exists_eq_succ_of_ne_zero (Nat.ne_of_gt hn)
    rfl
  | @cons c chars s t hc h ih =>
    obtain ⟨n, rfl⟩ := Nat.exists_eq_succ_of_ne_zero (Nat.ne_of_gt (Nat.zero_lt_of_lt hn))
    obtain ⟨d, u, hhead, hquote⟩ := head_of_isChar hc
    have hlength : t.length < n := by
      rw [List.length_append, hhead, List.length_cons] at hn
      omega
    have hfirst : (s ++ t ++ '"' :: w).head? ≠ some '"' := by simp [hhead, hquote]
    have hchar : readChar (s ++ t ++ '"' :: w) = some (c, t ++ '"' :: w) := by
      rw [List.append_assoc]
      exact readChar_append hc
    rw [readChars, if_neg hfirst, hchar]
    simp [ih hlength]

/-- A number begins like no other value. -/
theorem not_special_of_numeric (h : isNumeric c = true) : isSpace c = false ∧ c ≠ ']' ∧ c ≠ 'n' ∧
    c ≠ 't' ∧ c ≠ 'f' ∧ c ≠ '"' ∧ c ≠ '[' ∧ c ≠ '{' := by
  refine ⟨?_, ?_, ?_, ?_, ?_, ?_, ?_, ?_⟩
  · cases hspace : isSpace c with
    | false => rfl
    | true =>
      simp only [isSpace, Bool.or_eq_true, decide_eq_true_eq] at hspace
      rcases hspace with ((rfl | rfl) | rfl) | rfl <;> exact absurd h (by decide)
  all_goals
    rintro rfl
    exact absurd h (by decide)

/-- White space does not continue a number. -/
theorem ends_append (hs : Blank s) (hw : Ends w) : Ends (s ++ w) := by
  cases s with
  | nil => exact hw
  | cons c s =>
    rintro d hd
    obtain rfl : c = d := Option.some.inj hd
    cases hnumeric : isNumeric c with
    | false => rfl
    | true =>
      have hspace := hs c List.mem_cons_self
      have hnot := (not_special_of_numeric hnumeric).1
      exact absurd hspace (by simp [hnot])

/-- A number ends before any other character. -/
theorem ends_cons (h : isNumeric c = false) : Ends (c :: w) := by
  rintro d hd
  obtain rfl : c = d := Option.some.inj hd
  exact h

/-- Values do not start with white space or a closing bracket. -/
theorem head_of_isValue {gap : List Char → Prop} (h : IsValue gap v s) :
    ∃ c u, s = c :: u ∧ isSpace c = false ∧ c ≠ ']' := by
  cases h with
  | number n =>
    have hne := ne_nil_of_isNumber n.property
    obtain ⟨c, u, hn⟩ := List.exists_cons_of_ne_nil hne
    have hc : isNumeric c = true := numeric_of_isNumber n.property c (by rw [hn]; simp)
    obtain ⟨hspace, hclose, -⟩ := not_special_of_numeric hc
    exact ⟨c, u, hn, hspace, hclose⟩
  | _ => exact ⟨_, _, rfl, by decide, by decide⟩

/-- What must not follow a value: more of a number. -/
def Follows : Value → List Char → Prop
  | .number _, w => Ends w
  | _, _ => True

/-- What ends a number may follow any value. -/
theorem Ends.follows (h : Ends w) : Follows v w := by
  cases v <;> first | exact h | trivial

/-- A list ends at its bracket. -/
theorem readMore_last {α : Type} {close : Char} {more : List Char → Option (List α × List Char)}
    {x : α} (hclose : close ≠ ',') (hs : skip s = close :: w) :
    readMore close more x s = some ([x], w) := by
  simp [readMore, hs, hclose]

/-- A list goes on after a comma. -/
theorem readMore_cons {α : Type} {close : Char} {more : List Char → Option (List α × List Char)}
    {x : α} (hs : skip s = ',' :: t) :
    readMore close more x s = (more t).map fun (xs, s) => (x :: xs, s) := by
  simp [readMore, hs]

/-- A number is what is left when no other value starts with the character. -/
theorem readValue_number {n : ℕ} (m : Number) (hw : Ends w) :
    readValue (n + 1) (m.val ++ w) = some (.number m, w) := by
  obtain ⟨c, u, hm⟩ := List.exists_cons_of_ne_nil (ne_nil_of_isNumber m.property)
  have hc : isNumeric c = true := numeric_of_isNumber m.property c (by simp [hm])
  obtain ⟨-, -, hn, ht, hf, hquote, hbracket, hbrace⟩ := not_special_of_numeric hc
  have hread : readValue (n + 1) (c :: (u ++ w)) = readNumber (c :: (u ++ w)) := by
    simp only [readValue, hn, ht, hf, hquote, hbracket, hbrace, if_false]
  rw [hm, List.cons_append, hread, ← List.cons_append, ← hm]
  exact readNumber_append m hw

/-- A key and its colon are read off the front of a text. -/
theorem readKey_append {key after : List Char} (hkey : IsChars key s) (hafter : Blank after) {n : ℕ}
    (hn : s.length < n) : readKey n ('"' :: (s ++ '"' :: (after ++ ':' :: w))) = some (key, w) := by
  have hskip : skip (after ++ ':' :: w) = ':' :: w := by
    rw [skip_append hafter]
    exact skip_cons (by decide)
  simp [readKey, readChars_append hkey hn, hskip]

/-- The items of an array do not start with the end of it. -/
theorem head_of_isItems {items : List Value} (h : IsItems Blank items s) :
    (skip (s ++ w)).head? ≠ some ']' := by
  have helement : ∀ {v : Value} {s w : List Char}, IsElement Blank v s →
      (skip (s ++ w)).head? ≠ some ']' := by
    rintro v _ w ⟨hbefore, h, hafter⟩
    obtain ⟨c, u, rfl, hspace, hclose⟩ := head_of_isValue h
    rw [List.append_assoc, skip_append hbefore, List.cons_append, List.cons_append, skip_cons hspace]
    simpa using hclose
  cases h with
  | single h => exact helement h
  | cons h hrest =>
    rw [List.append_assoc]
    exact helement h

/-- The fields of an object do not start with the end of it. -/
theorem head_of_isFields {fields : List (List Char × Value)} (h : IsFields Blank fields s) :
    (skip (s ++ w)).head? ≠ some '}' := by
  have hmember : ∀ {field : List Char × Value} {s w : List Char}, IsMember Blank field s →
      (skip (s ++ w)).head? ≠ some '}' := by
    rintro field _ w ⟨hbefore, hkey, hafter, h⟩
    rw [List.append_assoc, skip_append hbefore, List.cons_append, skip_cons (by decide)]
    simp
  cases h with
  | single h => exact hmember h
  | cons h hrest =>
    rw [List.append_assoc]
    exact hmember h

mutual

/-- A value is read off the front of a text. -/
theorem readValue_append {v : Value} {s w : List Char} (h : IsValue Blank v s) (hw : Follows v w)
    {n : ℕ} (hn : s.length < n) : readValue n (s ++ w) = some (v, w) := by
  obtain ⟨n, rfl⟩ := Nat.exists_eq_succ_of_ne_zero (Nat.ne_of_gt (Nat.zero_lt_of_lt hn))
  cases h with
  | null => simp [readValue, readWord]
  | true => simp [readValue, readWord]
  | false => simp [readValue, readWord]
  | number m => exact readValue_number m hw
  | @string chars s h =>
    have hchars := readChars_append (w := w) h (n := n) (by simp at hn; omega)
    simp [readValue, hchars]
  | @emptyArray s h =>
    have hskip : skip (s ++ ']' :: w) = ']' :: w := by
      rw [skip_append h]
      exact skip_cons (by decide)
    simp [readValue, hskip]
  | @array items s h =>
    have hopen := head_of_isItems h (w := ']' :: w)
    have hitems := readItems_append (w := w) h (n := n) (by simp at hn; omega)
    simp [readValue, hitems, hopen]
  | @emptyObject s h =>
    have hskip : skip (s ++ '}' :: w) = '}' :: w := by
      rw [skip_append h]
      exact skip_cons (by decide)
    simp [readValue, hskip]
  | @object fields s h =>
    have hopen := head_of_isFields h (w := '}' :: w)
    have hfields := readFields_append (w := w) h (n := n) (by simp at hn; omega)
    simp [readValue, hfields, hopen]

/-- A value is read with the white space around it. -/
theorem readElement_append {v : Value} {s w : List Char} (h : IsElement Blank v s) (hw : Ends w)
    {n : ℕ} (hn : s.length < n) :
    ∃ t, readValue n (skip (s ++ w)) = some (v, t) ∧ skip t = skip w := by
  cases h with
  | @mk v before s after hbefore h hafter =>
    obtain ⟨c, u, hhead, hspace, -⟩ := head_of_isValue h
    have hfollows : Follows v (after ++ w) := (ends_append hafter hw).follows
    have hlength : s.length < n := by
      simp only [List.length_append] at hn
      omega
    have hskip : skip (before ++ (s ++ after) ++ w) = s ++ (after ++ w) := by
      rw [List.append_assoc, skip_append hbefore, List.append_assoc, hhead, List.cons_append]
      exact skip_cons hspace
    refine ⟨after ++ w, ?_, skip_append hafter⟩
    rw [hskip]
    exact readValue_append h hfollows hlength

/-- The items of an array are read up to its end. -/
theorem readItems_append {items : List Value} {s w : List Char} (h : IsItems Blank items s) {n : ℕ}
    (hn : s.length + 1 < n) : readItems n (s ++ ']' :: w) = some (items, w) := by
  obtain ⟨n, rfl⟩ := Nat.exists_eq_succ_of_ne_zero (Nat.ne_of_gt (Nat.zero_lt_of_lt hn))
  cases h with
  | @single v s h =>
    have hw : Ends (']' :: w) := ends_cons (by decide)
    obtain ⟨t, hread, hskip⟩ := readElement_append h hw (n := n) (by omega)
    have hclose : skip t = ']' :: w := hskip.trans (skip_cons (by decide))
    simp only [readItems, hread]
    exact readMore_last (by decide) hclose
  | @cons v items s t h hrest =>
    simp only [List.length_append, List.length_cons] at hn
    have hw : Ends (',' :: (t ++ ']' :: w)) := ends_cons (by decide)
    obtain ⟨u, hread, hskip⟩ := readElement_append h hw (n := n) (by omega)
    have hcomma : skip u = ',' :: (t ++ ']' :: w) := hskip.trans (skip_cons (by decide))
    have hitems := readItems_append hrest (w := w) (n := n) (by omega)
    rw [List.append_assoc, List.cons_append]
    simp only [readItems, hread, readMore_cons hcomma, hitems]
    rfl

/-- A field is read with the white space around it. -/
theorem readMember_append {field : List Char × Value} {s w : List Char}
    (h : IsMember Blank field s) (hw : Ends w) {n : ℕ} (hn : s.length < n) :
    ∃ t u, readKey n (skip (s ++ w)) = some (field.1, t) ∧
      readValue n (skip t) = some (field.2, u) ∧ skip u = skip w := by
  cases h with
  | @mk key v before k after s hbefore hkey hafter h =>
    simp only [List.length_append, List.length_cons] at hn
    obtain ⟨u, hread, hskip⟩ := readElement_append h hw (n := n) (by omega)
    have hquote : skip (before ++ '"' :: (k ++ '"' :: (after ++ ':' :: s)) ++ w) =
        '"' :: (k ++ '"' :: (after ++ ':' :: (s ++ w))) := by
      rw [List.append_assoc, skip_append hbefore]
      simp [skip_cons (c := '"') (s := k ++ '"' :: (after ++ ':' :: (s ++ w))) (by decide)]
    refine ⟨s ++ w, u, ?_, hread, hskip⟩
    rw [hquote]
    exact readKey_append hkey hafter (by omega)

/-- The fields of an object are read up to its end. -/
theorem readFields_append {fields : List (List Char × Value)} {s w : List Char}
    (h : IsFields Blank fields s) {n : ℕ} (hn : s.length + 1 < n) :
    readFields n (s ++ '}' :: w) = some (fields, w) := by
  obtain ⟨n, rfl⟩ := Nat.exists_eq_succ_of_ne_zero (Nat.ne_of_gt (Nat.zero_lt_of_lt hn))
  cases h with
  | @single field s h =>
    have hw : Ends ('}' :: w) := ends_cons (by decide)
    obtain ⟨t, u, hkey, hread, hskip⟩ := readMember_append h hw (n := n) (by omega)
    have hclose : skip u = '}' :: w := hskip.trans (skip_cons (by decide))
    simp only [readFields, hkey, hread]
    exact readMore_last (by decide) hclose
  | @cons field fields s t h hrest =>
    simp only [List.length_append, List.length_cons] at hn
    have hw : Ends (',' :: (t ++ '}' :: w)) := ends_cons (by decide)
    obtain ⟨s', u, hkey, hread, hskip⟩ := readMember_append h hw (n := n) (by omega)
    have hcomma : skip u = ',' :: (t ++ '}' :: w) := hskip.trans (skip_cons (by decide))
    have hfields := readFields_append hrest (w := w) (n := n) (by omega)
    rw [List.append_assoc, List.cons_append]
    simp only [readFields, hkey, hread, readMore_cons hcomma, hfields]
    rfl

end

/-- A text that denotes a value is read as that value. -/
theorem read_of_isText (h : IsText v s) : read s = some v := by
  obtain ⟨hbefore, h, hafter⟩ := h
  rename_i before s after
  obtain ⟨c, u, hhead, hspace, -⟩ := head_of_isValue h
  have hskip : skip (before ++ (s ++ after)) = s ++ after := by
    rw [skip_append hbefore, hhead, List.cons_append]
    exact skip_cons hspace
  have hnil : Ends [] := by simp [Ends]
  have hfollows : Follows v after := by
    have hafter' := ends_append hafter hnil
    rw [List.append_nil] at hafter'
    exact hafter'.follows
  have hlength : s.length < (before ++ (s ++ after)).length + 1 := by
    simp only [List.length_append]
    omega
  have hread := readValue_append h hfollows hlength
  have hrest : skip after = [] := by
    have h := skip_append (w := []) hafter
    rwa [List.append_nil] at h
  simp only [read, hskip, hread, hrest, List.isEmpty_nil, if_true]

/-- A text denotes one value at most. -/
theorem IsText.unique {v' : Value} (h : IsText v s) (h' : IsText v' s) : v = v' := by
  have hread := read_of_isText h
  rw [read_of_isText h'] at hread
  exact (Option.some.inj hread).symm

/-- No strict prefix of an object is a text. -/
theorem not_isText_of_prefix {fields : List (List Char × Value)}
    (h : IsValue Blank (.object fields) s) {u : List Char} (hs : s = u ++ w) (hw : w ≠ []) :
    ¬IsText v u := by
  rintro ⟨hbefore, hvalue, hafter⟩
  rename_i before t after
  obtain ⟨c, t', ht, hspace, -⟩ := head_of_isValue hvalue
  have hbrace : ∃ s', s = '{' :: s' := by cases h <;> exact ⟨_, rfl⟩
  obtain ⟨s', hs'⟩ := hbrace
  -- Nothing stands before the opening brace.
  have hnone : before = [] := by
    cases before with
    | nil => rfl
    | cons d before =>
      have hd : d = '{' := by
        rw [hs', List.cons_append, List.cons_append] at hs
        exact (List.cons.inj hs).1.symm
      have hblank := hbefore d List.mem_cons_self
      rw [hd] at hblank
      exact absurd hblank (by decide)
  subst hnone
  have hc : c = '{' := by
    rw [hs', ht] at hs
    exact (List.cons.inj hs).1.symm
  have hfollows : Follows v (after ++ w) := by
    cases hvalue with
    | number n =>
      have hnumeric := numeric_of_isNumber n.property c (by simp [ht])
      rw [hc] at hnumeric
      exact absurd hnumeric (by decide)
    | _ => trivial
  have hall : s = t ++ (after ++ w) := by
    rw [hs]
    simp
  have hlength : t.length < s.length + 1 := by
    rw [hall, List.length_append]
    omega
  have hread := readValue_append hvalue hfollows hlength
  have hread' := readValue_append (w := []) h trivial (Nat.lt_succ_self s.length)
  rw [← hall] at hread
  rw [List.append_nil, hread] at hread'
  have hrest : after ++ w = [] := (Prod.mk.inj (Option.some.inj hread')).2
  exact hw (List.append_eq_nil_iff.mp hrest).2

end Complete

/-! ## What is read denotes a value -/

section Sound

variable {s w : List Char} {c : Char} {v : Value} {n : ℕ}

/-- What is skipped is white space. -/
theorem exists_skip (s : List Char) : ∃ before, Blank before ∧ s = before ++ skip s := by
  refine ⟨s.takeWhile isSpace, fun c hc => ?_, List.takeWhile_append_dropWhile.symm⟩
  exact List.all_eq_true.mp List.all_takeWhile c hc

/-- A text is its first character and the others. -/
theorem eq_cons_of_head (h : s.head? = some c) : s = c :: s.tail := by
  cases s with
  | nil => cases h
  | cons d s =>
    obtain rfl : d = c := Option.some.inj h
    rfl

/-- A character that was read from code units is denoted by them. -/
theorem readUnit_sound (h : readUnit s = some (c, w)) :
    ∃ t, IsChar c ('\\' :: 'u' :: t) ∧ s = t ++ w := by
  unfold readUnit at h
  simp only [Option.bind_eq_bind, Option.bind_eq_some_iff] at h
  obtain ⟨unit, hunit, h⟩ := h
  have hfirst : s = s.take 4 ++ s.drop 4 := (List.take_append_drop 4 s).symm
  split at h
  · next hhigh =>
    split at h
    · next hpair =>
      simp only [Option.bind_eq_some_iff] at h
      obtain ⟨low, hlow, h⟩ := h
      split at h
      · next hislow =>
        obtain ⟨rfl, rfl⟩ := Prod.mk.inj (Option.some.inj h)
        refine ⟨_, .pair hunit hlow hhigh hislow, ?_⟩
        have hsecond : s.drop 4 = '\\' :: 'u' :: s.drop 6 := by
          have hdrop := (List.take_append_drop 2 (s.drop 4)).symm
          rw [hpair, List.drop_drop] at hdrop
          exact hdrop
        have hthird : s.drop 6 = (s.drop 6).take 4 ++ s.drop 10 := by
          have hdrop := (List.take_append_drop 4 (s.drop 6)).symm
          rw [List.drop_drop] at hdrop
          exact hdrop
        rw [List.append_assoc, List.cons_append, List.cons_append, ← hthird, ← hsecond]
        exact hfirst
      · cases h
    · cases h
  · next hhigh =>
    split at h
    · cases h
    · next hlow =>
      obtain ⟨rfl, rfl⟩ := Prod.mk.inj (Option.some.inj h)
      exact ⟨_, .unit hunit (Bool.eq_false_iff.mpr hhigh) (Bool.eq_false_iff.mpr hlow), hfirst⟩

/-- What is found in the table of escapes is in it. -/
theorem mem_of_lookup {e : Char} (h : escapes.lookup e = some c) : (e, c) ∈ escapes := by
  obtain ⟨l₁, l₂, heq, -⟩ := List.lookup_eq_some_iff.mp h
  rw [heq]
  simp

/-- A character that was read is denoted by what was read. -/
theorem readChar_sound (h : readChar s = some (c, w)) : ∃ t, IsChar c t ∧ s = t ++ w := by
  unfold readChar at h
  split at h
  · cases h
  · next d s =>
    split at h
    · next hslash =>
      subst hslash
      split at h
      · cases h
      · next e s =>
        split at h
        · next hu =>
          subst hu
          obtain ⟨t, ht, rfl⟩ := readUnit_sound h
          exact ⟨_, ht, rfl⟩
        · obtain ⟨d, hlookup, heq⟩ := Option.map_eq_some_iff.mp h
          obtain ⟨rfl, rfl⟩ := Prod.mk.inj heq
          exact ⟨_, .escape (mem_of_lookup hlookup), rfl⟩
    · next hslash =>
      split at h
      · cases h
      · next hplain =>
        obtain ⟨rfl, rfl⟩ := Prod.mk.inj (Option.some.inj h)
        have hquote : d ≠ '"' := fun h => hplain (.inl h)
        have hcontrol : 0x20 ≤ d.toNat := Nat.le_of_not_lt fun h => hplain (.inr h)
        exact ⟨[d], .plain hcontrol hquote hslash, rfl⟩

/-- Characters that were read are denoted by what was read. -/
theorem readChars_sound {chars : List Char} (h : readChars n s = some (chars, w)) :
    ∃ t, IsChars chars t ∧ s = t ++ '"' :: w := by
  induction n generalizing s chars with
  | zero => cases h
  | succ n ih =>
    unfold readChars at h
    split at h
    · next hquote =>
      obtain ⟨rfl, rfl⟩ := Prod.mk.inj (Option.some.inj h)
      exact ⟨[], .nil, eq_cons_of_head hquote⟩
    · split at h
      · cases h
      · next c u hchar =>
        obtain ⟨⟨cs, w'⟩, hrest, heq⟩ := Option.map_eq_some_iff.mp h
        obtain ⟨rfl, rfl⟩ := Prod.mk.inj heq
        obtain ⟨t, ht, rfl⟩ := readChar_sound hchar
        obtain ⟨t', ht', rfl⟩ := ih hrest
        exact ⟨t ++ t', .cons ht ht', (List.append_assoc ..).symm⟩

/-- A key that was read with its colon is denoted by what was read. -/
theorem readKey_sound {key : List Char} (h : readKey n s = some (key, w)) :
    ∃ k after, IsChars key k ∧ Blank after ∧ s = '"' :: (k ++ '"' :: (after ++ ':' :: w)) := by
  unfold readKey at h
  split at h
  · next hquote =>
    split at h
    · cases h
    · next chars u hchars =>
      split at h
      · next hcolon =>
        obtain ⟨rfl, rfl⟩ := Prod.mk.inj (Option.some.inj h)
        obtain ⟨k, hk, htail⟩ := readChars_sound hchars
        obtain ⟨after, hafter, hu⟩ := exists_skip u
        refine ⟨k, after, hk, hafter, ?_⟩
        rw [← eq_cons_of_head hcolon, ← hu, ← htail]
        exact eq_cons_of_head hquote
      · cases h
  · cases h

/-- After an item the list goes on, or it ends. -/
theorem readMore_sound {α : Type} {close : Char} {more : List Char → Option (List α × List Char)}
    {x : α} {xs : List α} (h : readMore close more x s = some (xs, w)) :
    ∃ after, Blank after ∧ (s = after ++ close :: w ∧ xs = [x] ∨
      ∃ t ys, s = after ++ ',' :: t ∧ more t = some (ys, w) ∧ xs = x :: ys) := by
  obtain ⟨after, hafter, hs⟩ := exists_skip s
  refine ⟨after, hafter, ?_⟩
  unfold readMore at h
  split at h
  · next hcomma =>
    obtain ⟨⟨ys, w'⟩, hmore, heq⟩ := Option.map_eq_some_iff.mp h
    obtain ⟨rfl, rfl⟩ := Prod.mk.inj heq
    refine .inr ⟨(skip s).tail, ys, ?_, hmore, rfl⟩
    rw [← eq_cons_of_head hcomma]
    exact hs
  · split at h
    · next hclose =>
      obtain ⟨rfl, rfl⟩ := Prod.mk.inj (Option.some.inj h)
      refine .inl ⟨?_, rfl⟩
      rw [← eq_cons_of_head hclose]
      exact hs
    · cases h

/-- A number that was read is denoted by what was read. -/
theorem readNumber_sound (h : readNumber s = some (v, w)) :
    ∃ t, IsValue Blank v t ∧ s = t ++ w := by
  unfold readNumber at h
  split at h
  · next hnumber =>
    obtain ⟨rfl, rfl⟩ := Prod.mk.inj (Option.some.inj h)
    exact ⟨_, .number _, List.takeWhile_append_dropWhile.symm⟩
  · cases h

/-- A word that was read is denoted by what was read. -/
theorem readWord_sound {word : List Char} {u : Value} (h : readWord word u s = some (v, w)) :
    v = u ∧ s = word ++ w := by
  unfold readWord at h
  split at h
  · next htake =>
    obtain ⟨rfl, rfl⟩ := Prod.mk.inj (Option.some.inj h)
    refine ⟨rfl, ?_⟩
    have hall := (List.take_append_drop word.length s).symm
    rwa [htake] at hall
  · cases h

/-- What is read off the front of a text, with this much fuel, denotes the result. -/
structure Reads (n : ℕ) : Prop where
  value : ∀ {v : Value} {s w : List Char}, readValue n s = some (v, w) →
    ∃ t, IsValue Blank v t ∧ s = t ++ w
  items : ∀ {items : List Value} {s w : List Char}, readItems n s = some (items, w) →
    ∃ t, IsItems Blank items t ∧ s = t ++ ']' :: w
  fields : ∀ {fields : List (List Char × Value)} {s w : List Char},
    readFields n s = some (fields, w) → ∃ t, IsFields Blank fields t ∧ s = t ++ '}' :: w

/-- An array or an object: nothing between its brackets, or the list that was read. -/
theorem readList_sound {α : Type} {close : Char} {list : List α → Value} {s w : List Char}
    {result : Option (List α × List Char)}
    (h : (if (skip s).head? = some close then some (list [], (skip s).tail)
      else result.map fun (xs, s) => (list xs, s)) = some (v, w)) :
    (∃ t, Blank t ∧ v = list [] ∧ s = t ++ close :: w) ∨
      ∃ xs, v = list xs ∧ result = some (xs, w) := by
  split at h
  · next hclose =>
    obtain ⟨rfl, rfl⟩ := Prod.mk.inj (Option.some.inj h)
    obtain ⟨t, ht, hs⟩ := exists_skip s
    refine .inl ⟨t, ht, rfl, ?_⟩
    rw [← eq_cons_of_head hclose]
    exact hs
  · obtain ⟨⟨xs, w'⟩, hresult, heq⟩ := Option.map_eq_some_iff.mp h
    obtain ⟨rfl, rfl⟩ := Prod.mk.inj heq
    exact .inr ⟨xs, rfl, hresult⟩

/-- What is read of a value denotes it, if that holds of its parts. -/
theorem Reads.value_succ (h : Reads n) (hread : readValue (n + 1) s = some (v, w)) :
    ∃ t, IsValue Blank v t ∧ s = t ++ w := by
  cases s with
  | nil => cases hread
  | cons c s =>
    unfold readValue at hread
    split at hread
    · next hc =>
      obtain ⟨rfl, rfl⟩ := readWord_sound hread
      exact ⟨_, .null, by rw [hc]; rfl⟩
    split at hread
    · next hc =>
      obtain ⟨rfl, rfl⟩ := readWord_sound hread
      exact ⟨_, .true, by rw [hc]; rfl⟩
    split at hread
    · next hc =>
      obtain ⟨rfl, rfl⟩ := readWord_sound hread
      exact ⟨_, .false, by rw [hc]; rfl⟩
    split at hread
    · next hc =>
      obtain ⟨⟨chars, w'⟩, hchars, heq⟩ := Option.map_eq_some_iff.mp hread
      obtain ⟨rfl, rfl⟩ := Prod.mk.inj heq
      obtain ⟨t, ht, rfl⟩ := readChars_sound hchars
      exact ⟨_, .string ht, by simp [hc]⟩
    split at hread
    · next hc =>
      rcases readList_sound hread with ⟨t, ht, rfl, rfl⟩ | ⟨items, rfl, hitems⟩
      · exact ⟨_, .emptyArray ht, by simp [hc]⟩
      · obtain ⟨t, ht, rfl⟩ := h.items hitems
        exact ⟨_, .array ht, by simp [hc]⟩
    split at hread
    · next hc =>
      rcases readList_sound hread with ⟨t, ht, rfl, rfl⟩ | ⟨fields, rfl, hfields⟩
      · exact ⟨_, .emptyObject ht, by simp [hc]⟩
      · obtain ⟨t, ht, rfl⟩ := h.fields hfields
        exact ⟨_, .object ht, by simp [hc]⟩
    exact readNumber_sound hread

/-- The same of the items of an array. -/
theorem Reads.items_succ (h : Reads n) {items : List Value}
    (hread : readItems (n + 1) s = some (items, w)) :
    ∃ t, IsItems Blank items t ∧ s = t ++ ']' :: w := by
  unfold readItems at hread
  obtain ⟨before, hbefore, hs⟩ := exists_skip s
  split at hread
  · cases hread
  · next v u hvalue =>
    obtain ⟨t, ht, hskip⟩ := h.value hvalue
    obtain ⟨after, hafter, ⟨rfl, rfl⟩ | ⟨u', vs, rfl, hmore, rfl⟩⟩ := readMore_sound hread
    · refine ⟨_, .single (.mk hbefore ht hafter), ?_⟩
      rw [hs, hskip]
      simp
    · obtain ⟨t', ht', rfl⟩ := h.items hmore
      refine ⟨_, .cons (.mk hbefore ht hafter) ht', ?_⟩
      rw [hs, hskip]
      simp

/-- The same of the fields of an object. -/
theorem Reads.fields_succ (h : Reads n) {fields : List (List Char × Value)}
    (hread : readFields (n + 1) s = some (fields, w)) :
    ∃ t, IsFields Blank fields t ∧ s = t ++ '}' :: w := by
  unfold readFields at hread
  obtain ⟨before, hbefore, hs⟩ := exists_skip s
  split at hread
  · cases hread
  · next key u hkey =>
    obtain ⟨k, middle, hk, hmiddle, hskip⟩ := readKey_sound hkey
    obtain ⟨before', hbefore', hu⟩ := exists_skip u
    split at hread
    · cases hread
    · next v u' hvalue =>
      obtain ⟨t, ht, hskip'⟩ := h.value hvalue
      have hall : s = before ++ '"' :: (k ++ '"' :: (middle ++ ':' :: (before' ++ (t ++ u')))) := by
        rw [← hskip', ← hu, ← hskip]
        exact hs
      obtain ⟨after, hafter, ⟨rfl, rfl⟩ | ⟨u'', fs, rfl, hmore, rfl⟩⟩ := readMore_sound hread
      · refine ⟨_, .single (.mk hbefore hk hmiddle (.mk hbefore' ht hafter)), ?_⟩
        rw [hall]
        simp
      · obtain ⟨t', ht', rfl⟩ := h.fields hmore
        refine ⟨_, .cons (.mk hbefore hk hmiddle (.mk hbefore' ht hafter)) ht', ?_⟩
        rw [hall]
        simp

/-- Reading is sound at every depth. -/
theorem reads (n : ℕ) : Reads n := by
  induction n with
  | zero => exact ⟨nofun, nofun, nofun⟩
  | succ n ih => exact ⟨ih.value_succ, ih.items_succ, ih.fields_succ⟩

/-- A text that is read denotes the value that it is read as. -/
theorem isText_of_read (h : read s = some v) : IsText v s := by
  unfold read at h
  split at h
  · cases h
  · next u rest hvalue =>
    split at h
    · next hempty =>
      obtain rfl : u = v := Option.some.inj h
      obtain ⟨before, hbefore, hs⟩ := exists_skip s
      obtain ⟨t, ht, hskip⟩ := (reads _).value hvalue
      obtain ⟨after, hafter, hrest⟩ := exists_skip rest
      rw [List.isEmpty_iff.mp hempty, List.append_nil] at hrest
      rw [hs, hskip, hrest]
      exact .mk hbefore ht hafter
    · cases h

/-- The reader is exact. -/
theorem read_eq_some_iff : read s = some v ↔ IsText v s :=
  ⟨isText_of_read, read_of_isText⟩

example : read ['{', '"', 'a', '"', ' ', ':', '[', '1', ',', ' ', '2', ']', '}', '\n'] =
    some (.object [(['a'], .array [.number ⟨['1'], rfl⟩, .number ⟨['2'], rfl⟩])]) := by
  rfl

end Sound

end Json
