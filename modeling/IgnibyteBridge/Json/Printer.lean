import IgnibyteBridge.Json.Grammar

/-!
# Printing JSON values

The compact text of a value, with no more escapes than a string needs.
-/

namespace Json

/-- A digit of an escaped control character. -/
def hexChar (n : ℕ) : Char := if n < 10 then Char.ofNat (n + 48) else Char.ofNat (n + 87)

/-- The characters that are printed as a two-character escape. -/
def printedEscapes : List (Char × Char) :=
  [('"', '"'), ('\\', '\\'), ('\n', 'n'), ('\r', 'r'), ('\t', 't'), ('\x08', 'b'), ('\x0c', 'f')]

/-- A character of a string. -/
def printChar (c : Char) : List Char :=
  match printedEscapes.lookup c with
  | some e => ['\\', e]
  | none =>
    if c.toNat < 0x20 then
      ['\\', 'u', '0', '0', hexChar (c.toNat / 16), hexChar (c.toNat % 16)]
    else [c]

/-- A string between its quotes. -/
def printString (chars : List Char) : List Char := '"' :: (chars.flatMap printChar ++ ['"'])

mutual

/-- A value, without white space. -/
def print : Value → List Char
  | .null => ['n', 'u', 'l', 'l']
  | .bool true => ['t', 'r', 'u', 'e']
  | .bool false => ['f', 'a', 'l', 's', 'e']
  | .number n => n.val
  | .string chars => printString chars
  | .array [] => ['[', ']']
  | .array (v :: items) => '[' :: (print v ++ printItems items ++ [']'])
  | .object [] => ['{', '}']
  | .object ((key, v) :: fields) =>
    '{' :: ((printString key ++ ':' :: print v) ++ printFields fields ++ ['}'])

/-- The items of an array after the first one. -/
def printItems : List Value → List Char
  | [] => []
  | v :: items => ',' :: (print v ++ printItems items)

/-- The fields of an object after the first one. -/
def printFields : List (List Char × Value) → List Char
  | [] => []
  | (key, v) :: fields => ',' :: ((printString key ++ ':' :: print v) ++ printFields fields)

end

/-- A character is spelt as the grammar allows. -/
theorem isChar_printChar (c : Char) : IsChar c (printChar c) := by
  unfold printChar
  split
  · next e hlookup =>
    have hall : ∀ pair ∈ printedEscapes, (pair.2, pair.1) ∈ escapes := by decide
    obtain ⟨l₁, l₂, hsplit, -⟩ := List.lookup_eq_some_iff.mp hlookup
    have hmem : (c, e) ∈ printedEscapes := by simp [hsplit]
    exact .escape (hall _ hmem)
  · next hlookup =>
    split
    · next hcontrol =>
      have hall : ∀ n < 32, codeUnit ['0', '0', hexChar (n / 16), hexChar (n % 16)] = some n := by
        decide
      have hunit := hall c.toNat hcontrol
      have hhigh : isHigh c.toNat = false := by
        have : ¬0xd800 ≤ c.toNat := by omega
        simp [isHigh, this]
      have hlow : isLow c.toNat = false := by
        have : ¬0xdc00 ≤ c.toNat := by omega
        simp [isLow, this]
      have hchar := IsChar.unit hunit hhigh hlow
      rwa [Char.ofNat_toNat] at hchar
    · next hcontrol =>
      refine .plain (Nat.le_of_not_lt hcontrol) ?_ ?_
      · rintro rfl
        exact absurd hlookup (by decide)
      · rintro rfl
        exact absurd hlookup (by decide)

/-- The characters of a string are spelt as the grammar allows. -/
theorem isChars_flatMap (chars : List Char) : IsChars chars (chars.flatMap printChar) := by
  induction chars with
  | nil => exact .nil
  | cons c chars ih => exact .cons (isChar_printChar c) ih

/-- A value with no white space around it. -/
theorem IsValue.element {v : Value} {s : List Char} (h : IsValue Compact v s) :
    IsElement Compact v s := by
  have helement : IsElement Compact v ([] ++ (s ++ [])) := .mk rfl h rfl
  rwa [List.append_nil] at helement

/-- A key and the spelling of its value spell the member. -/
theorem isMember_print {key : List Char} {v : Value} {s : List Char} (h : IsValue Compact v s) :
    IsMember Compact (key, v) (printString key ++ ':' :: s) := by
  have hmember : IsMember Compact (key, v)
      ([] ++ '"' :: (key.flatMap printChar ++ '"' :: ([] ++ ':' :: s))) :=
    .mk rfl (isChars_flatMap key) rfl h.element
  simpa [printString] using hmember

/-- The empty text may stand between the tokens of a compact text. -/
theorem compact_nil : Compact [] := rfl

mutual

/-- What is printed denotes the value, without white space. -/
theorem isValue_print : ∀ v, IsValue Compact v (print v)
  | .null => .null
  | .bool true => .true
  | .bool false => .false
  | .number n => .number n
  | .string chars => .string (isChars_flatMap chars)
  | .array [] => .emptyArray compact_nil
  | .array (v :: items) => .array (isItems_print items (isValue_print v).element)
  | .object [] => .emptyObject compact_nil
  | .object ((_, v) :: fields) => .object (isFields_print fields (isMember_print (isValue_print v)))

/-- The printed items spell the items. -/
theorem isItems_print : ∀ (items : List Value) {v : Value} {s : List Char},
    IsElement Compact v s → IsItems Compact (v :: items) (s ++ printItems items)
  | [], _, s, h => by
    rw [printItems, List.append_nil]
    exact .single h
  | w :: items, _, _, h => .cons h (isItems_print items (isValue_print w).element)

/-- The printed fields spell the fields. -/
theorem isFields_print : ∀ (fields : List (List Char × Value)) {field : List Char × Value}
    {s : List Char}, IsMember Compact field s →
      IsFields Compact (field :: fields) (s ++ printFields fields)
  | [], _, s, h => by
    rw [printFields, List.append_nil]
    exact .single h
  | (_, v) :: fields, _, _, h =>
    .cons h (isFields_print fields (isMember_print (isValue_print v)))

end

example : print (.object [(['a'], .array [.null, .string ['\n']])]) =
    ['{', '"', 'a', '"', ':', '[', 'n', 'u', 'l', 'l', ',', '"', '\\', 'n', '"', ']', '}'] := by
  rfl

end Json
