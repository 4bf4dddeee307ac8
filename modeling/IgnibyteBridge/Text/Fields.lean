import IgnibyteBridge.Text.Decimal
import Mathlib.Algebra.Group.Nat.Defs

/-!
# Fields of a line

A line of fields is taken apart at its whitespace, and a field that holds a
number is read back. A line is also cut behind the last place of a character.
-/

namespace Text

/-- The characters with the property `White_Space`. -/
def isWhitespace (c : Char) : Bool :=
  (9 ≤ c.toNat && c.toNat ≤ 13) || c.toNat == 0x20 || c.toNat == 0x85 || c.toNat == 0xa0 ||
    c.toNat == 0x1680 || (0x2000 ≤ c.toNat && c.toNat ≤ 0x200a) || c.toNat == 0x2028 ||
    c.toNat == 0x2029 || c.toNat == 0x202f || c.toNat == 0x205f || c.toNat == 0x3000

/-- The nonempty parts between the whitespace of a text. -/
def splitWhitespace (text : List Char) : List (List Char) :=
  (text.splitOnP isWhitespace).filter fun field => !field.isEmpty

/-- What follows the last place of a character. -/
def afterLast (c : Char) : List Char → Option (List Char)
  | [] => none
  | d :: text =>
    match afterLast c text with
    | some rest => some rest
    | none => if d = c then some text else none

/-- The digits of a number, behind an optional plus sign. -/
def unsignedDigits : List Char → List Char
  | '+' :: digits => digits
  | digits => digits

/-- The number of 64 bits that a text of digits stands for. -/
def ofDigits? (digits : List Char) : Option ℕ :=
  if digits ≠ [] ∧ digits.all Char.isDigit ∧ Nat.ofDigitChars 10 digits 0 < 2 ^ 64 then
    some (Nat.ofDigitChars 10 digits 0)
  else none

/-- Read a number of 64 bits. -/
def parseU64 (field : List Char) : Option ℕ := ofDigits? (unsignedDigits field)

/-- A field is a text that whitespace cannot take apart. -/
def IsField (field : List Char) : Prop := field ≠ [] ∧ ∀ c ∈ field, isWhitespace c = false

instance (field : List Char) : Decidable (IsField field) :=
  decidable_of_iff (field ≠ [] ∧ field.all (fun c => !isWhitespace c) = true) (by simp [IsField])

/-- A field is one word. -/
theorem splitWhitespace_field {field : List Char} (h : IsField field) :
    splitWhitespace field = [field] := by
  have hfilled : field.isEmpty = false := by simpa using h.1
  rw [splitWhitespace, List.splitOnP_eq_singleton h.2]
  simp [hfilled]

/-- Whitespace between two texts keeps their fields apart. -/
theorem splitWhitespace_append (u v : List Char) {c : Char} (hc : isWhitespace c = true) :
    splitWhitespace (u ++ c :: v) = splitWhitespace u ++ splitWhitespace v := by
  rw [splitWhitespace, List.splitOnP_append_cons u v hc, List.filter_append]
  rfl

/-- White space before a text changes nothing. -/
theorem splitWhitespace_cons (v : List Char) {c : Char} (hc : isWhitespace c = true) :
    splitWhitespace (c :: v) = splitWhitespace v := by
  have h := splitWhitespace_append [] v hc
  simpa [splitWhitespace] using h

/-- Fields with a space before each and a newline behind all of them are read back. -/
theorem splitWhitespace_fields {fields : List (List Char)} (h : ∀ f ∈ fields, IsField f) :
    splitWhitespace (fields.flatMap (' ' :: ·) ++ ['\n']) = fields := by
  have hspace : isWhitespace ' ' = true := by decide
  have hnewline : isWhitespace '\n' = true := by decide
  induction fields with
  | nil => exact splitWhitespace_cons [] hnewline
  | cons f fields ih =>
    have hf := splitWhitespace_field (h f (by simp))
    have hrest := ih fun g hg => h g (List.mem_cons_of_mem _ hg)
    -- Another space or the newline ends the field.
    obtain ⟨c, rest, hc, hsplit⟩ : ∃ c rest, isWhitespace c = true ∧
        fields.flatMap (' ' :: ·) ++ ['\n'] = c :: rest := by
      cases fields with
      | nil => exact ⟨'\n', [], hnewline, rfl⟩
      | cons g fields => exact ⟨' ', _, hspace, rfl⟩
    rw [hsplit, splitWhitespace_cons rest hc] at hrest
    rw [List.flatMap_cons, List.append_assoc, hsplit, List.cons_append,
      splitWhitespace_cons _ hspace, splitWhitespace_append f rest hc, hf, hrest]
    rfl

/-- A text without the character is what follows its last place. -/
theorem afterLast_append (u : List Char) {c : Char} {v : List Char} (hv : c ∉ v) :
    afterLast c (u ++ c :: v) = some v := by
  have hnone : afterLast c v = none := by
    induction v with
    | nil => rfl
    | cons d v ih =>
      have hd : d ≠ c := fun h => hv (by simp [h])
      rw [afterLast, ih fun h => hv (List.mem_cons_of_mem _ h)]
      exact if_neg hd
  induction u with
  | nil =>
    rw [List.nil_append, afterLast, hnone]
    exact if_pos rfl
  | cons d u ih =>
    rw [List.cons_append, afterLast, ih]

/-- A decimal number of 64 bits is read back. -/
theorem parseU64_repr {n : ℕ} (hn : n < 2 ^ 64) : parseU64 n.repr.toList = some n := by
  have hdigits : ∀ c ∈ n.repr.toList, c.isDigit = true := fun c hc => isDigit_of_mem_repr hc
  have hvalue : Nat.ofDigitChars 10 n.repr.toList 0 = n := by
    rw [Nat.toList_repr, Nat.ofDigitChars_ten_toDigits]
  have hfilled : n.repr.toList ≠ [] := by
    rw [Nat.toList_repr]
    exact Nat.toDigits_ne_nil
  have hunsigned : unsignedDigits n.repr.toList = n.repr.toList := by
    cases hlist : n.repr.toList with
    | nil => rfl
    | cons c digits =>
      have hc : c.isDigit = true := hdigits c (by rw [hlist]; simp)
      unfold unsignedDigits
      split
      · next heq =>
        obtain ⟨rfl, -⟩ := List.cons.inj heq
        exact absurd hc (by decide)
      · rfl
  rw [parseU64, hunsigned, ofDigits?, hvalue, if_pos]
  exact ⟨hfilled, List.all_eq_true.mpr hdigits, hn⟩

end Text
