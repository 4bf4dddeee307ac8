import Mathlib.Data.List.Basic

/-!
# JSON texts

The grammar of RFC 8259: which texts denote which values. The white space between
tokens is a parameter, so that compact texts are texts with no white space.
-/

namespace Json

/-- The white space between tokens. -/
def isSpace (c : Char) : Bool := c = ' ' || c = '\t' || c = '\n' || c = '\r'

/-- A text of white space only. -/
def Blank (s : List Char) : Prop := ∀ c ∈ s, isSpace c = true

/-- No white space at all. -/
def Compact (s : List Char) : Prop := s = []

/-! ## Numbers -/

/-- How far a number has been read. -/
inductive NumberState where
  | start
  | minus
  | zero
  | integer
  | point
  | fraction
  | mark
  | sign
  | exponent

/-- The digits before a decimal point. -/
def NumberState.first (c : Char) : Option NumberState :=
  if c = '0' then some .zero else if c.isDigit then some .integer else none

/-- An exponent may follow. -/
def NumberState.afterInteger (c : Char) : Option NumberState :=
  if c = '.' then some .point else if c = 'e' ∨ c = 'E' then some .mark else none

/-- One more character of a number. -/
def NumberState.next : NumberState → Char → Option NumberState
  | .start, c => if c = '-' then some .minus else first c
  | .minus, c => first c
  | .zero, c => afterInteger c
  | .integer, c => if c.isDigit then some .integer else afterInteger c
  | .point, c => if c.isDigit then some .fraction else none
  | .fraction, c =>
    if c.isDigit then some .fraction else if c = 'e' ∨ c = 'E' then some .mark else none
  | .mark, c =>
    if c.isDigit then some .exponent else if c = '+' ∨ c = '-' then some .sign else none
  | .sign, c => if c.isDigit then some .exponent else none
  | .exponent, c => if c.isDigit then some .exponent else none

/-- A number may end here. -/
def NumberState.accepts : NumberState → Bool
  | .zero | .integer | .fraction | .exponent => true
  | _ => false

/-- The characters complete a number. -/
def NumberState.completes : NumberState → List Char → Bool
  | state, [] => state.accepts
  | state, c :: s =>
    match state.next c with
    | some state => state.completes s
    | none => false

/-- `number`. -/
def isNumber (s : List Char) : Bool := NumberState.start.completes s

/-- A number, as it is written. -/
def Number := { s : List Char // isNumber s = true }

/-- The characters that numbers are made of. -/
def isNumeric (c : Char) : Bool :=
  c.isDigit || c = '-' || c = '+' || c = '.' || c = 'e' || c = 'E'

/-- What goes on with a number is a numeric character. -/
theorem NumberState.isNumeric_of_next {state next : NumberState} {c : Char}
    (h : state.next c = some next) : isNumeric c = true := by
  by_contra hc
  have hdigit : c.isDigit = false := by simp_all [isNumeric]
  have hrest : c ≠ '-' ∧ c ≠ '+' ∧ c ≠ '.' ∧ c ≠ 'e' ∧ c ≠ 'E' := by simp_all [isNumeric]
  have hzero : c ≠ '0' := by
    rintro rfl
    exact absurd hdigit (by decide)
  cases state <;> simp [NumberState.next, first, afterInteger, hdigit, hrest, hzero] at h

/-- All characters of a number are numeric. -/
theorem NumberState.numeric {state : NumberState} {s : List Char}
    (h : state.completes s = true) : ∀ c ∈ s, isNumeric c = true := by
  induction s generalizing state with
  | nil => simp
  | cons c s ih =>
    unfold NumberState.completes at h
    cases hnext : state.next c with
    | none => simp [hnext] at h
    | some next =>
      rw [hnext] at h
      have hc := isNumeric_of_next hnext
      intro d hd
      rcases List.mem_cons.mp hd with rfl | hd
      · exact hc
      · exact ih h d hd

/-- A number is made of numeric characters. -/
theorem numeric_of_isNumber {s : List Char} (h : isNumber s = true) :
    ∀ c ∈ s, isNumeric c = true :=
  NumberState.numeric h

/-- A number is not empty. -/
theorem ne_nil_of_isNumber {s : List Char} (h : isNumber s = true) : s ≠ [] := by
  rintro rfl
  cases h

/-- Digits complete an integer. -/
theorem NumberState.completes_digits {s : List Char} (h : ∀ c ∈ s, c.isDigit = true) :
    NumberState.integer.completes s = true := by
  induction s with
  | nil => rfl
  | cons c s ih =>
    have hc : NumberState.integer.next c = some .integer := if_pos (h c List.mem_cons_self)
    rw [completes, hc]
    exact ih fun d hd => h d (List.mem_cons_of_mem c hd)

/-- A positive number has a first digit other than zero. -/
theorem toDigits_head {n : ℕ} (hn : 0 < n) : ∃ c s, Nat.toDigits 10 n = c :: s ∧ c ≠ '0' := by
  induction n using Nat.strongRecOn with
  | ind n ih =>
    by_cases hsmall : n < 10
    · have hdigit : ∀ m < 10, 0 < m → m.digitChar ≠ '0' := by decide
      exact ⟨_, [], Nat.toDigits_of_lt_base hsmall, hdigit n hsmall hn⟩
    · obtain ⟨c, s, hhead, hc⟩ := ih (n / 10) (by omega) (by omega)
      refine ⟨c, s ++ [(n % 10).digitChar], ?_, hc⟩
      rw [Nat.toDigits_of_base_le (by decide) (by omega), hhead]
      rfl

/-- The decimal digits of a natural number are a number. -/
theorem isNumber_toDigits (n : ℕ) : isNumber (Nat.toDigits 10 n) = true := by
  rcases Nat.eq_zero_or_pos n with rfl | hn
  · decide
  · obtain ⟨c, s, hdigits, hc⟩ := toDigits_head hn
    have hall : ∀ d ∈ Nat.toDigits 10 n, d.isDigit = true := fun d hd =>
      Nat.isDigit_of_mem_toDigits (by decide) (by decide) hd
    rw [hdigits] at hall ⊢
    have hdigit : c.isDigit = true := hall c List.mem_cons_self
    have hminus : c ≠ '-' := by
      rintro rfl
      exact absurd hdigit (by decide)
    have hfirst : NumberState.start.next c = some .integer := by
      simp [NumberState.next, NumberState.first, hminus, hc, hdigit]
    rw [isNumber, NumberState.completes, hfirst]
    exact NumberState.completes_digits fun d hd => hall d (List.mem_cons_of_mem c hd)

/-- A natural number. -/
def Number.ofNat (n : ℕ) : Number := ⟨Nat.toDigits 10 n, isNumber_toDigits n⟩

/-- The natural number that a number is, if it is written as one. -/
def Number.toNat? (n : Number) : Option ℕ :=
  if n.val.all Char.isDigit then some (Nat.ofDigitChars 10 n.val 0) else none

/-- A natural number is read back. -/
@[simp] theorem Number.toNat?_ofNat (n : ℕ) : (Number.ofNat n).toNat? = some n := by
  have hall : ((Number.ofNat n).val.all Char.isDigit) = true :=
    List.all_eq_true.mpr fun c hc => Nat.isDigit_of_mem_toDigits (by decide) (by decide) hc
  rw [toNat?, if_pos hall]
  exact congrArg some Nat.ofDigitChars_ten_toDigits

/-! ## Values and strings -/

/-- A JSON value, with the fields of an object in the order they are written. -/
inductive Value where
  | null
  | bool (b : Bool)
  | number (n : Number)
  | string (chars : List Char)
  | array (items : List Value)
  | object (fields : List (List Char × Value))

/-- The two-character escapes. -/
def escapes : List (Char × Char) :=
  [('"', '"'), ('\\', '\\'), ('/', '/'), ('b', '\x08'), ('f', '\x0c'), ('n', '\n'), ('r', '\r'),
    ('t', '\t')]

/-- `HEXDIG`, in either case. -/
def hexDigit (c : Char) : Option ℕ :=
  if c.isDigit then some (c.toNat - 48)
  else if 97 ≤ c.toNat ∧ c.toNat ≤ 102 then some (c.toNat - 87)
  else if 65 ≤ c.toNat ∧ c.toNat ≤ 70 then some (c.toNat - 55)
  else none

/-- The code unit that four digits stand for. -/
def codeUnit : List Char → Option ℕ
  | [a, b, c, d] => do
    let a ← hexDigit a
    let b ← hexDigit b
    let c ← hexDigit c
    let d ← hexDigit d
    some (a * 4096 + b * 256 + c * 16 + d)
  | _ => none

/-- The first half of a surrogate pair. -/
def isHigh (unit : ℕ) : Bool := 0xd800 ≤ unit && unit < 0xdc00

/-- The second half of a surrogate pair. -/
def isLow (unit : ℕ) : Bool := 0xdc00 ≤ unit && unit < 0xe000

/-- The character of a surrogate pair. -/
def paired (high low : ℕ) : Char := Char.ofNat (0x10000 + (high - 0xd800) * 0x400 + (low - 0xdc00))

/-- How a character of a string can be written. -/
inductive IsChar : Char → List Char → Prop where
  | plain {c : Char} (hcontrol : 0x20 ≤ c.toNat) (hquote : c ≠ '"') (hslash : c ≠ '\\') :
      IsChar c [c]
  | escape {e c : Char} (h : (e, c) ∈ escapes) : IsChar c ['\\', e]
  | unit {digits : List Char} {unit : ℕ} (h : codeUnit digits = some unit)
      (hhigh : isHigh unit = false) (hlow : isLow unit = false) :
      IsChar (Char.ofNat unit) ('\\' :: 'u' :: digits)
  | pair {digits digits' : List Char} {high low : ℕ} (h : codeUnit digits = some high)
      (h' : codeUnit digits' = some low) (hhigh : isHigh high = true) (hlow : isLow low = true) :
      IsChar (paired high low) ('\\' :: 'u' :: (digits ++ '\\' :: 'u' :: digits'))

/-- How the characters of a string can be written. -/
inductive IsChars : List Char → List Char → Prop where
  | nil : IsChars [] []
  | cons {c : Char} {chars s t : List Char} (hc : IsChar c s) (h : IsChars chars t) :
      IsChars (c :: chars) (s ++ t)

/-! ## The grammar -/

section Grammar

variable (gap : List Char → Prop)

mutual

/-- `value`. -/
inductive IsValue : Value → List Char → Prop where
  | null : IsValue .null ['n', 'u', 'l', 'l']
  | true : IsValue (.bool true) ['t', 'r', 'u', 'e']
  | false : IsValue (.bool false) ['f', 'a', 'l', 's', 'e']
  | number (n : Number) : IsValue (.number n) n.val
  | string {chars s : List Char} (h : IsChars chars s) :
      IsValue (.string chars) ('"' :: (s ++ ['"']))
  | emptyArray {s : List Char} (h : gap s) : IsValue (.array []) ('[' :: (s ++ [']']))
  | array {items : List Value} {s : List Char} (h : IsItems items s) :
      IsValue (.array items) ('[' :: (s ++ [']']))
  | emptyObject {s : List Char} (h : gap s) : IsValue (.object []) ('{' :: (s ++ ['}']))
  | object {fields : List (List Char × Value)} {s : List Char} (h : IsFields fields s) :
      IsValue (.object fields) ('{' :: (s ++ ['}']))

/-- A value with white space around it. -/
inductive IsElement : Value → List Char → Prop where
  | mk {v : Value} {before s after : List Char} (hbefore : gap before) (h : IsValue v s)
      (hafter : gap after) : IsElement v (before ++ (s ++ after))

/-- The values of an array. -/
inductive IsItems : List Value → List Char → Prop where
  | single {v : Value} {s : List Char} (h : IsElement v s) : IsItems [v] s
  | cons {v : Value} {items : List Value} {s t : List Char} (h : IsElement v s)
      (hrest : IsItems items t) : IsItems (v :: items) (s ++ ',' :: t)

/-- A field of an object. -/
inductive IsMember : List Char × Value → List Char → Prop where
  | mk {key : List Char} {v : Value} {before k after s : List Char} (hbefore : gap before)
      (hkey : IsChars key k) (hafter : gap after) (h : IsElement v s) :
      IsMember (key, v) (before ++ '"' :: (k ++ '"' :: (after ++ ':' :: s)))

/-- The fields of an object. -/
inductive IsFields : List (List Char × Value) → List Char → Prop where
  | single {field : List Char × Value} {s : List Char} (h : IsMember field s) : IsFields [field] s
  | cons {field : List Char × Value} {fields : List (List Char × Value)} {s t : List Char}
      (h : IsMember field s) (hrest : IsFields fields t) : IsFields (field :: fields) (s ++ ',' :: t)

end

end Grammar

/-- `JSON-text`. -/
abbrev IsText (v : Value) (s : List Char) : Prop := IsElement Blank v s

/-! ## Control characters -/

/-- No control characters. -/
def Printable (s : List Char) : Prop := ∀ c ∈ s, 0x20 ≤ c.toNat

/-- A text is printable when both of its parts are. -/
theorem Printable.append {s t : List Char} (hs : Printable s) (ht : Printable t) :
    Printable (s ++ t) := by
  intro c hc
  rcases List.mem_append.mp hc with hc | hc
  · exact hs c hc
  · exact ht c hc

/-- A text is printable when its first character and the others are. -/
theorem Printable.cons {c : Char} {s : List Char} (hc : 0x20 ≤ c.toNat) (hs : Printable s) :
    Printable (c :: s) := by
  intro d hd
  rcases List.mem_cons.mp hd with rfl | hd
  · exact hc
  · exact hs d hd

/-- The empty text is printable. -/
theorem printable_nil : Printable [] := by simp [Printable]

/-- A numeric character is printable. -/
theorem printable_numeric {c : Char} (h : isNumeric c = true) : 0x20 ≤ c.toNat := by
  by_contra hc
  have hsmall : c.toNat < 32 := by omega
  have hall : ∀ n < 32, isNumeric (Char.ofNat n) = false := by decide
  have hnumeric := hall c.toNat hsmall
  rw [Char.ofNat_toNat, h] at hnumeric
  cases hnumeric

/-- A digit of a code unit is printable. -/
theorem printable_hexDigit {c : Char} {n : ℕ} (h : hexDigit c = some n) : 0x20 ≤ c.toNat := by
  by_contra hc
  have hsmall : c.toNat < 32 := by omega
  have hall : ∀ n < 32, hexDigit (Char.ofNat n) = none := by decide
  have hnone := hall c.toNat hsmall
  rw [Char.ofNat_toNat, h] at hnone
  cases hnone

/-- A code unit is printable. -/
theorem printable_codeUnit {digits : List Char} {unit : ℕ} (h : codeUnit digits = some unit) :
    Printable digits := by
  unfold codeUnit at h
  split at h
  · simp only [Option.bind_eq_bind, Option.bind_eq_some_iff] at h
    obtain ⟨_, ha, _, hb, _, hc, _, hd, -⟩ := h
    exact .cons (printable_hexDigit ha) (.cons (printable_hexDigit hb)
      (.cons (printable_hexDigit hc) (.cons (printable_hexDigit hd) printable_nil)))
  · cases h

/-- A short escape is printable. -/
theorem printable_escape {e c : Char} (h : (e, c) ∈ escapes) : 0x20 ≤ e.toNat := by
  have hall : ∀ pair ∈ escapes, 0x20 ≤ pair.1.toNat := by decide
  exact hall (e, c) h

/-- Control characters of a string are written as escapes. -/
theorem IsChar.printable {c : Char} {s : List Char} (h : IsChar c s) : Printable s := by
  have hescape : ∀ {digits : List Char} {unit : ℕ}, codeUnit digits = some unit →
      Printable ('\\' :: 'u' :: digits) := fun h =>
    .cons (by decide) (.cons (by decide) (printable_codeUnit h))
  cases h with
  | plain hcontrol hquote hslash => exact .cons hcontrol printable_nil
  | escape h => exact .cons (by decide) (.cons (printable_escape h) printable_nil)
  | unit h hhigh hlow => exact hescape h
  | pair h h' hhigh hlow => exact (hescape h).append (hescape h')

/-- What denotes the characters of a string is printable. -/
theorem IsChars.printable {chars s : List Char} (h : IsChars chars s) : Printable s := by
  induction h with
  | nil => exact printable_nil
  | cons hc h ih => exact hc.printable.append ih

/-- Text between two printable characters. -/
theorem Printable.enclosed {c d : Char} {s : List Char} (hc : 0x20 ≤ c.toNat) (hs : Printable s)
    (hd : 0x20 ≤ d.toNat) : Printable (c :: (s ++ [d])) :=
  .cons hc (hs.append (.cons hd printable_nil))

/-- White space without line breaks is printable. -/
theorem Compact.printable {s : List Char} (h : Compact s) : Printable s := by
  rw [h]
  exact printable_nil

/-- A compact text holds no control characters. -/
theorem IsValue.printable {v : Value} {s : List Char} (h : IsValue Compact v s) :
    Printable s := by
  refine @IsValue.rec Compact (fun _ s _ => Printable s) (fun _ s _ => Printable s)
    (fun _ s _ => Printable s) (fun _ s _ => Printable s) (fun _ s _ => Printable s)
    ?null ?true ?false ?number ?string ?emptyArray ?array ?emptyObject ?object ?element
    ?lastItem ?items ?member ?lastField ?fields v s h
  case null => simp [Printable]
  case true => simp [Printable]
  case false => simp [Printable]
  case number => exact fun n c hc => printable_numeric (numeric_of_isNumber n.property c hc)
  case string => exact fun h => .enclosed (by decide) h.printable (by decide)
  case emptyArray => exact fun h => .enclosed (by decide) h.printable (by decide)
  case array => exact fun _ ih => .enclosed (by decide) ih (by decide)
  case emptyObject => exact fun h => .enclosed (by decide) h.printable (by decide)
  case object => exact fun _ ih => .enclosed (by decide) ih (by decide)
  case element =>
    exact fun hbefore _ hafter ih => hbefore.printable.append (ih.append hafter.printable)
  case lastItem => exact fun _ ih => ih
  case items => exact fun _ _ ih ihrest => ih.append (.cons (by decide) ihrest)
  case member =>
    intro key v before k after s hbefore hkey hafter _ ih
    have hcolon : Printable (after ++ ':' :: s) := hafter.printable.append (.cons (by decide) ih)
    have hquoted : Printable (k ++ '"' :: (after ++ ':' :: s)) :=
      hkey.printable.append (.cons (by decide) hcolon)
    exact hbefore.printable.append (.cons (by decide) hquoted)
  case lastField => exact fun _ ih => ih
  case fields => exact fun _ _ ih ihrest => ih.append (.cons (by decide) ihrest)

/-- Such white space is white space. -/
theorem Compact.blank {s : List Char} (h : Compact s) : Blank s := by
  rw [h]
  simp [Blank]

/-- A compact text may have had white space. -/
theorem IsValue.blank {v : Value} {s : List Char} (h : IsValue Compact v s) :
    IsValue Blank v s := by
  refine @IsValue.rec Compact (fun v s _ => IsValue Blank v s) (fun v s _ => IsElement Blank v s)
    (fun items s _ => IsItems Blank items s) (fun field s _ => IsMember Blank field s)
    (fun fields s _ => IsFields Blank fields s)
    .null .true .false (fun n => .number n) (fun h => .string h)
    (fun h => .emptyArray h.blank) (fun _ ih => .array ih) (fun h => .emptyObject h.blank)
    (fun _ ih => .object ih) (fun hbefore _ hafter ih => .mk hbefore.blank ih hafter.blank)
    (fun _ ih => .single ih) (fun _ _ ih ihrest => .cons ih ihrest)
    (fun hbefore hkey hafter _ ih => .mk hbefore.blank hkey hafter.blank ih)
    (fun _ ih => .single ih) (fun _ _ ih ihrest => .cons ih ihrest) v s h

end Json
