import IgnibyteBridge.Json.Printer

/-!
# Printing JSON values on indented lines

Every item of a nonempty array or object is on a line of its own, indented by two
spaces for each level. Only white space distinguishes this text from the compact one.
-/

namespace Json

/-- The end of a line, and the indentation of the next one. -/
def newLine (depth : ℕ) : List Char := '\n' :: List.replicate (2 * depth) ' '

mutual

/-- A value at some depth. -/
def pretty (depth : ℕ) : Value → List Char
  | .array [] => ['[', ']']
  | .array (v :: items) =>
    '[' :: (newLine (depth + 1) ++ pretty (depth + 1) v ++ prettyItems (depth + 1) items ++
      newLine depth ++ [']'])
  | .object [] => ['{', '}']
  | .object ((key, v) :: fields) =>
    '{' :: (newLine (depth + 1) ++ (printString key ++ [':', ' '] ++ pretty (depth + 1) v) ++
      prettyFields (depth + 1) fields ++ newLine depth ++ ['}'])
  | .null => print .null
  | .bool b => print (.bool b)
  | .number n => print (.number n)
  | .string chars => print (.string chars)

/-- The items of an array after the first one. -/
def prettyItems (depth : ℕ) : List Value → List Char
  | [] => []
  | v :: items => ',' :: (newLine depth ++ pretty depth v ++ prettyItems depth items)

/-- The fields of an object after the first one. -/
def prettyFields (depth : ℕ) : List (List Char × Value) → List Char
  | [] => []
  | (key, v) :: fields =>
    ',' :: (newLine depth ++ (printString key ++ [':', ' '] ++ pretty depth v) ++
      prettyFields depth fields)

end

/-- A line break with its indentation is white space. -/
theorem blank_newLine (depth : ℕ) : Blank (newLine depth) := by
  intro c hc
  rcases List.mem_cons.mp hc with rfl | hc
  · decide
  · rw [List.eq_of_mem_replicate hc]
    decide

/-- White space after white space is white space. -/
theorem Blank.append {s t : List Char} (hs : Blank s) (ht : Blank t) : Blank (s ++ t) := by
  intro c hc
  rcases List.mem_append.mp hc with hc | hc
  · exact hs c hc
  · exact ht c hc

/-- The empty text is white space. -/
theorem blank_nil : Blank [] := by simp [Blank]

/-! ## White space around the parts of a text -/

section Around

variable {v : Value} {field : List Char × Value} {items : List Value}
  {fields : List (List Char × Value)} {s before after : List Char}

/-- An element stays one between white space. -/
theorem IsElement.around (h : IsElement Blank v s) (hbefore : Blank before) (hafter : Blank after) :
    IsElement Blank v (before ++ s ++ after) := by
  cases h with
  | @mk _ first s last hfirst hvalue hlast =>
    have helement := IsElement.mk (hbefore.append hfirst) hvalue (hlast.append hafter)
    simpa using helement

/-- A member stays one between white space. -/
theorem IsMember.around (h : IsMember Blank field s) (hbefore : Blank before)
    (hafter : Blank after) : IsMember Blank field (before ++ s ++ after) := by
  cases h with
  | @mk key v first k middle s hfirst hkey hmiddle helement =>
    have hmember := IsMember.mk (hbefore.append hfirst) hkey hmiddle
      (helement.around blank_nil hafter)
    simpa using hmember

/-- White space may follow the last item. -/
theorem IsItems.endedBy (h : IsItems Blank items s) (hafter : Blank after) :
    IsItems Blank items (s ++ after) := by
  induction items generalizing s with
  | nil => cases h
  | cons v items ih =>
    cases h with
    | single helement => exact .single (by simpa using helement.around blank_nil hafter)
    | @cons _ _ first rest helement hrest =>
      have hitems := IsItems.cons helement (ih hrest)
      simpa using hitems

/-- White space may follow the last field. -/
theorem IsFields.endedBy (h : IsFields Blank fields s) (hafter : Blank after) :
    IsFields Blank fields (s ++ after) := by
  induction fields generalizing s with
  | nil => cases h
  | cons field fields ih =>
    cases h with
    | single hmember => exact .single (by simpa using hmember.around blank_nil hafter)
    | @cons _ _ first rest hmember hrest =>
      have hfields := IsFields.cons hmember (ih hrest)
      simpa using hfields

/-- A field as it is printed: one space follows the colon. -/
theorem isMember_pretty (key : List Char) (h : IsValue Blank v s) :
    IsMember Blank (key, v) (printString key ++ [':', ' '] ++ s) := by
  have hspace : Blank [' '] := by simp [Blank, isSpace]
  have hmember := IsMember.mk blank_nil (isChars_flatMap key) blank_nil
    (IsElement.mk hspace h blank_nil)
  simpa [printString] using hmember

end Around

mutual

/-- What is printed on indented lines denotes the value. -/
theorem isValue_pretty (depth : ℕ) : ∀ v, IsValue Blank v (pretty depth v)
  | .null => (isValue_print .null).blank
  | .bool b => (isValue_print (.bool b)).blank
  | .number n => (isValue_print (.number n)).blank
  | .string chars => (isValue_print (.string chars)).blank
  | .array [] => .emptyArray blank_nil
  | .array (v :: items) => by
    have hfirst := (IsElement.mk blank_nil (isValue_pretty (depth + 1) v) blank_nil).around
      (blank_newLine (depth + 1)) blank_nil
    have hitems := (isItems_pretty (depth + 1) items hfirst).endedBy (blank_newLine depth)
    simpa [pretty] using IsValue.array hitems
  | .object [] => .emptyObject blank_nil
  | .object ((key, v) :: fields) => by
    have hfirst := (isMember_pretty key (isValue_pretty (depth + 1) v)).around
      (blank_newLine (depth + 1)) blank_nil
    have hfields := (isFields_pretty (depth + 1) fields hfirst).endedBy (blank_newLine depth)
    simpa [pretty] using IsValue.object hfields

/-- The items of an array, one on each line, spell the array's items. -/
theorem isItems_pretty (depth : ℕ) : ∀ (items : List Value) {v : Value} {s : List Char},
    IsElement Blank v s → IsItems Blank (v :: items) (s ++ prettyItems depth items)
  | [], _, s, h => by
    rw [prettyItems, List.append_nil]
    exact .single h
  | w :: items, _, _, h => by
    have hnext := (IsElement.mk blank_nil (isValue_pretty depth w) blank_nil).around
      (blank_newLine depth) blank_nil
    have hitems := IsItems.cons h (isItems_pretty depth items hnext)
    simpa [prettyItems] using hitems

/-- The fields of an object, one on each line, spell the object's fields. -/
theorem isFields_pretty (depth : ℕ) : ∀ (fields : List (List Char × Value))
    {field : List Char × Value} {s : List Char}, IsMember Blank field s →
      IsFields Blank (field :: fields) (s ++ prettyFields depth fields)
  | [], _, s, h => by
    rw [prettyFields, List.append_nil]
    exact .single h
  | (key, w) :: fields, _, _, h => by
    have hnext := (isMember_pretty key (isValue_pretty depth w)).around
      (blank_newLine depth) blank_nil
    have hfields := IsFields.cons h (isFields_pretty depth fields hnext)
    simpa [prettyFields] using hfields

end

/-- The text of a value on indented lines is a text of that value. -/
theorem isText_pretty (v : Value) : IsText v (pretty 0 v) := by
  have htext := IsElement.mk blank_nil (isValue_pretty 0 v) blank_nil
  simpa using htext

example : pretty 0 (.array [.null, .array [], .array [.bool true]]) =
    "[\n  null,\n  [],\n  [\n    true\n  ]\n]".toList := by
  decide

end Json
