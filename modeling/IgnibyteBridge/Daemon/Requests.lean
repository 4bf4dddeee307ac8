import IgnibyteBridge.Json.Printer
import IgnibyteBridge.Json.Reader
import IgnibyteBridge.Text.Characters

/-!
# Daemon requests

The requests of `protocol.rs` as JSON objects, and the line of bytes that carries
one from a client to the daemon. `serde_json` is a pair of functions that follow
the grammar of JSON.
-/

namespace IgnibyteBridge

open Json Text

/-- `DaemonRequest`, with a `cwd` that is text. -/
inductive DaemonRequest where
  | start (name : String) (cwd : Option String) (cmd : String) (path : Option String)
      (rows cols : Option UInt16)
  | send (name text : String) (noEnter : Bool)
  | keys (name : String) (keys : List String)
  | read (name : String) (tail : UInt64) (raw : Bool)
  | screen (name : String) (tail : UInt64)
  | status (name : String)
  | list
  | stop (name : String)
  | shutdown
  deriving DecidableEq

namespace DaemonRequest

/-- The fields of an object. -/
abbrev Fields := List (List Char × Value)

/-! ## Serialization -/

/-- A field of a struct variant. -/
def field (key : String) (v : Value) : List Char × Value := (key.toList, v)

/-- A `String`, or a path. -/
def text (s : String) : Value := .string s.toList

/-- An unsigned integer. -/
def natural (n : ℕ) : Value := .number (.ofNat n)

/-- An `Option`. -/
def optional {α : Type} (f : α → Value) : Option α → Value
  | none => .null
  | some x => f x

/-- The derived `Serialize`: the tag, and the fields as they are declared. -/
def fields : DaemonRequest → Fields
  | .start name cwd cmd path rows cols =>
    [field "command" (text "start"), field "name" (text name), field "cwd" (optional text cwd),
      field "cmd" (text cmd), field "path" (optional text path),
      field "rows" (optional (fun n => natural n.toNat) rows),
      field "cols" (optional (fun n => natural n.toNat) cols)]
  | .send name input noEnter =>
    [field "command" (text "send"), field "name" (text name), field "text" (text input),
      field "no_enter" (.bool noEnter)]
  | .keys name entries =>
    [field "command" (text "keys"), field "name" (text name),
      field "keys" (.array (entries.map text))]
  | .read name tail raw =>
    [field "command" (text "read"), field "name" (text name), field "tail" (natural tail.toNat),
      field "raw" (.bool raw)]
  | .screen name tail =>
    [field "command" (text "screen"), field "name" (text name), field "tail" (natural tail.toNat)]
  | .status name => [field "command" (text "status"), field "name" (text name)]
  | .list => [field "command" (text "list")]
  | .stop name => [field "command" (text "stop"), field "name" (text name)]
  | .shutdown => [field "command" (text "shutdown")]

/-! ## Deserialization -/

/-- `String`. -/
def asText : Value → Option String
  | .string chars => some (String.ofList chars)
  | _ => none

/-- `bool`. -/
def asBool : Value → Option Bool
  | .bool b => some b
  | _ => none

/-- `u16`. -/
def asU16 : Value → Option UInt16
  | .number n => (n.toNat?.filter (· < UInt16.size)).map UInt16.ofNat
  | _ => none

/-- `usize`, of 64 bits. -/
def asUsize : Value → Option UInt64
  | .number n => (n.toNat?.filter (· < UInt64.size)).map UInt64.ofNat
  | _ => none

/-- `Vec<String>`. -/
def asTexts : Value → Option (List String)
  | .array items => items.mapM asText
  | _ => none

/-- The value of a field. -/
def find (key : String) (fields : Fields) : Option Value := fields.lookup key.toList

/-- A field that must be there. -/
def required {α : Type} (f : Value → Option α) (key : String) (fields : Fields) : Option α :=
  (find key fields).bind f

/-- A field of an `Option` type, which defaults to `None`. -/
def defaulted {α : Type} (f : Value → Option α) (key : String) (fields : Fields) :
    Option (Option α) :=
  match find key fields with
  | none | some .null => some none
  | some v => (f v).map some

/-- The derived `Deserialize`, of an object whose keys are distinct. Unknown fields are
ignored. -/
def ofFields (fields : Fields) : Option DaemonRequest := do
  match ← required asText "command" fields with
  | "start" =>
    let name ← required asText "name" fields
    let cwd ← defaulted asText "cwd" fields
    let cmd ← required asText "cmd" fields
    let path ← defaulted asText "path" fields
    let rows ← defaulted asU16 "rows" fields
    let cols ← defaulted asU16 "cols" fields
    return .start name cwd cmd path rows cols
  | "send" =>
    let name ← required asText "name" fields
    let input ← required asText "text" fields
    let noEnter ← required asBool "no_enter" fields
    return .send name input noEnter
  | "keys" =>
    let name ← required asText "name" fields
    let entries ← required asTexts "keys" fields
    return .keys name entries
  | "read" =>
    let name ← required asText "name" fields
    let tail ← required asUsize "tail" fields
    let raw ← required asBool "raw" fields
    return .read name tail raw
  | "screen" =>
    let name ← required asText "name" fields
    let tail ← required asUsize "tail" fields
    return .screen name tail
  | "status" => return .status (← required asText "name" fields)
  | "list" => return .list
  | "stop" => return .stop (← required asText "name" fields)
  | "shutdown" => return .shutdown
  | _ => none

/-- A text is read back. -/
@[simp] theorem asText_text (s : String) : asText (text s) = some s := by
  simp [asText, text]

/-- A 16-bit number is read back. -/
@[simp] theorem asU16_natural (n : UInt16) : asU16 (natural n.toNat) = some n := by
  have hlt : n.toNat < UInt16.size := n.toNat_lt
  simp [asU16, natural, hlt]

/-- A number of the machine's word is read back. -/
@[simp] theorem asUsize_natural (n : UInt64) : asUsize (natural n.toNat) = some n := by
  have hlt : n.toNat < UInt64.size := n.toNat_lt
  simp [asUsize, natural, hlt]

/-- A list of texts is read back. -/
@[simp] theorem asTexts_array (entries : List String) :
    asTexts (.array (entries.map text)) = some entries := by
  unfold asTexts
  induction entries with
  | nil => rfl
  | cons s entries ih =>
    simp only at ih
    simp [ih]

/-- An optional field that was written is read back. -/
theorem defaulted_optional {α : Type} {f : Value → Option α} {g : α → Value} {key : String}
    {fields : Fields} {x : Option α} (hfield : find key fields = some (optional g x))
    (hf : ∀ y, f (g y) = some y) (hnull : ∀ y, g y ≠ .null) : defaulted f key fields = some x := by
  unfold defaulted
  rw [hfield]
  cases x with
  | none => rfl
  | some y =>
    have hy := hf y
    cases hvalue : g y with
    | null => exact absurd hvalue (hnull y)
    | _ =>
      rw [hvalue] at hy
      simp [optional, hvalue, hy]

/-- A field is found under its name, and the others are passed over. -/
theorem find_field (key name : String) (v : Value) (fields : Fields) :
    find key (field name v :: fields) = if key = name then some v else find key fields := by
  unfold find field
  rw [List.lookup_cons]
  by_cases h : key = name
  · simp [h]
  · have hchars : (key.toList == name.toList) = false := by simpa [String.toList_inj] using h
    simp [hchars, h]

/-- A request is what its fields are decoded to. -/
theorem ofFields_fields (r : DaemonRequest) : ofFields r.fields = some r := by
  cases r with
  | start name cwd cmd path rows cols =>
    have hcwd : defaulted asText "cwd" (fields (.start name cwd cmd path rows cols)) = some cwd := by
      refine defaulted_optional ?_ asText_text nofun
      simp only [fields, find_field, reduceIte, String.reduceEq]
    have hpath : defaulted asText "path" (fields (.start name cwd cmd path rows cols)) =
        some path := by
      refine defaulted_optional ?_ asText_text nofun
      simp only [fields, find_field, reduceIte, String.reduceEq]
    have hrows : defaulted asU16 "rows" (fields (.start name cwd cmd path rows cols)) =
        some rows := by
      refine defaulted_optional ?_ asU16_natural nofun
      simp only [fields, find_field, reduceIte, String.reduceEq]
    have hcols : defaulted asU16 "cols" (fields (.start name cwd cmd path rows cols)) =
        some cols := by
      refine defaulted_optional ?_ asU16_natural nofun
      simp only [fields, find_field, reduceIte, String.reduceEq]
    simp only [ofFields, hcwd, hpath, hrows, hcols]
    simp [fields, required, find_field]
  | _ => simp [fields, ofFields, required, find_field, asBool]

end DaemonRequest

end IgnibyteBridge
