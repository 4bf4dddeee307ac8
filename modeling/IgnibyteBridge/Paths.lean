import Mathlib.Data.List.Basic

/-!
# Session names and commands

The checks of `paths.rs` that every request makes before it touches a session.
-/

namespace IgnibyteBridge

/-- The bytes a session name may hold. -/
def nameChar (c : Char) : Bool := c.isAlphanum || c == '-' || c == '_' || c == '.'

/-- `validate_session_name`. -/
def validateSessionName (name : String) : Except String Unit :=
  if name.isEmpty then .error "session name cannot be empty"
  else if 128 < name.utf8ByteSize then .error "session name must be 128 characters or fewer"
  else if !name.toList.all nameChar then
    .error "session name may only contain letters, numbers, '.', '-', and '_'"
  else if name = "." ∨ name = ".." then .error "session name may not be '.' or '..'"
  else if name.toList.head? = some '-' then .error "session name may not start with '-'"
  else .ok ()

/-- An accepted name has the characters of a name only. -/
theorem nameChar_of_valid {name : String} (h : validateSessionName name = .ok ()) :
    ∀ c ∈ name.toList, nameChar c = true := by
  unfold validateSessionName at h
  split_ifs at h with hempty hlong hchars
  have hall : name.toList.all nameChar = true := by simpa using hchars
  exact List.all_eq_true.mp hall

example : validateSessionName "demo" = .ok () := by rfl

/-- `parse_command`, over the word splitter it calls. -/
def parseCommand (split : String → Option (List String)) (cmd : String) :
    Except String (List String) :=
  match split cmd with
  | none => .error "failed to parse command"
  | some [] => .error "command cannot be empty"
  | some parts => .ok parts

end IgnibyteBridge
