import Mathlib.Data.Nat.Notation

/-!
# Terminal keys

`keys.rs`: key names and the bytes they send.
-/

namespace IgnibyteBridge

/-- `encode_key`. -/
def encodeKey (key : String) : Except String (List UInt8) :=
  match key.toLower with
  | "enter" | "return" => .ok [0x0d]
  | "escape" | "esc" => .ok [0x1b]
  | "ctrl-c" | "control-c" | "c-c" => .ok [0x03]
  | "ctrl-d" | "control-d" | "c-d" => .ok [0x04]
  | "ctrl-z" | "control-z" | "c-z" => .ok [0x1a]
  | "tab" => .ok [0x09]
  | "backspace" | "bs" => .ok [0x7f]
  | "delete" | "del" => .ok [0x1b, 0x5b, 0x33, 0x7e]
  | "up" | "arrow-up" => .ok [0x1b, 0x5b, 0x41]
  | "down" | "arrow-down" => .ok [0x1b, 0x5b, 0x42]
  | "right" | "arrow-right" => .ok [0x1b, 0x5b, 0x43]
  | "left" | "arrow-left" => .ok [0x1b, 0x5b, 0x44]
  | "home" => .ok [0x1b, 0x5b, 0x48]
  | "end" => .ok [0x1b, 0x5b, 0x46]
  | _ => .error s!"unsupported key '{key}'"

/-- The bytes of a sequence of keys. -/
def encodeKeys : List String → Except String (List UInt8)
  | [] => .ok []
  | key :: keys => do
    let bytes ← encodeKey key
    let rest ← encodeKeys keys
    return bytes ++ rest

end IgnibyteBridge
