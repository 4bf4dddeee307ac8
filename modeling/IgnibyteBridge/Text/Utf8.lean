import IgnibyteBridge.Streaming.Transducer
import Mathlib.Data.Nat.Notation

/-!
# Lossy UTF-8 decoding

The decoder that replaces every maximal ill-formed part of a byte string by one
replacement character, as a transducer. Decoding is local to newline bytes:
a newline never continues a character, so it ends whatever came before it.
-/

namespace Text

/-- The bytes that may come next inside a character. None of them is ASCII. -/
structure Window where
  low : UInt8
  high : UInt8
  continuation : 0x80 ≤ low

namespace Window

/-- Any continuation byte. -/
def any : Window := ⟨0x80, 0xbf, by decide⟩

/-- The window admits a byte. -/
def Admits (window : Window) (byte : UInt8) : Prop := window.low ≤ byte ∧ byte ≤ window.high

instance (window : Window) (byte : UInt8) : Decidable (window.Admits byte) :=
  inferInstanceAs (Decidable (_ ∧ _))

/-- No window admits an ASCII byte. -/
theorem not_admits_ascii (window : Window) {byte : UInt8} (hbyte : byte < 0x80) :
    ¬window.Admits byte := by
  intro h
  have hcontinuation := window.continuation
  have hlow := h.1
  simp only [UInt8.lt_iff_toNat_lt, UInt8.le_iff_toNat_le] at hbyte hcontinuation hlow
  omega

end Window

/-- Where the decoder stands: between two characters, or inside one that wants
`need + 1` more bytes and has collected the bits `acc`. -/
inductive Utf8State where
  | ground
  | inside (need acc : ℕ) (window : Window)

/-- What stands for an ill-formed part. -/
def replacement : Char := Char.ofNat 0xfffd

/-- The first byte of a character. -/
def leadByte (byte : UInt8) : Utf8State × List Char :=
  let bits := byte.toNat
  if byte < 0x80 then (.ground, [Char.ofNat bits])
  else if 0xc2 ≤ byte ∧ byte ≤ 0xdf then (.inside 0 (bits - 0xc0) .any, [])
  else if byte = 0xe0 then (.inside 1 0 ⟨0xa0, 0xbf, by decide⟩, [])
  else if byte = 0xed then (.inside 1 0xd ⟨0x80, 0x9f, by decide⟩, [])
  else if 0xe1 ≤ byte ∧ byte ≤ 0xef then (.inside 1 (bits - 0xe0) .any, [])
  else if byte = 0xf0 then (.inside 2 0 ⟨0x90, 0xbf, by decide⟩, [])
  else if 0xf1 ≤ byte ∧ byte ≤ 0xf3 then (.inside 2 (bits - 0xf0) .any, [])
  else if byte = 0xf4 then (.inside 2 4 ⟨0x80, 0x8f, by decide⟩, [])
  else (.ground, [replacement])

/-- One byte of the decoder. A byte that cannot continue the character in
progress ends it as ill-formed and is read again as a first byte. -/
def decodeByte : Utf8State → UInt8 → Utf8State × List Char
  | .ground, byte => leadByte byte
  | .inside need acc window, byte =>
    if window.Admits byte then
      let bits := acc * 64 + (byte.toNat - 0x80)
      match need with
      | 0 => (.ground, [Char.ofNat bits])
      | need + 1 => (.inside need bits .any, [])
    else ((leadByte byte).1, replacement :: (leadByte byte).2)

/-- What the end of the input, or a byte that cannot continue, emits. -/
def cutShort : Utf8State → List Char
  | .ground => []
  | .inside .. => [replacement]

/-- Decode a byte string, replacing its ill-formed parts. -/
def fromUtf8Lossy (bytes : List UInt8) : List Char :=
  (Streaming.feed decodeByte .ground bytes).2 ++
    cutShort (Streaming.feed decodeByte .ground bytes).1

/-- No bytes are no characters. -/
@[simp] theorem fromUtf8Lossy_nil : fromUtf8Lossy [] = [] := rfl

/-- A newline ends the character in progress and stands for itself. -/
theorem decodeByte_newline (s : Utf8State) :
    decodeByte s 0x0a = (.ground, cutShort s ++ ['\n']) := by
  cases s with
  | ground => rfl
  | inside need acc window =>
    have hreject : ¬window.Admits 0x0a := window.not_admits_ascii (by decide)
    rw [decodeByte, if_neg hreject]
    rfl

/-- Decoding is local to newline bytes. -/
theorem fromUtf8Lossy_newline (u v : List UInt8) :
    fromUtf8Lossy (u ++ 0x0a :: v) = fromUtf8Lossy u ++ '\n' :: fromUtf8Lossy v := by
  simp only [fromUtf8Lossy, Streaming.feed_append, Streaming.feed_cons, decodeByte_newline,
    List.append_assoc, List.cons_append, List.nil_append]

example : fromUtf8Lossy [0x6f, 0xff, 0xe2, 0x82, 0x41, 0xe2, 0x82, 0xac, 0xf0, 0x9f] =
    ['o', replacement, replacement, 'A', '€', replacement] := by decide

/-- No newline byte is lost, whatever surrounds it. -/
theorem count_newline_le_feed (s : Utf8State) (bytes : List UInt8) :
    bytes.count 0x0a ≤ (Streaming.feed decodeByte s bytes).2.count '\n' := by
  induction bytes generalizing s with
  | nil => exact Nat.zero_le _
  | cons byte bytes ih =>
    have hrest := ih (decodeByte s byte).1
    rw [Streaming.feed_cons, List.count_append, List.count_cons]
    by_cases hbyte : byte = 0x0a
    · subst hbyte
      have hemitted : 1 ≤ (decodeByte s 0x0a).2.count '\n' := by
        rw [decodeByte_newline, List.count_append]
        exact Nat.le_add_left 1 _
      simp only [beq_self_eq_true, ite_true]
      omega
    · simp only [beq_iff_eq, hbyte, ite_false]
      omega

/-- The decoded text has at least the newlines of the bytes. -/
theorem count_newline_le_fromUtf8Lossy (bytes : List UInt8) :
    bytes.count 0x0a ≤ (fromUtf8Lossy bytes).count '\n' := by
  have hfeed := count_newline_le_feed .ground bytes
  rw [fromUtf8Lossy, List.count_append]
  omega

end Text
