import Mathlib.Data.Nat.Notation
import Mathlib.Data.List.Basic

/-!
# UTF-8 encoded characters

Texts as byte strings. No encoded character is a prefix of another one, so valid
UTF-8 in front of a byte string neither makes it valid nor spoils it.
-/

namespace Text

/-- The UTF-8 bytes of a text. -/
def encode (chars : List Char) : List UInt8 := chars.flatMap String.utf8EncodeChar

/-- A byte string that encodes some text. -/
def IsUtf8 (bytes : List UInt8) : Prop := ∃ chars, bytes = encode chars

/-- No characters are no bytes. -/
@[simp] theorem encode_nil : encode [] = [] := rfl

/-- The first character comes first. -/
theorem encode_cons (c : Char) (chars : List Char) :
    encode (c :: chars) = String.utf8EncodeChar c ++ encode chars := rfl

/-- Joined texts have joined encodings. -/
theorem encode_append (u v : List Char) : encode (u ++ v) = encode u ++ encode v :=
  List.flatMap_append

/-- Only the empty text has no bytes. -/
theorem encode_eq_nil {chars : List Char} (h : encode chars = []) : chars = [] := by
  cases chars with
  | nil => rfl
  | cons c chars =>
    rw [encode_cons, List.append_eq_nil_iff] at h
    exact absurd h.1 String.utf8EncodeChar_ne_nil

/-- The characters form a prefix code. -/
theorem utf8EncodeChar_append_inj {c d : Char} {u v : List UInt8}
    (h : String.utf8EncodeChar c ++ u = String.utf8EncodeChar d ++ v) : c = d ∧ u = v := by
  have hc := ByteArray.utf8DecodeChar?_utf8EncodeChar_append (b := u.toByteArray) (c := c)
  have hd := ByteArray.utf8DecodeChar?_utf8EncodeChar_append (b := v.toByteArray) (c := d)
  rw [← List.toByteArray_append, h, List.toByteArray_append, hd] at hc
  obtain rfl : d = c := Option.some.inj hc
  exact ⟨rfl, List.append_cancel_left h⟩

/-- The text that a byte string encodes. -/
def decode? (bytes : List UInt8) : Option (List Char) :=
  bytes.toByteArray.utf8Decode?.map Array.toList

/-- An encoding is decoded to what was encoded. -/
@[simp] theorem decode?_encode (chars : List Char) : decode? (encode chars) = some chars := by
  have h := List.utf8Decode?_utf8Encode (l := chars)
  unfold decode?
  rw [show (encode chars).toByteArray = chars.utf8Encode from rfl, h]
  rfl

/-- Decoding is exact. -/
theorem encode_of_decode? {bytes : List UInt8} {chars : List Char}
    (h : decode? bytes = some chars) :
    bytes = encode chars := by
  obtain ⟨array, harray, rfl⟩ := Option.map_eq_some_iff.mp h
  have hsome : bytes.toByteArray.utf8Decode?.isSome := by rw [harray]; rfl
  have hencode := ByteArray.utf8Encode_get_utf8Decode? (h := hsome)
  have hget : bytes.toByteArray.utf8Decode?.get hsome = array := by simp [harray]
  rw [hget] at hencode
  have hbytes := congrArg (fun b => b.data.toList) hencode
  simpa [List.utf8Encode, encode] using hbytes.symm

/-- A prefix of the bytes that is valid encodes a prefix of the text. -/
theorem exists_append_of_encode {u v : List Char} {rest : List UInt8}
    (h : encode u ++ rest = encode v) : ∃ w, v = u ++ w ∧ rest = encode w := by
  induction u generalizing v with
  | nil => exact ⟨v, rfl, h⟩
  | cons c u ih =>
    rw [encode_cons, List.append_assoc] at h
    cases v with
    | nil => exact absurd (List.append_eq_nil_iff.mp h).1 String.utf8EncodeChar_ne_nil
    | cons d v =>
      obtain ⟨rfl, hrest⟩ := utf8EncodeChar_append_inj h
      obtain ⟨w, rfl, hw⟩ := ih hrest
      exact ⟨w, rfl, hw⟩

/-- Text in front of a byte string does not change whether it is valid. -/
theorem isUtf8_encode_append {chars : List Char} {bytes : List UInt8} :
    IsUtf8 (encode chars ++ bytes) ↔ IsUtf8 bytes := by
  constructor
  · rintro ⟨all, h⟩
    induction chars generalizing all with
    | nil => exact ⟨all, h⟩
    | cons c chars ih =>
      rw [encode_cons, List.append_assoc] at h
      cases all with
      | nil => exact absurd (List.append_eq_nil_iff.mp h).1 String.utf8EncodeChar_ne_nil
      | cons d all => exact ih all (utf8EncodeChar_append_inj h).2
  · rintro ⟨rest, rfl⟩
    exact ⟨chars ++ rest, (encode_append chars rest).symm⟩

/-- After a text, what follows decides. -/
theorem isUtf8_append {u v : List UInt8} (hu : IsUtf8 u) : IsUtf8 (u ++ v) ↔ IsUtf8 v := by
  obtain ⟨chars, rfl⟩ := hu
  exact isUtf8_encode_append

/-- A character of one byte is ASCII; any other has a first byte and then
continuation bytes, all of them outside ASCII. -/
theorem utf8EncodeChar_shape (c : Char) :
    (∃ b, String.utf8EncodeChar c = [b] ∧ b < 0x80) ∨
    ∃ lead second rest, String.utf8EncodeChar c = lead :: second :: rest ∧
      (∀ b ∈ lead :: second :: rest, 0x80 ≤ b) ∧ ¬second.IsUTF8FirstByte := by
  have hor : ∀ x mask : UInt8, 0x80 ≤ mask → 0x80 ≤ x ||| mask := by
    intro x mask hmask
    rw [UInt8.le_iff_toNat_le] at hmask ⊢
    rw [UInt8.toNat_or]
    exact Nat.le_trans hmask Nat.right_le_or
  have hsecond : ∀ lead second rest, String.utf8EncodeChar c = lead :: second :: rest →
      ¬second.IsUTF8FirstByte := by
    intro lead second rest h
    have hlength : 1 < (String.utf8EncodeChar c).length := by simp [h]
    have hget : (String.utf8EncodeChar c)[1] = second := by simp [h]
    rw [← hget, UInt8.isUTF8FirstByte_getElem_utf8EncodeChar]
    exact Nat.one_ne_zero
  rcases c.utf8Size_eq with hsize | hsize | hsize | hsize
  · refine .inl ⟨_, String.utf8EncodeChar_eq_singleton hsize, ?_⟩
    have hval := Char.utf8Size_eq_one_iff.mp hsize
    rw [UInt32.le_iff_toNat_le] at hval
    rw [UInt8.lt_iff_toNat_lt, UInt32.toNat_toUInt8]
    have h127 : (127 : UInt32).toNat = 127 := rfl
    have h128 : (0x80 : UInt8).toNat = 128 := rfl
    omega
  · have h := String.utf8EncodeChar_eq_cons_cons hsize
    refine .inr ⟨_, _, _, h, ?_, hsecond _ _ _ h⟩
    simp only [List.forall_mem_cons, List.not_mem_nil]
    exact ⟨hor _ _ (by decide), hor _ _ (by decide), by simp⟩
  · have h := String.utf8EncodeChar_eq_cons_cons_cons hsize
    refine .inr ⟨_, _, _, h, ?_, hsecond _ _ _ h⟩
    simp only [List.forall_mem_cons, List.not_mem_nil]
    exact ⟨hor _ _ (by decide), hor _ _ (by decide), hor _ _ (by decide), by simp⟩
  · have h := String.utf8EncodeChar_eq_cons_cons_cons_cons hsize
    refine .inr ⟨_, _, _, h, ?_, hsecond _ _ _ h⟩
    simp only [List.forall_mem_cons, List.not_mem_nil]
    exact ⟨hor _ _ (by decide), hor _ _ (by decide), hor _ _ (by decide), hor _ _ (by decide),
      by simp⟩

/-- A byte outside ASCII is no character by itself. -/
theorem not_isUtf8_singleton {b : UInt8} (hb : 0x80 ≤ b) : ¬IsUtf8 [b] := by
  rintro ⟨chars, h⟩
  cases chars with
  | nil => cases h
  | cons c chars =>
    rw [encode_cons] at h
    rcases utf8EncodeChar_shape c with ⟨a, ha, hascii⟩ | ⟨lead, second, rest, hshape, -⟩
    · rw [ha] at h
      obtain ⟨rfl, -⟩ := List.cons.inj h
      rw [UInt8.le_iff_toNat_le] at hb
      rw [UInt8.lt_iff_toNat_lt] at hascii
      omega
    · rw [hshape] at h
      cases h

/-- Valid UTF-8 does not start inside a character. -/
theorem not_isUtf8_cons {b : UInt8} {rest : List UInt8} (hb : ¬b.IsUTF8FirstByte) :
    ¬IsUtf8 (b :: rest) := by
  rintro ⟨chars, h⟩
  cases chars with
  | nil => cases h
  | cons c chars =>
    have hpositive : 0 < (String.utf8EncodeChar c).length := by simp [c.utf8Size_pos]
    have hfirst : (String.utf8EncodeChar c)[0].IsUTF8FirstByte :=
      UInt8.isUTF8FirstByte_getElem_utf8EncodeChar.mpr rfl
    have hhead : (String.utf8EncodeChar c)[0] = b := by
      have hget := congrArg (·[0]?) h
      simp only [encode_cons, List.getElem?_cons_zero,
        List.getElem?_append_left hpositive, List.getElem?_eq_getElem hpositive] at hget
      exact (Option.some.inj hget).symm
    exact hb (hhead ▸ hfirst)

/-- An ASCII byte is a character. -/
theorem utf8EncodeChar_ofNat {b : UInt8} (hb : b < 0x80) :
    String.utf8EncodeChar (Char.ofNat b.toNat) = [b] := by
  have hlt : b.toNat < 128 := UInt8.lt_iff_toNat_lt.mp hb
  have hvalid : b.toNat.isValidChar := .inl (by omega)
  have hval : (Char.ofNat b.toNat).val.toNat = b.toNat := by
    rw [Char.ofNat, dif_pos hvalid]
    rfl
  have hsize : (Char.ofNat b.toNat).utf8Size = 1 := by
    rw [Char.utf8Size_eq_one_iff, UInt32.le_iff_toNat_le, hval]
    have h127 : (127 : UInt32).toNat = 127 := rfl
    omega
  have hbyte : (Char.ofNat b.toNat).val.toUInt8 = b := by
    rw [← UInt8.toNat_inj, UInt32.toNat_toUInt8, hval]
    omega
  rw [String.utf8EncodeChar_eq_singleton hsize, hbyte]

/-- ASCII is valid UTF-8. -/
theorem isUtf8_ascii {bytes : List UInt8} (h : ∀ b ∈ bytes, b < 0x80) : IsUtf8 bytes := by
  induction bytes with
  | nil => exact ⟨[], rfl⟩
  | cons b bytes ih =>
    obtain ⟨chars, hchars⟩ := ih fun c hc => h c (List.mem_cons_of_mem b hc)
    refine ⟨Char.ofNat b.toNat :: chars, ?_⟩
    rw [encode_cons, utf8EncodeChar_ofNat (h b List.mem_cons_self), hchars]
    rfl

/-- Only a newline is encoded with the byte of a newline. -/
theorem newline_of_mem_encode {chars : List Char} (h : 0x0a ∈ encode chars) : '\n' ∈ chars := by
  obtain ⟨c, hc, hbyte⟩ := List.mem_flatMap.mp h
  rcases utf8EncodeChar_shape c with ⟨b, hb, -⟩ | ⟨lead, second, rest, hshape, hall, -⟩
  · rw [hb, List.mem_singleton] at hbyte
    have hnewline : String.utf8EncodeChar '\n' = [0x0a] := by decide
    have hsame : String.utf8EncodeChar c ++ [] = String.utf8EncodeChar '\n' ++ [] := by
      rw [hb, hnewline, hbyte]
    obtain ⟨rfl, -⟩ := utf8EncodeChar_append_inj hsame
    exact hc
  · rw [hshape] at hbyte
    exact absurd (hall _ hbyte) (by decide)

/-- No character reaches across an ASCII byte: what stands before it is valid by itself. -/
theorem isUtf8_of_append_ascii {u v : List UInt8} {b : UInt8} (hb : b < 0x80)
    (h : IsUtf8 (u ++ b :: v)) : IsUtf8 u := by
  obtain ⟨chars, hchars⟩ := h
  induction chars generalizing u with
  | nil => cases u <;> cases hchars
  | cons c chars ih =>
    rw [encode_cons] at hchars
    rcases List.append_eq_append_iff.mp hchars with ⟨inner, hc, hrest⟩ | ⟨more, hu, hrest⟩
    · cases inner with
      | nil =>
        rw [List.append_nil] at hc
        exact ⟨[c], by rw [encode_cons, encode_nil, List.append_nil, hc]⟩
      | cons d inner =>
        obtain rfl := (List.cons.inj hrest).1
        rcases utf8EncodeChar_shape c with ⟨a, ha, -⟩ | ⟨lead, second, rest, hshape, hall, -⟩
        · -- A one-byte character is that byte itself.
          rw [ha] at hc
          cases u with
          | nil => exact ⟨[], rfl⟩
          | cons a' u => cases u <;> cases hc
        · have hmem : b ∈ lead :: second :: rest := by
            rw [← hshape, hc]
            simp
          have hhigh := hall b hmem
          rw [UInt8.le_iff_toNat_le] at hhigh
          rw [UInt8.lt_iff_toNat_lt] at hb
          omega
    · have hone : String.utf8EncodeChar c = encode [c] := by
        rw [encode_cons, encode_nil, List.append_nil]
      rw [hu, hone]
      exact isUtf8_encode_append.mpr (ih hrest.symm)

end Text
