import IgnibyteBridge.Text.Utf8
import IgnibyteBridge.Text.Lines

/-!
# The tail of a log

`tail_file` and `tail_lines` of `logs.rs`. A log is read in blocks backward from
its end until enough newlines were seen or a byte cap is reached, and decoded
lossily. What is printed is the tail of the whole file whenever enough newlines
lie within the cap.
-/

namespace IgnibyteBridge

open Text

/-- `BLOCK`. -/
def tailBlock : ℕ := 64 * 1024

/-- `MAX_BYTES`. -/
def tailMaxBytes : ℕ := 8 * 1024 * 1024

/-- The last `tail` lines of a text, each ended by a newline. -/
def tailLines (contents : List Char) (tail : ℕ) : List Char :=
  (lastLines contents tail).flatMap (· ++ ['\n'])

/-- `seek` and `read_exact`: all of `size` bytes from `pos`, or nothing. -/
def readExact (contents : List UInt8) (pos size : ℕ) : Option (List UInt8) :=
  if pos + size ≤ contents.length then some ((contents.drop pos).take size) else none

/-- The backward loop of `tail_file`: `collected` are the bytes from `pos` on and
`newlines` counts the newlines among them. -/
def collectBackward (path : String) (contents : List UInt8) (floor tail pos : ℕ)
    (collected : List UInt8) (newlines : ℕ) : Except String (List UInt8) :=
  if floor < pos then
    let readSize := min tailBlock (pos - floor)
    match readExact contents (pos - readSize) readSize with
    | none => .error s!"failed to read {path}"
    | some block =>
      if tail < newlines + block.count 0x0a then .ok (block ++ collected)
      else
        collectBackward path contents floor tail (pos - readSize) (block ++ collected)
          (newlines + block.count 0x0a)
  else .ok collected
termination_by pos
decreasing_by
  have hblock : 0 < tailBlock := by decide
  omega

/-- `tail_file`; `file` is what the path holds, `none` where it cannot be opened. -/
def tailFile (path : String) (file : Option (List UInt8)) (tail : ℕ) :
    Except String (List Char) :=
  match file with
  | none => .error s!"failed to read {path}"
  | some contents =>
    let len := contents.length
    if len = 0 ∨ tail = 0 then .ok []
    else do
      let collected ← collectBackward path contents (len - tailMaxBytes) tail len [] 0
      return tailLines (fromUtf8Lossy collected) tail

/-- A block before the bytes from `pos` on extends them down to its start. -/
theorem readExact_append_drop {contents : List UInt8} {pos size : ℕ} (hsize : size ≤ pos)
    (hpos : pos ≤ contents.length) :
    ∃ block, readExact contents (pos - size) size = some block ∧
      block ++ contents.drop pos = contents.drop (pos - size) := by
  refine ⟨(contents.drop (pos - size)).take size, ?_, ?_⟩
  · rw [readExact, if_pos (by omega)]
  · have hsplit := List.take_append_drop size (contents.drop (pos - size))
    rw [List.drop_drop, Nat.sub_add_cancel hsize] at hsplit
    exact hsplit

/-- What the loop returns: the bytes from some position on, which is the floor
unless more than `tail` newlines were seen. -/
theorem collectBackward_spec (path : String) (contents : List UInt8) (tail : ℕ) {floor pos : ℕ}
    (hfloor : floor ≤ pos) (hpos : pos ≤ contents.length) :
    ∃ start, floor ≤ start ∧
      collectBackward path contents floor tail pos (contents.drop pos)
        ((contents.drop pos).count 0x0a) = .ok (contents.drop start) ∧
      (start = floor ∨ tail < (contents.drop start).count 0x0a) := by
  induction pos using Nat.strongRecOn with
  | _ pos ih =>
    by_cases hlt : floor < pos
    · have hblock : 0 < tailBlock := by decide
      have hsize : min tailBlock (pos - floor) ≤ pos := by omega
      obtain ⟨block, hread, hdrop⟩ := readExact_append_drop hsize hpos
      have hcount : (contents.drop pos).count 0x0a + block.count 0x0a =
          (contents.drop (pos - min tailBlock (pos - floor))).count 0x0a := by
        rw [← hdrop, List.count_append, Nat.add_comm]
      rw [collectBackward, if_pos hlt]
      simp only [hread, hcount, hdrop]
      by_cases henough :
          tail < (contents.drop (pos - min tailBlock (pos - floor))).count 0x0a
      · exact ⟨_, by omega, if_pos henough, .inr henough⟩
      · rw [if_neg henough]
        exact ih _ (by omega) (by omega) (by omega)
    · have heq : floor = pos := by omega
      subst heq
      refine ⟨floor, Nat.le_refl floor, ?_, .inl rfl⟩
      rw [collectBackward, if_neg hlt]

/-- Bytes with a newline split at their first newline. -/
theorem exists_first_newline {bytes : List UInt8} (hbytes : 0 < bytes.count 0x0a) :
    ∃ u v, bytes = u ++ 0x0a :: v ∧ bytes.count 0x0a = v.count 0x0a + 1 := by
  obtain ⟨u, v, hsplit, hu⟩ := List.eq_append_cons_of_mem (List.count_pos_iff.mp hbytes)
  refine ⟨u, v, hsplit, ?_⟩
  rw [hsplit, List.count_append, List.count_eq_zero_of_not_mem hu, List.count_cons_self,
    Nat.zero_add]

/-- More than `tail` newlines decide the tail: nothing before them matters. -/
theorem tailLines_append (front : List UInt8) {bytes : List UInt8} {tail : ℕ}
    (htail : tail < bytes.count 0x0a) :
    tailLines (fromUtf8Lossy (front ++ bytes)) tail = tailLines (fromUtf8Lossy bytes) tail := by
  obtain ⟨u, v, hsplit, hcount⟩ := exists_first_newline (Nat.zero_lt_of_lt htail)
  have hv : tail ≤ (fromUtf8Lossy v).count '\n' := by
    have hdecoded := count_newline_le_fromUtf8Lossy v
    omega
  rw [hsplit, ← List.append_assoc, fromUtf8Lossy_newline, fromUtf8Lossy_newline, tailLines,
    tailLines, lastLines_newline hv, lastLines_newline hv]

example : tailLines ['a', '\n', 'b', '\n', 'c'] 2 = ['b', '\n', 'c', '\n'] := by decide

/-- A longer suffix has at least the newlines of a shorter one. -/
theorem count_newline_drop_le (contents : List UInt8) {start floor : ℕ} (hstart : floor ≤ start) :
    (contents.drop start).count 0x0a ≤ (contents.drop floor).count 0x0a := by
  have hsuffix : (contents.drop start).Sublist (contents.drop floor) := by
    have hdrop : contents.drop start = (contents.drop floor).drop (start - floor) := by
      rw [List.drop_drop]
      congr 1
      omega
    rw [hdrop]
    exact List.drop_sublist _ _
  exact hsuffix.count_le _

/-- The bytes that `tail_file` answers for: the whole file where its last
`MAX_BYTES` hold more than `tail` newlines, and those alone otherwise. -/
def tailSource (contents : List UInt8) (tail : ℕ) : List UInt8 :=
  let capped := contents.drop (contents.length - tailMaxBytes)
  if contents.length ≤ tailMaxBytes ∨ tail < capped.count 0x0a then contents else capped

/-- The tail of the bytes that the loop collects is the tail of `tailSource`. -/
theorem tailLines_collected {contents : List UInt8} {start tail : ℕ}
    (hstart : contents.length - tailMaxBytes ≤ start)
    (henough : start = contents.length - tailMaxBytes ∨
      tail < (contents.drop start).count 0x0a) :
    tailLines (fromUtf8Lossy (contents.drop start)) tail =
      tailLines (fromUtf8Lossy (tailSource contents tail)) tail := by
  have hwhole : tail < (contents.drop start).count 0x0a →
      tailLines (fromUtf8Lossy (contents.drop start)) tail =
        tailLines (fromUtf8Lossy contents) tail := by
    intro hcount
    have hfront := tailLines_append (contents.take start) hcount
    rw [List.take_append_drop] at hfront
    exact hfront.symm
  have hcapped := count_newline_drop_le contents hstart
  rw [tailSource]
  split
  · next hsource =>
    rcases henough with hfloor | hcount
    · rcases hsource with hshort | hcount
      · rw [hfloor, Nat.sub_eq_zero_of_le hshort, List.drop_zero]
      · rw [← hfloor] at hcount
        exact hwhole hcount
    · exact hwhole hcount
  · next hsource =>
    rcases henough with hfloor | hcount
    · rw [hfloor]
    · exact absurd (.inr (Nat.lt_of_lt_of_le hcount hcapped)) hsource

/-- Reading backward in blocks agrees with decoding the whole file, up to the
byte cap. -/
theorem tailFile_eq_tailLines (path : String) (contents : List UInt8) (tail : ℕ) :
    tailFile path (some contents) tail =
      .ok (tailLines (fromUtf8Lossy (tailSource contents tail)) tail) := by
  rw [tailFile]
  by_cases hempty : contents.length = 0 ∨ tail = 0
  · simp only [hempty, ite_true]
    rcases hempty with hnil | rfl
    · rw [List.length_eq_zero_iff] at hnil
      subst hnil
      have hsource : tailSource [] tail = [] := by simp [tailSource]
      simp [hsource, tailLines, lastLines, lines, linesFrom]
    · simp [tailLines, lastLines]
  · obtain ⟨start, hstart, hloop, henough⟩ :=
      collectBackward_spec path contents tail
        (Nat.sub_le contents.length tailMaxBytes) (Nat.le_refl _)
    rw [List.drop_length, List.count_nil] at hloop
    simp only [hempty, ite_false, hloop]
    exact congrArg Except.ok (tailLines_collected hstart henough)

end IgnibyteBridge
