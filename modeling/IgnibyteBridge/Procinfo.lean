import IgnibyteBridge.Session.Metadata
import IgnibyteBridge.Text.Characters
import IgnibyteBridge.Text.Fields

/-!
# The start time of a process

`procinfo.rs` on Linux: the token that pairs with a recorded PID is a field of
the process's `stat` line, behind a command name that may hold any bytes. The
line is first read as a text.
-/

namespace IgnibyteBridge.Procinfo

open Text

/-- `process_start_time`, of the bytes of a process's `stat` file. -/
def processStartTime (stat : List UInt8) : Option ℕ := do
  let text ← decode? stat
  let afterComm ← afterLast ')' text
  let field ← (splitWhitespace afterComm)[19]?
  parseU64 field

/-- The `stat` line of a live process. -/
structure StatLine where
  pid : ℕ
  /-- The command name, as the process or its user chose it. -/
  comm : List UInt8
  /-- The fields behind the name. -/
  fields : List (List Char)
  startTime : ℕ
  fields_wf : ∀ f ∈ fields, IsField f ∧ '(' ∉ f ∧ ')' ∉ f
  /-- The start time is field 22 of the line. -/
  start_field : fields[19]? = some startTime.repr.toList
  start_lt : startTime < 2 ^ 64

namespace StatLine

/-- What follows the command name. -/
def tail (line : StatLine) : List Char := line.fields.flatMap (' ' :: ·) ++ ['\n']

/-- The line as it is read. -/
def bytes (line : StatLine) : List UInt8 :=
  encode (line.pid.repr.toList ++ [' ', '(']) ++ line.comm ++ encode (')' :: line.tail)

/-- The tail of a stat line has no closing parenthesis. -/
theorem paren_not_mem_tail (line : StatLine) : ')' ∉ line.tail := by
  intro h
  rcases List.mem_append.mp h with h | h
  · obtain ⟨f, hf, hmem⟩ := List.mem_flatMap.mp h
    rcases List.mem_cons.mp hmem with heq | hmem
    · exact absurd heq (by decide)
    · exact (line.fields_wf f hf).2.2 hmem
  · exact absurd (List.mem_singleton.mp h) (by decide)

/-- The line is a text exactly if its command name is one. -/
theorem isUtf8_bytes (line : StatLine) : IsUtf8 line.bytes ↔ IsUtf8 line.comm := by
  rw [bytes, List.append_assoc, isUtf8_encode_append]
  constructor
  · intro h
    have hparen : encode (')' :: line.tail) = 0x29 :: encode line.tail := by
      rw [encode_cons]
      rfl
    rw [hparen] at h
    exact isUtf8_of_append_ascii (by decide) h
  · intro h
    exact (isUtf8_append h).mpr ⟨_, rfl⟩

/-- Whatever characters the name holds, the last parenthesis of the line ends it. -/
theorem processStartTime_of_isUtf8 (line : StatLine) (h : IsUtf8 line.comm) :
    processStartTime line.bytes = some line.startTime := by
  obtain ⟨name, hname⟩ := h
  have htext : line.bytes =
      encode ((line.pid.repr.toList ++ [' ', '(']) ++ name ++ ')' :: line.tail) := by
    rw [bytes, hname, ← encode_append, ← encode_append]
  have hcut := afterLast_append ((line.pid.repr.toList ++ [' ', '(']) ++ name)
    line.paren_not_mem_tail
  have hfields : splitWhitespace line.tail = line.fields :=
    splitWhitespace_fields fun f hf => (line.fields_wf f hf).1
  have hvalue := parseU64_repr line.start_lt
  rw [processStartTime, htext, decode?_encode]
  simp only [Option.bind_eq_bind, Option.bind_some, hcut, hfields, line.start_field, hvalue]

/-- Nothing is read of a line that is not a text. -/
theorem processStartTime_of_not_isUtf8 (line : StatLine) (h : ¬IsUtf8 line.comm) :
    processStartTime line.bytes = none := by
  have hdecode : decode? line.bytes = none := by
    cases hdecode : decode? line.bytes with
    | none => rfl
    | some text =>
      have hutf8 : IsUtf8 line.bytes := ⟨text, encode_of_decode? hdecode⟩
      exact absurd (line.isUtf8_bytes.mp hutf8) h
  rw [processStartTime, hdecode]
  rfl

end StatLine

/-- **The identity of a child.** The start time is read, and the PID of a child that
is alive is recorded, exactly if its command name is valid UTF-8. -/
theorem processStartTime_iff (line : StatLine) (metadata : SessionMetadata)
    (command : List String) :
    (processStartTime line.bytes = some line.startTime ∧
        (metadata.withChild line.pid (processStartTime line.bytes) command).childPid =
          some line.pid) ↔
      IsUtf8 line.comm := by
  constructor
  · rintro ⟨htime, -⟩
    by_contra hcomm
    rw [line.processStartTime_of_not_isUtf8 hcomm] at htime
    cases htime
  · intro hcomm
    have htime := line.processStartTime_of_isUtf8 hcomm
    rw [htime]
    exact ⟨rfl, rfl⟩

/-- Nineteen zeros and the start time 100. -/
def zeroFields : List (List Char) := List.replicate 19 ['0'] ++ [['1', '0', '0']]

/-- The example's fields are fields, without parentheses. -/
theorem zeroFields_wf : ∀ f ∈ zeroFields, IsField f ∧ '(' ∉ f ∧ ')' ∉ f := by
  intro f hf
  rcases List.mem_append.mp hf with hzero | hstart
  · rw [List.eq_of_mem_replicate hzero]
    decide
  · rw [List.mem_singleton.mp hstart]
    decide

/-- The start time stands in the place the kernel gives it. -/
theorem zeroFields_start : zeroFields[19]? = some (100 : ℕ).repr.toList := by decide

/-- The example's start time is a number of 64 bits. -/
theorem hundred_lt : 100 < 2 ^ 64 := by omega

/-- A process that was started at tick 100 under this name. -/
def namedLine (comm : List UInt8) : StatLine where
  pid := 7
  comm := comm
  fields := zeroFields
  startTime := 100
  fields_wf := zeroFields_wf
  start_field := zeroFields_start
  start_lt := hundred_lt

/-- The child of a session that runs under the name `cat`. -/
theorem processStartTime_iff_cat :
    processStartTime (namedLine [0x63, 0x61, 0x74]).bytes = some 100 :=
  ((processStartTime_iff (namedLine [0x63, 0x61, 0x74])
    (initialMetadata "a" "/" [] 1 none none) []).mpr ⟨['c', 'a', 't'], by decide⟩).1

/-- A name that the kernel cut inside a character of two bytes: the child's PID is lost. -/
theorem processStartTime_cut_name :
    processStartTime (namedLine [0x61, 0xc3]).bytes = none ∧
      ∀ (metadata : SessionMetadata) (command : List String),
        (metadata.withChild 7 (processStartTime (namedLine [0x61, 0xc3]).bytes) command).childPid =
          none := by
  have hcut : ¬IsUtf8 [0x61, 0xc3] := by
    have hfirst : IsUtf8 [0x61] := ⟨['a'], by decide⟩
    exact fun h => not_isUtf8_singleton (by decide) ((isUtf8_append hfirst).mp h)
  have hnone := (namedLine [0x61, 0xc3]).processStartTime_of_not_isUtf8 hcut
  refine ⟨hnone, fun metadata command => ?_⟩
  rw [hnone]
  rfl

end IgnibyteBridge.Procinfo
