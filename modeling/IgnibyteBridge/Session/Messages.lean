import IgnibyteBridge.Session.Programs

/-!
# Messages

What a call sends, in the parts that the program writes one after the other, and
how the pieces that reach a FIFO make up these parts.
-/

namespace IgnibyteBridge

/-- The session that a call sends input to. -/
def Command.addressee : Command → Option String
  | .send name _ _ => some name
  | .keys name _ => some name
  | _ => none

/-- The parts of a call's message: a text and its Enter, or the bytes of the keys. -/
def Command.parts : Command → List (List UInt8)
  | .send _ text noEnter => if noEnter then [text] else [text, [0x0d]]
  | .keys _ names => (encodeKeys names).toOption.toList
  | _ => []

/-- The session that a thread's request sends input to. -/
def addressee (request : Option Request) : Option String :=
  request.bind fun request => request.command.addressee

/-- The parts of the message of a thread's request. -/
def messageParts (request : Option Request) : List (List UInt8) :=
  (request.map fun request => request.command.parts).getD []

/-- `Written parts pieces rest`: the pieces were written, and the rest of the parts
is still to be written. -/
inductive Written (parts : List (List UInt8)) : List (List UInt8) → List (List UInt8) → Prop
  | start : Written parts [] parts
  /-- A piece of the part at hand. A write of at most `PIPE_BUF` bytes is one piece. -/
  | piece {pieces rest : List (List UInt8)} {bytes : List UInt8} (count : ℕ)
    (before : Written parts pieces (bytes :: rest)) (nonempty : bytes ≠ [])
    (atomic : bytes.length ≤ pipeBuf → count = bytes.length) :
    Written parts (pieces ++ [bytes.take count]) (bytes.drop count :: rest)
  /-- The part at hand is complete. -/
  | next {pieces rest : List (List UInt8)} (before : Written parts pieces ([] :: rest)) :
    Written parts pieces rest

variable {parts pieces rest : List (List UInt8)}

/-- Nothing of a message is lost, doubled or reordered. -/
theorem Written.flatten (h : Written parts pieces rest) :
    pieces.flatten ++ rest.flatten = parts.flatten := by
  induction h with
  | start => rfl
  | @piece pieces rest bytes count before nonempty atomic ih =>
    rw [← ih, List.flatten_append, List.flatten_singleton, List.flatten_cons, List.flatten_cons,
      List.append_assoc, ← List.append_assoc (bytes.take count), List.take_append_drop]
  | next before ih => simpa using ih

/-- Parts of at most `PIPE_BUF` bytes are written in one piece each. -/
theorem Written.pieces_of_small (h : Written parts pieces rest)
    (hsmall : ∀ part ∈ parts, part.length ≤ pipeBuf) :
    pieces ++ rest.filter (· ≠ []) = parts.filter (· ≠ []) := by
  suffices (∀ part ∈ rest, part.length ≤ pipeBuf) ∧
      pieces ++ rest.filter (· ≠ []) = parts.filter (· ≠ []) from this.2
  induction h with
  | start => exact ⟨hsmall, rfl⟩
  | @piece pieces rest bytes count before nonempty atomic ih =>
    obtain ⟨hrest, heq⟩ := ih
    obtain rfl := atomic (hrest bytes List.mem_cons_self)
    refine ⟨fun part hpart => ?_, ?_⟩
    · rcases List.mem_cons.mp hpart with rfl | hpart
      · simp
      · exact hrest part (List.mem_cons_of_mem _ hpart)
    · rw [← heq]
      simp [nonempty]
  | next before ih =>
    obtain ⟨hrest, heq⟩ := ih
    exact ⟨fun part hpart => hrest part (List.mem_cons_of_mem _ hpart), by simpa using heq⟩

/-- What was written to a FIFO. -/
def Files.writtenTo (f : Files) (fifo : ℕ) : List UInt8 :=
  (f.pieces.filter (·.fifo = fifo)).flatMap (·.bytes)

/-- The pieces that a thread wrote. -/
def Files.writtenBy (f : Files) (writer : ℕ) : List (List UInt8) :=
  (f.pieces.filter (·.writer = writer)).map (·.bytes)

end IgnibyteBridge
