import IgnibyteBridge.Streaming.Transducer

/-!
# The streaming escape-sequence stripper

`clean.rs`: a byte-driven state machine that drops terminal control sequences,
drops the C0 controls other than tab and newline, and turns carriage returns
into newlines. Its state is carried across the chunks of a capture stream.
-/

namespace IgnibyteBridge

/-- Where the cleaner stands in its input. -/
inductive CleanerState where
  /-- Normal text. -/
  | ground
  /-- Saw `ESC`; the next byte selects the sequence type. -/
  | escape
  /-- `ESC` followed by intermediate bytes, waiting for a final byte. -/
  | escapeIntermediate
  /-- Inside a CSI sequence, waiting for a final byte. -/
  | csi
  /-- Inside an OSC sequence, terminated by `BEL` or `ST`. -/
  | osc
  /-- Inside OSC and saw `ESC`; the next byte completes the `ST` terminator. -/
  | oscEsc
  /-- Inside a DCS/SOS/PM/APC string, terminated by `ST`. -/
  | stringSeq
  /-- Inside a string sequence and saw `ESC`; the next byte completes `ST`. -/
  | stringEsc
  deriving DecidableEq, Repr

/-- The states in which `ESC` begins a terminator instead of a new sequence. -/
def CleanerState.awaitsTerminator : CleanerState → Bool
  | .osc | .oscEsc | .stringSeq | .stringEsc => true
  | _ => false

/-- The stripper's state. -/
structure AnsiCleaner where
  state : CleanerState := .ground
  /-- A carriage return was seen and a newline may follow. -/
  pendingCr : Bool := false
  deriving DecidableEq, Repr

namespace AnsiCleaner

/-- The newline owed for a deferred carriage return. -/
def owed (pendingCr : Bool) : List UInt8 := if pendingCr then [0x0a] else []

/-- The C0 controls that text loses, and DEL. -/
def isDropped (byte : UInt8) : Bool :=
  byte ≤ 0x08 || (0x0b ≤ byte && byte ≤ 0x0c) || (0x0e ≤ byte && byte ≤ 0x1f) || byte == 0x7f

/-- `ground` once no carriage return is pending. -/
def groundByte (byte : UInt8) : AnsiCleaner × List UInt8 :=
  if byte = 0x1b then ({ state := .escape }, [])
  else if byte = 0x0d then ({ pendingCr := true }, [])
  else if byte = 0x0a ∨ byte = 0x09 then ({}, [byte])
  else if isDropped byte then ({}, [])
  else ({}, [byte])

/-- One byte of normal text. -/
def ground (self : AnsiCleaner) (byte : UInt8) : AnsiCleaner × List UInt8 :=
  if self.pendingCr ∧ byte = 0x0a then ({}, [0x0a])
  else ((groundByte byte).1, owed self.pendingCr ++ (groundByte byte).2)

/-- The state that the byte after `ESC` selects. -/
def escape (byte : UInt8) : CleanerState :=
  if byte = 0x5b then .csi
  else if byte = 0x5d then .osc
  else if byte = 0x50 ∨ byte = 0x58 ∨ byte = 0x5e ∨ byte = 0x5f then .stringSeq
  else if 0x20 ≤ byte ∧ byte ≤ 0x2f then .escapeIntermediate
  else .ground

/-- The state after a byte inside a sequence. -/
def inside (state : CleanerState) (byte : UInt8) : CleanerState :=
  match state with
  | .ground => .ground
  | .escape => escape byte
  | .escapeIntermediate => if 0x30 ≤ byte ∧ byte ≤ 0x7e then .ground else .escapeIntermediate
  | .csi => if 0x40 ≤ byte ∧ byte ≤ 0x7e then .ground else .csi
  | .osc => if byte = 0x07 then .ground else if byte = 0x1b then .oscEsc else .osc
  | .oscEsc => .ground
  | .stringSeq => if byte = 0x1b then .stringEsc else .stringSeq
  | .stringEsc => .ground

/-- One byte: the next state and the bytes pushed to the output. -/
def step (self : AnsiCleaner) (byte : UInt8) : AnsiCleaner × List UInt8 :=
  if byte = 0x1b ∧ self.state.awaitsTerminator = false then
    ({ state := .escape }, owed self.pendingCr)
  else if self.state = .ground then self.ground byte
  else ({ self with state := inside self.state byte }, [])

/-- The bytes that one call appends to its output. -/
def clean (self : AnsiCleaner) (input : List UInt8) : AnsiCleaner × List UInt8 :=
  Streaming.feed step self input

/-- Successive calls on the chunks of one stream. -/
def cleanChunks (self : AnsiCleaner) (chunks : List (List UInt8)) : AnsiCleaner × List UInt8 :=
  Streaming.feedChunks step self chunks

/-- Cleaning chunk by chunk is cleaning the whole, however it is cut. -/
theorem cleanChunks_eq_clean (self : AnsiCleaner) (chunks : List (List UInt8)) :
    cleanChunks self chunks = clean self chunks.flatten :=
  Streaming.feedChunks_eq_feed step self chunks

end AnsiCleaner

end IgnibyteBridge
