import IgnibyteBridge.Daemon.Requests

/-!
# Request lines

A client writes a request as one line, and the daemon executes what it decodes
from the first line of a connection, up to a cap. A request that was cut short is
never executed: no strict prefix of an object is a JSON text.
-/

namespace IgnibyteBridge

open Json Text

/-! ## The two ends of a connection -/

/-- `MAX_REQUEST_BYTES`. -/
def maxRequestBytes : ℕ := 1 <<< 20

/-- What `try_send_daemon_request` writes, over `serde_json::to_writer`. -/
def clientBytes (toWriter : DaemonRequest → List UInt8) (request : DaemonRequest) : List UInt8 :=
  toWriter request ++ [0x0a]

/-- What comes after the bytes that the daemon receives. -/
inductive Ending where
  /-- The client closes its end. -/
  | closed
  /-- A time-out, or another error. -/
  | failed
  deriving DecidableEq

/-- The bytes that `read_line` finds, through `take(MAX_REQUEST_BYTES)`. -/
def readLine (received : List UInt8) (ending : Ending) : Option (List UInt8) :=
  let seen := received.take maxRequestBytes
  if 0x0a ∈ seen then some (seen.takeWhile (· != 0x0a) ++ [0x0a])
  else if maxRequestBytes ≤ received.length ∨ ending = .closed then some seen
  else none

/-- What becomes of a connection. -/
inductive Handled where
  /-- The handler returns an error. -/
  | failed (error : String)
  /-- A bare connect-and-close. -/
  | ignored
  /-- The reply is that the request is invalid. -/
  | invalid
  | executes (request : DaemonRequest)

/-- `handle_daemon_stream` up to the request it executes, over `serde_json::from_str`. -/
def handleDaemonStream (fromStr : List Char → Option DaemonRequest) (received : List UInt8)
    (ending : Ending) : Handled :=
  match readLine received ending with
  | none => .failed "failed to read daemon request"
  | some line =>
    match decode? line with
    | none => .failed "failed to read daemon request"
    | some text =>
      if line.isEmpty then .ignored
      else
        match fromStr text with
        | none => .invalid
        | some request => .executes request

/-! ## The library -/

/-- A string, or a value that is not made of others. -/
def isScalar : Value → Bool
  | .null | .bool _ | .string _ => true
  | .number n => (n.toNat?.any (· < UInt64.size))
  | _ => false

/-- The values that the fields of requests have. -/
def isSimple : Value → Bool
  | .array items => items.all isScalar
  | v => isScalar v

/-- The derived implementations follow RFC 8259. -/
structure FollowsRfc8259 (toWriter : DaemonRequest → List UInt8)
    (fromStr : List Char → Option DaemonRequest) : Prop where
  /-- A request is written as its object, without white space. -/
  writes : ∀ request : DaemonRequest,
    ∃ text, IsValue Compact (.object request.fields) text ∧ toWriter request = encode text
  /-- An object of simple fields is read as the derived implementation decodes it. -/
  reads : ∀ fields text, (fields.map Prod.fst).Nodup → (∀ field ∈ fields, isSimple field.2 = true) →
    IsText (.object fields) text → fromStr text = DaemonRequest.ofFields fields
  /-- Nothing else than JSON is read. -/
  rejects : ∀ text, (∀ v, ¬IsText v text) → fromStr text = none

namespace DaemonRequest

/-- A text is simple. -/
theorem isSimple_text (s : String) : isSimple (text s) = true := rfl

/-- A truth value is simple. -/
theorem isSimple_bool (b : Bool) : isSimple (.bool b) = true := rfl

/-- A list of texts is simple. -/
theorem isSimple_texts (entries : List String) :
    isSimple (.array (entries.map text)) = true := by
  simp [isSimple, isScalar, text]

/-- A number of 64 bits is simple. -/
theorem isSimple_natural {n : ℕ} (h : n < UInt64.size) : isSimple (natural n) = true := by
  simp [isSimple, isScalar, natural, h]

/-- An optional value is simple if it is so where it is present. -/
theorem isSimple_optional {α : Type} {f : α → Value} (hf : ∀ x, isSimple (f x) = true)
    (x : Option α) : isSimple (optional f x) = true := by
  cases x with
  | none => rfl
  | some x => exact hf x

/-- The fields of a request have different names. -/
theorem nodup_fields (r : DaemonRequest) : (r.fields.map Prod.fst).Nodup := by
  cases r <;> simp [fields, field]

/-- The fields of a request have simple values. -/
theorem isSimple_fields (r : DaemonRequest) : ∀ field ∈ r.fields, isSimple field.2 = true := by
  have hu16 : ∀ n : UInt16, isSimple (natural n.toNat) = true := fun n =>
    isSimple_natural (Nat.lt_trans n.toNat_lt (by decide))
  have husize : ∀ n : UInt64, isSimple (natural n.toNat) = true := fun n =>
    isSimple_natural n.toNat_lt
  have hpath := isSimple_optional isSimple_text
  have hgeometry := isSimple_optional hu16
  cases r <;> simp [fields, field, isSimple_text, isSimple_bool, isSimple_texts, husize, hpath,
    hgeometry]

end DaemonRequest

/-! ## Framing -/

section Framing

variable {toWriter : DaemonRequest → List UInt8} {fromStr : List Char → Option DaemonRequest}
  {request : DaemonRequest} {received : List UInt8} {ending : Ending}

/-- A request is written without a newline. -/
theorem FollowsRfc8259.newline_notMem (h : FollowsRfc8259 toWriter fromStr) :
    0x0a ∉ toWriter request := by
  obtain ⟨text, htext, hwrites⟩ := h.writes request
  rw [hwrites]
  intro hmem
  have hcontrol := htext.printable '\n' (newline_of_mem_encode hmem)
  exact absurd hcontrol (by decide)

/-- The text of a request is decoded to the request, with or without its newline. -/
theorem FollowsRfc8259.decodes (h : FollowsRfc8259 toWriter fromStr) {text after : List Char}
    (htext : IsValue Compact (.object request.fields) text) (hafter : Blank after) :
    fromStr (text ++ after) = some request := by
  have hblank : Blank [] := by simp [Blank]
  have hall : IsText (.object request.fields) ([] ++ (text ++ after)) :=
    .mk hblank htext.blank hafter
  rw [List.nil_append] at hall
  rw [h.reads _ _ request.nodup_fields request.isSimple_fields hall]
  exact request.ofFields_fields

/-- What a line does that is read as the text of a request. -/
theorem handle_of_readLine {line : List UInt8} {text : List Char}
    (hline : readLine received ending = some line) (htext : line = encode text) (hne : text ≠ [])
    (hfrom : fromStr text = some request) :
    handleDaemonStream fromStr received ending = .executes request := by
  have hempty : line.isEmpty = false := by
    rw [htext, List.isEmpty_eq_false_iff]
    exact fun hnil => hne (encode_eq_nil hnil)
  have hdecode : decode? line = some text := by rw [htext, decode?_encode]
  simp only [handleDaemonStream, hline, hdecode, hempty, hfrom]
  rfl

/-- The line of a request is decoded to the request, whatever comes after it. -/
theorem handle_clientBytes (h : FollowsRfc8259 toWriter fromStr)
    (hfits : (toWriter request).length ≤ maxRequestBytes) (after : List UInt8) :
    handleDaemonStream fromStr (clientBytes toWriter request ++ after) ending =
      .executes request := by
  obtain ⟨text, htext, hwrites⟩ := h.writes request
  have hnewline : 0x0a ∉ toWriter request := h.newline_notMem
  have hne : text ≠ [] := by
    obtain ⟨c, u, htext', -⟩ := head_of_isValue htext
    simp [htext']
  have hall : clientBytes toWriter request ++ after = toWriter request ++ 0x0a :: after := by
    simp [clientBytes]
  rcases Nat.lt_or_eq_of_le hfits with hlt | heq
  · -- The newline is within the cap.
    have hseen : (clientBytes toWriter request ++ after).take maxRequestBytes =
        toWriter request ++ 0x0a :: after.take (maxRequestBytes - (toWriter request).length - 1) := by
      rw [hall, List.take_append, List.take_of_length_le hfits]
      obtain ⟨k, hk⟩ : ∃ k, maxRequestBytes - (toWriter request).length = k + 1 :=
        ⟨maxRequestBytes - (toWriter request).length - 1, by omega⟩
      rw [hk, List.take_succ_cons]
      rfl
    have hline : readLine (clientBytes toWriter request ++ after) ending =
        some (toWriter request ++ [0x0a]) := by
      have htake : ∀ rest : List UInt8,
          (toWriter request ++ 0x0a :: rest).takeWhile (· != 0x0a) = toWriter request := by
        intro rest
        rw [List.takeWhile_append_of_pos fun b hb => by
          have hb' : b ≠ 0x0a := fun heq => hnewline (heq ▸ hb)
          simpa using hb']
        simp
      simp [readLine, hseen, htake]
    have hencode : toWriter request ++ [0x0a] = encode (text ++ ['\n']) := by
      rw [encode_append, hwrites]
      rfl
    have hblank : Blank ['\n'] := by simp [Blank, isSpace]
    exact handle_of_readLine hline hencode (by simp) (h.decodes htext hblank)
  · -- The cap cuts the newline off.
    have hseen : (clientBytes toWriter request ++ after).take maxRequestBytes = toWriter request := by
      rw [hall, ← heq, List.take_left]
    have hlength : maxRequestBytes ≤ (clientBytes toWriter request ++ after).length := by
      rw [hall, List.length_append, heq]
      omega
    have hline : readLine (clientBytes toWriter request ++ after) ending =
        some (toWriter request) := by
      simp only [readLine, hseen, if_neg hnewline, hlength, true_or, if_true]
    have hblank : Blank [] := by simp [Blank]
    have hfrom := h.decodes htext hblank
    rw [List.append_nil] at hfrom
    exact handle_of_readLine hline hwrites hne hfrom

/-- A request that was cut short is not executed. -/
theorem not_executes_of_prefix (h : FollowsRfc8259 toWriter fromStr)
    (hcut : received.take maxRequestBytes <+: toWriter request)
    (hshort : received.take maxRequestBytes ≠ toWriter request) (other : DaemonRequest) :
    handleDaemonStream fromStr received ending ≠ .executes other := by
  intro hexecutes
  obtain ⟨text, htext, hwrites⟩ := h.writes request
  obtain ⟨rest, hrest⟩ := hcut
  have hnewline : 0x0a ∉ received.take maxRequestBytes := by
    intro hmem
    have hwhole : 0x0a ∈ toWriter request := by
      rw [← hrest]
      exact List.mem_append_left rest hmem
    exact h.newline_notMem hwhole
  have hline : ∀ line, readLine received ending = some line →
      line = received.take maxRequestBytes := by
    intro line hread
    simp only [readLine, if_neg hnewline] at hread
    split at hread
    · exact (Option.some.inj hread).symm
    · cases hread
  unfold handleDaemonStream at hexecutes
  split at hexecutes
  · cases hexecutes
  · next line hread =>
    split at hexecutes
    · cases hexecutes
    · next chars hdecode =>
      split at hexecutes
      · cases hexecutes
      · split at hexecutes
        · cases hexecutes
        · next found hfrom =>
          -- What was executed is a text, and a strict prefix of the object.
          have hbytes : received.take maxRequestBytes = encode chars := by
            rw [← hline line hread]
            exact encode_of_decode? hdecode
          rw [hbytes, hwrites] at hrest hshort
          obtain ⟨w, hw, -⟩ := exists_append_of_encode hrest
          have hstrict : w ≠ [] := by
            rintro rfl
            rw [List.append_nil] at hw
            exact hshort (by rw [hw])
          have hnone := h.rejects chars fun v => not_isText_of_prefix htext.blank hw hstrict
          rw [hfrom] at hnone
          cases hnone

/-- **Request framing.** The bytes of a request hold one newline, at their end; the daemon
decodes them to the request if it fits the cap; and it executes nothing when it receives
only the front of a request. -/
theorem request_framing (h : FollowsRfc8259 toWriter fromStr) (request : DaemonRequest) :
    ((clientBytes toWriter request).count 0x0a = 1 ∧
      (clientBytes toWriter request).getLast? = some 0x0a) ∧
    ((toWriter request).length ≤ maxRequestBytes → ∀ after ending,
      handleDaemonStream fromStr (clientBytes toWriter request ++ after) ending =
        .executes request) ∧
    ∀ received ending other, received.take maxRequestBytes <+: toWriter request →
      received.take maxRequestBytes ≠ toWriter request →
        handleDaemonStream fromStr received ending ≠ .executes other := by
  have hnewline : (toWriter request).count 0x0a = 0 := List.count_eq_zero.mpr h.newline_notMem
  refine ⟨⟨?_, ?_⟩, fun hfits after ending => handle_clientBytes h hfits after,
    fun received ending other hcut hshort => not_executes_of_prefix h hcut hshort other⟩
  · rw [clientBytes, List.count_append, hnewline]
    rfl
  · rw [clientBytes, List.getLast?_append]
    rfl

end Framing

/-- A library that prints and reads as the grammar says. -/
def printRequest (request : DaemonRequest) : List UInt8 := encode (print (.object request.fields))

/-- Its reader, over the derived implementation. -/
def readRequest (text : List Char) : Option DaemonRequest :=
  match Json.read text with
  | some (.object fields) => DaemonRequest.ofFields fields
  | _ => none

/-- The printer and the reader of requests satisfy what the claim assumes of serde. -/
theorem followsRfc8259 : FollowsRfc8259 printRequest readRequest where
  writes request := ⟨_, isValue_print _, rfl⟩
  reads fields text _ _ htext := by rw [readRequest, read_of_isText htext]
  rejects text hnone := by
    unfold readRequest
    split
    · next fields hread => exact absurd (isText_of_read hread) (hnone _)
    · rfl

/-- A text with quotes, a backslash and a newline. -/
def quotedSend : DaemonRequest := .send "demo" "say \"hi\\\"\n" true

/-- The request is one line, and is not executed before its last byte. -/
theorem request_framing_quoted :
    (clientBytes printRequest quotedSend).count 0x0a = 1 ∧
      handleDaemonStream readRequest (clientBytes printRequest quotedSend ++ []) .failed =
        .executes quotedSend ∧
      handleDaemonStream readRequest (printRequest quotedSend).dropLast .closed ≠
        .executes quotedSend := by
  obtain ⟨⟨hcount, -⟩, hwhole, hcut⟩ := request_framing followsRfc8259 quotedSend
  refine ⟨hcount, hwhole (by decide +kernel) [] .failed, hcut _ _ _ ?_ (by decide +kernel)⟩
  exact (List.take_prefix ..).trans (List.dropLast_prefix _)

end IgnibyteBridge
