import IgnibyteBridge.Daemon.Framing

/-!
# Responses

What the daemon writes on a connection: at most one `DaemonResponse`, as a line
of JSON. Every request line that is a text gets one; the handler gives up on a
line that is not.
-/

namespace IgnibyteBridge

open Json Text

/-- `DaemonResponse`. -/
structure DaemonResponse where
  ok : Bool
  output : String
  error : Option String
  deriving DecidableEq

/-- The derived `Serialize`. -/
def DaemonResponse.fields (r : DaemonResponse) : DaemonRequest.Fields :=
  [DaemonRequest.field "ok" (.bool r.ok), DaemonRequest.field "output" (DaemonRequest.text r.output),
    DaemonRequest.field "error" (DaemonRequest.optional DaemonRequest.text r.error)]

/-- What the operations of `session.rs` and `logs.rs` return: an output, or the
text of an error with its causes. -/
structure Operations where
  /-- `start_session_in_daemon`, and `format_start_result` of its record. -/
  startSession (name : String) (cwd : Option String) (cmd : String) (path : Option String)
    (rows cols : Option UInt16) : Except String String
  sendInput (name text : String) (noEnter : Bool) : Except String Unit
  sendKeys (name : String) (keys : List String) : Except String Unit
  readOutput (name : String) (tail : UInt64) (raw : Bool) : Except String String
  readScreen (name : String) (tail : UInt64) : Except String String
  status (name : String) : Except String String
  list : Except String String
  stop (name : String) : Except String Unit

/-- The result of a request; none where the code is `unreachable!`. -/
def Operations.result (ops : Operations) : DaemonRequest → Option (Except String String)
  | .start name cwd cmd path rows cols => some (ops.startSession name cwd cmd path rows cols)
  | .send name text noEnter =>
    some ((ops.sendInput name text noEnter).map fun _ => s!"sent input to '{name}'\n")
  | .keys name keys =>
    let summary := String.intercalate " " keys
    some ((ops.sendKeys name keys).map fun _ => s!"sent keys to '{name}': {summary}\n")
  | .read name tail raw => some (ops.readOutput name tail raw)
  | .screen name tail => some (ops.readScreen name tail)
  | .status name => some (ops.status name)
  | .list => some ops.list
  | .stop name => some ((ops.stop name).map fun _ => s!"stopped session '{name}'\n")
  | .shutdown => none

/-- The response that reports a result. -/
def DaemonResponse.ofResult : Except String String → DaemonResponse
  | .ok output => { ok := true, output := output, error := none }
  | .error error => { ok := false, output := "", error := some error }

/-- `handle_daemon_request`. -/
def handleDaemonRequest (ops : Operations) (request : DaemonRequest) : Option DaemonResponse :=
  (ops.result request).map DaemonResponse.ofResult

/-- The response that `handle_daemon_stream` writes for what became of the line. -/
def respond (ops : Operations) (parseError : String) : Handled → Option DaemonResponse
  | .failed _ | .ignored => none
  | .invalid =>
    some { ok := false, output := "", error := some s!"invalid daemon request: {parseError}" }
  | .executes .shutdown => some { ok := true, output := "daemon shutting down\n", error := none }
  | .executes request => handleDaemonRequest ops request

/-- `write_daemon_response`, over `serde_json::to_writer`. -/
def writeDaemonResponse (toWriter : DaemonResponse → List UInt8) (response : DaemonResponse) :
    List UInt8 :=
  toWriter response ++ [0x0a]

/-- The bytes that the daemon writes on a connection. -/
def written (toWriter : DaemonResponse → List UInt8) (fromStr : List Char → Option DaemonRequest)
    (ops : Operations) (parseError : String) (received : List UInt8) (ending : Ending) :
    List UInt8 :=
  match respond ops parseError (handleDaemonStream fromStr received ending) with
  | none => []
  | some response => writeDaemonResponse toWriter response

/-- The bytes are one JSON text of a response, and the newline that ends it. -/
def IsOneResponse (bytes : List UInt8) : Prop :=
  ∃ (response : DaemonResponse) (text : List Char), IsValue Compact (.object response.fields) text ∧
    bytes = encode text ++ [0x0a] ∧ bytes.count 0x0a = 1

/-- The first line of a connection: up to a newline, the cap, or the end. -/
def requestLine (received : List UInt8) : List UInt8 :=
  let seen := received.take maxRequestBytes
  if 0x0a ∈ seen then seen.takeWhile (· != 0x0a) ++ [0x0a] else seen

/-- The reader does not have to wait for bytes that never come. -/
def Arrives (received : List UInt8) (ending : Ending) : Prop :=
  0x0a ∈ received.take maxRequestBytes ∨ maxRequestBytes ≤ received.length ∨ ending = .closed

/-- What `read_line` reads of an arriving request is its line. -/
theorem readLine_eq {received : List UInt8} {ending : Ending} (h : Arrives received ending) :
    readLine received ending = some (requestLine received) := by
  unfold readLine requestLine
  by_cases hnewline : 0x0a ∈ received.take maxRequestBytes
  · simp only [if_pos hnewline]
  · have hrest : maxRequestBytes ≤ received.length ∨ ending = .closed := h.resolve_left hnewline
    simp only [if_neg hnewline, if_pos hrest]

/-- The line of a request that is not empty is not empty. -/
theorem requestLine_ne_nil {received : List UInt8} (h : received ≠ []) :
    requestLine received ≠ [] := by
  simp only [requestLine]
  split_ifs
  · simp
  · cases received with
    | nil => exact absurd rfl h
    | cons b rest =>
      obtain ⟨k, hk⟩ : ∃ k, maxRequestBytes = k + 1 := ⟨maxRequestBytes - 1, by decide⟩
      rw [hk, List.take_succ_cons]
      exact List.cons_ne_nil _ _

/-- No request that is executed gets to the part of the handler that cannot be reached. -/
theorem respond_executes (ops : Operations) (parseError : String) (request : DaemonRequest) :
    ∃ response, respond ops parseError (.executes request) = some response := by
  cases request <;> exact ⟨_, rfl⟩

/-- A line that is a text has a response. -/
theorem respond_of_isUtf8 (fromStr : List Char → Option DaemonRequest) (ops : Operations)
    (parseError : String) {received : List UInt8} {ending : Ending} (hsent : received ≠ [])
    (harrives : Arrives received ending) (htext : IsUtf8 (requestLine received)) :
    ∃ response,
      respond ops parseError (handleDaemonStream fromStr received ending) = some response := by
  obtain ⟨text, hline⟩ := htext
  have hread := readLine_eq harrives
  have hdecode : decode? (requestLine received) = some text := by rw [hline, decode?_encode]
  have hfilled : (requestLine received).isEmpty = false := by
    simpa using requestLine_ne_nil hsent
  cases hrequest : fromStr text with
  | none =>
    have hhandled : handleDaemonStream fromStr received ending = .invalid := by
      simp only [handleDaemonStream, hread, hdecode, hfilled, hrequest]
      rfl
    rw [hhandled]
    exact ⟨_, rfl⟩
  | some request =>
    have hhandled : handleDaemonStream fromStr received ending = .executes request := by
      simp only [handleDaemonStream, hread, hdecode, hfilled, hrequest]
      rfl
    rw [hhandled]
    exact respond_executes ops parseError request

/-- A line that is not a text has none. -/
theorem respond_of_not_isUtf8 (fromStr : List Char → Option DaemonRequest) (ops : Operations)
    (parseError : String) {received : List UInt8} {ending : Ending}
    (harrives : Arrives received ending) (htext : ¬IsUtf8 (requestLine received)) :
    respond ops parseError (handleDaemonStream fromStr received ending) = none := by
  have hread := readLine_eq harrives
  have hdecode : decode? (requestLine received) = none := by
    cases hdecode : decode? (requestLine received) with
    | none => rfl
    | some text => exact absurd ⟨text, encode_of_decode? hdecode⟩ htext
  simp only [handleDaemonStream, hread, hdecode]
  rfl

/-- A response is written as its object, without white space. -/
def WritesObjects (toWriter : DaemonResponse → List UInt8) : Prop :=
  ∀ response : DaemonResponse,
    ∃ text, IsValue Compact (.object response.fields) text ∧ toWriter response = encode text

/-- A response that is written is one response. -/
theorem isOneResponse_write {toWriter : DaemonResponse → List UInt8} (h : WritesObjects toWriter)
    (response : DaemonResponse) : IsOneResponse (writeDaemonResponse toWriter response) := by
  obtain ⟨text, htext, hwrites⟩ := h response
  have hnewline : 0x0a ∉ encode text := by
    intro hmem
    have hcontrol := htext.printable '\n' (newline_of_mem_encode hmem)
    exact absurd hcontrol (by decide)
  have hcount : (encode text).count 0x0a = 0 := List.count_eq_zero.mpr hnewline
  rw [writeDaemonResponse, hwrites]
  refine ⟨response, text, htext, rfl, ?_⟩
  rw [List.count_append, hcount]
  rfl

/-- **Every request is answered.** On a connection that delivers a request line, the
daemon writes exactly one response if and only if the line is valid UTF-8. -/
theorem isOneResponse_written_iff {toWriter : DaemonResponse → List UInt8}
    (h : WritesObjects toWriter) (fromStr : List Char → Option DaemonRequest) (ops : Operations)
    (parseError : String) {received : List UInt8} {ending : Ending} (hsent : received ≠ [])
    (harrives : Arrives received ending) :
    IsOneResponse (written toWriter fromStr ops parseError received ending) ↔
      IsUtf8 (requestLine received) := by
  constructor
  · rintro ⟨response, text, -, hwritten, -⟩
    by_contra htext
    have hnone := respond_of_not_isUtf8 fromStr ops parseError harrives htext
    rw [written, hnone] at hwritten
    exact absurd hwritten.symm (by simp)
  · intro htext
    obtain ⟨response, hresponse⟩ := respond_of_isUtf8 fromStr ops parseError hsent harrives htext
    rw [written, hresponse]
    exact isOneResponse_write h response

/-- A library that prints responses as the grammar says. -/
def printResponse (response : DaemonResponse) : List UInt8 :=
  encode (print (.object response.fields))

/-- The printer writes every response as one object. -/
theorem writesObjects_print : WritesObjects printResponse :=
  fun _ => ⟨_, isValue_print _, rfl⟩

/-- Operations of a bridge without sessions. -/
def noSessions : Operations where
  startSession _ _ _ _ _ _ := .error "failed to parse command"
  sendInput name _ _ := .error s!"no such session '{name}'"
  sendKeys name _ := .error s!"no such session '{name}'"
  readOutput name _ _ := .error s!"no such session '{name}'"
  readScreen name _ := .error s!"no such session '{name}'"
  status name := .error s!"no such session '{name}'"
  list := .ok "no sessions\n"
  stop name := .error s!"no such session '{name}'"

/-- A line that is no JSON is answered. -/
theorem isOneResponse_written_question :
    ([0x3f, 0x0a] : List UInt8) ≠ [] ∧ Arrives [0x3f, 0x0a] .failed ∧
      IsOneResponse (written printResponse readRequest noSessions "expected value" [0x3f, 0x0a]
        .failed) := by
  have harrives : Arrives [0x3f, 0x0a] .failed := Or.inl (by decide +kernel)
  have hline : requestLine [0x3f, 0x0a] = encode ['?', '\n'] := by decide +kernel
  refine ⟨by simp, harrives, ?_⟩
  exact (isOneResponse_written_iff writesObjects_print readRequest noSessions "expected value"
    (by simp) harrives).mpr ⟨_, hline⟩

/-- A line of one byte that is not UTF-8 is not answered. -/
theorem written_not_utf8 :
    Arrives [0xff, 0x0a] .failed ∧
      written printResponse readRequest noSessions "expected value" [0xff, 0x0a] .failed = [] ∧
      ¬IsOneResponse [] := by
  have harrives : Arrives [0xff, 0x0a] .failed := Or.inl (by decide +kernel)
  have hline : requestLine [0xff, 0x0a] = [0xff, 0x0a] := by decide +kernel
  have htext : ¬IsUtf8 (requestLine [0xff, 0x0a]) := by
    rw [hline]
    exact not_isUtf8_cons (by decide)
  have hnone := respond_of_not_isUtf8 readRequest noSessions "expected value" harrives htext
  refine ⟨harrives, by rw [written, hnone], ?_⟩
  rintro ⟨response, text, -, hempty, -⟩
  exact absurd hempty.symm (by simp)

end IgnibyteBridge
