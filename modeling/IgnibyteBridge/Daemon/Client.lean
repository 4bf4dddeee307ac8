import IgnibyteBridge.Daemon.Responses

/-!
# The client

The commands of the program, and the exchange of one request and one response that a
command makes with the daemon. The connection may break anywhere, in either direction:
a command that prints an output was executed, and that is the output.
-/

namespace IgnibyteBridge

open Json Text

/-! ## Commands -/

/-- `Commands`, with paths that are text. -/
inductive Commands where
  | start (name : String) (cwd : Option String) (cmd : String) (rows cols : Option UInt16)
  | send (name text : String) (noEnter : Bool)
  | keys (name : String) (keys : List String)
  | read (name : String) (tail : UInt64) (raw : Bool)
  | screen (name : String) (tail : UInt64)
  | status (name : String)
  | list
  | stop (name : String)
  | daemon
  | shutdown
  | doctor (cmd : String) (cwd : Option String)
  | supervisor (name cwd cmd : String)
  deriving DecidableEq

/-- What a client takes from its environment. -/
structure ClientEnv where
  /-- `resolve_cwd`. -/
  resolveCwd : Option String → Except String String
  /-- `std::env::var("PATH").ok()`. -/
  path : Option String
  /-- `socket_path`. -/
  socketPath : Except String String

/-- `daemon_request_for_command`. -/
def daemonRequestForCommand (env : ClientEnv) : Commands → Except String (Option DaemonRequest)
  | .start name cwd cmd rows cols =>
    (env.resolveCwd cwd).map fun cwd => some (.start name (some cwd) cmd env.path rows cols)
  | .send name text noEnter => .ok (some (.send name text noEnter))
  | .keys name keys => .ok (some (.keys name keys))
  | .read name tail raw => .ok (some (.read name tail raw))
  | .screen name tail => .ok (some (.screen name tail))
  | .status name => .ok (some (.status name))
  | .list => .ok (some .list)
  | .stop name => .ok (some (.stop name))
  | .shutdown => .ok (some .shutdown)
  | .daemon | .doctor .. | .supervisor .. => .ok none

/-! ## One exchange -/

/-- What `UnixStream::connect` does. -/
inductive Connecting where
  /-- There is no socket, or nobody listens on it. -/
  | noDaemon
  | failed
  | connected

/-- What comes after the bytes that the client receives. -/
inductive ReplyEnding where
  | closed
  | timedOut
  | failed

/-- How an exchange goes, as the client sees it. -/
structure Exchange where
  connecting : Connecting
  setReadTimeout : Bool := true
  setWriteTimeout : Bool := true
  write : Bool := true
  finish : Bool := true
  flush : Bool := true
  received : List UInt8
  ending : ReplyEnding

/-- `CLIENT_IO_TIMEOUT`, in seconds. -/
def clientIoTimeout : ℕ := 60

/-- `?` after `context`. -/
def checked (context : String) (ok : Bool) : Except String Unit :=
  if ok then .ok () else .error context

/-- The line that was read, which must be text. -/
def lineText (line : List UInt8) : Except String (List Char) :=
  match decode? line with
  | none => .error "failed to read daemon response"
  | some text => .ok text

/-- `read_line`, on the client's side. -/
def readReply (path : String) (received : List UInt8) (ending : ReplyEnding) :
    Except String (List Char) :=
  if 0x0a ∈ received then lineText (received.takeWhile (· != 0x0a) ++ [0x0a])
  else
    match ending with
    | .closed => lineText received
    | .timedOut =>
      .error (s!"daemon at {path} accepted the connection but did not respond within " ++
        s!"{clientIoTimeout}s; it may be suspended or wedged — restart it or rerun with --direct")
    | .failed => .error "failed to read daemon response"

/-- The response in a line, over `serde_json::from_str`. -/
def parseReply (fromStr : List Char → Option DaemonResponse) (text : List Char) :
    Except String DaemonResponse :=
  if text.isEmpty then .error "daemon closed connection without a response"
  else
    match fromStr text with
    | none => .error "failed to parse daemon response"
    | some response => .ok response

/-- `try_send_daemon_request`. -/
def trySendDaemonRequest (fromStr : List Char → Option DaemonResponse) (env : ClientEnv)
    (x : Exchange) : Except String (Option DaemonResponse) := do
  let path ← env.socketPath
  match x.connecting with
  | .noDaemon => return none
  | .failed => throw s!"failed to connect to daemon at {path}"
  | .connected =>
    checked "failed to set daemon read timeout" x.setReadTimeout
    checked "failed to set daemon write timeout" x.setWriteTimeout
    checked "failed to write daemon request" x.write
    checked "failed to finish daemon request" x.finish
    checked "failed to flush daemon request" x.flush
    let line ← readReply path x.received x.ending
    return some (← parseReply fromStr line)

/-- What a command does with a response. -/
def DaemonResponse.shown (otherwise : String) (response : DaemonResponse) : Except String String :=
  if response.ok then .ok response.output else .error (response.error.getD otherwise)

/-- `shutdown_daemon_direct`. -/
def shutdownDaemonDirect (fromStr : List Char → Option DaemonResponse) (env : ClientEnv)
    (x : Exchange) : Except String String := do
  match ← trySendDaemonRequest fromStr env x with
  | some response => response.shown "daemon shutdown failed"
  | none => return "daemon not running\n"

/-- What the functions of the library print when this process calls them, or their errors. -/
structure Local extends Operations where
  /-- `start_session`. -/
  startDirectly (name : String) (cwd : Option String) (cmd : String) (rows cols : Option UInt16) :
    Except String String
  runDaemon : Except String String
  doctor (cmd : String) (cwd : Option String) : Except String String
  runSupervisor (name cwd cmd : String) : Except String String

/-- The second part of `main`, where the shutdown makes an exchange of its own. -/
def Local.run (here : Local) (fromStr : List Char → Option DaemonResponse) (env : ClientEnv)
    (shutdown : Exchange) : Commands → Except String String
  | .start name cwd cmd rows cols => here.startDirectly name cwd cmd rows cols
  | .send name text noEnter =>
    (here.sendInput name text noEnter).map fun _ => s!"sent input to '{name}'\n"
  | .keys name keys =>
    let summary := String.intercalate " " keys
    (here.sendKeys name keys).map fun _ => s!"sent keys to '{name}': {summary}\n"
  | .read name tail raw => here.readOutput name tail raw
  | .screen name tail => here.readScreen name tail
  | .status name => here.status name
  | .list => here.list
  | .stop name => (here.stop name).map fun _ => s!"stopped session '{name}'\n"
  | .daemon => here.runDaemon
  | .shutdown => shutdownDaemonDirect fromStr env shutdown
  | .doctor cmd cwd => here.doctor cmd cwd
  | .supervisor name cwd cmd => here.runSupervisor name cwd cmd

/-- `main`: what it prints, or the error that it returns. -/
def clientMain (here : Local) (fromStr : List Char → Option DaemonResponse) (env : ClientEnv)
    (direct : Bool) (x shutdown : Exchange) (command : Commands) : Except String String :=
  if direct then here.run fromStr env shutdown command
  else do
    match ← daemonRequestForCommand env command with
    | none => here.run fromStr env shutdown command
    | some _ =>
      match ← trySendDaemonRequest fromStr env x with
      | none => here.run fromStr env shutdown command
      | some response => response.shown "daemon command failed"

/-! ## Responses on the wire -/

namespace DaemonResponse

/-- The derived `Deserialize`, of an object whose keys are distinct. -/
def ofFields (fields : DaemonRequest.Fields) : Option DaemonResponse := do
  let ok ← DaemonRequest.required DaemonRequest.asBool "ok" fields
  let output ← DaemonRequest.required DaemonRequest.asText "output" fields
  let error ← DaemonRequest.defaulted DaemonRequest.asText "error" fields
  return ⟨ok, output, error⟩

/-- A response is what its fields are decoded to. -/
theorem ofFields_fields (r : DaemonResponse) : ofFields r.fields = some r := by
  have hnull : ∀ s, DaemonRequest.text s ≠ .null := by
    intro s h
    cases h
  have herror : DaemonRequest.defaulted DaemonRequest.asText "error" r.fields = some r.error := by
    refine DaemonRequest.defaulted_optional ?_ DaemonRequest.asText_text hnull
    simp only [fields, DaemonRequest.find_field, reduceIte, String.reduceEq]
  simp only [ofFields, herror]
  simp [fields, DaemonRequest.required, DaemonRequest.find_field, DaemonRequest.asBool]

/-- The fields of a response have different names. -/
theorem nodup_fields (r : DaemonResponse) : (r.fields.map Prod.fst).Nodup := by
  simp [fields, DaemonRequest.field]

/-- The fields of a response have simple values. -/
theorem isSimple_fields (r : DaemonResponse) : ∀ field ∈ r.fields, isSimple field.2 = true := by
  have herror := DaemonRequest.isSimple_optional DaemonRequest.isSimple_text r.error
  simp [fields, DaemonRequest.field, DaemonRequest.isSimple_text, DaemonRequest.isSimple_bool,
    herror]

end DaemonResponse

/-- The derived implementations of responses follow RFC 8259. -/
structure RespondsInJson (toWriter : DaemonResponse → List UInt8)
    (fromStr : List Char → Option DaemonResponse) : Prop where
  writes : WritesObjects toWriter
  /-- An object of simple fields is read as the derived implementation decodes it. -/
  reads : ∀ fields text, (fields.map Prod.fst).Nodup → (∀ field ∈ fields, isSimple field.2 = true) →
    IsText (.object fields) text → fromStr text = DaemonResponse.ofFields fields
  /-- An object of which only the front is there is not read. -/
  rejects : ∀ fields text rest, IsText (.object fields) (text ++ rest) → (∀ v, ¬IsText v text) →
    fromStr text = none

/-! ## Lines that were cut -/

/-- The line at the front of some bytes, or all of them. -/
def lineOf (bytes : List UInt8) : List UInt8 :=
  if 0x0a ∈ bytes then bytes.takeWhile (· != 0x0a) ++ [0x0a] else bytes

/-- The whole of a line is read. -/
theorem lineOf_whole {line : List UInt8} (h : 0x0a ∉ line) :
    lineOf (line ++ [0x0a]) = line ++ [0x0a] := by
  have hend : [(0x0a : UInt8)].takeWhile (· != 0x0a) = [] := by decide
  unfold lineOf
  rw [if_pos (by simp), List.takeWhile_append_of_pos, hend, List.append_nil]
  intro b hb
  have hother : b ≠ 0x0a := by
    rintro rfl
    exact h hb
  simpa using hother

/-- What is decoded from the front of a line is what the line denotes, if no strict front of
its text denotes anything. -/
theorem decoded_front {β : Type} {fromStr : List Char → Option β} {t chars : List Char} {x : β}
    {bytes : List UInt8} (hwhole : ∀ after, Blank after → fromStr (t ++ after) = some x)
    (hcut : ∀ u w, t = u ++ w → w ≠ [] → fromStr u = none) (hnewline : 0x0a ∉ encode t)
    (hfront : bytes <+: encode t ++ [0x0a]) (htext : lineOf bytes = encode chars) :
    fromStr chars = some x ∨ fromStr chars = none := by
  rcases List.prefix_concat_iff.mp hfront with rfl | hfront
  · left
    rw [lineOf_whole hnewline] at htext
    have hline : encode (t ++ ['\n']) = encode chars := by
      rw [encode_append]
      exact htext
    have hchars : t ++ ['\n'] = chars := by
      have hdecode := congrArg decode? hline
      rwa [decode?_encode, decode?_encode, Option.some.injEq] at hdecode
    rw [← hchars]
    exact hwhole _ (by simp [Blank, isSpace])
  · have hnone : 0x0a ∉ bytes := fun hmem => hnewline (hfront.subset hmem)
    rw [lineOf, if_neg hnone] at htext
    rw [htext] at hfront
    obtain ⟨rest, hrest⟩ := hfront
    obtain ⟨w, hw, -⟩ := exists_append_of_encode hrest
    by_cases hstrict : w = []
    · left
      rw [hstrict, List.append_nil] at hw
      have hdecoded := hwhole [] fun _ hc => absurd hc List.not_mem_nil
      rwa [List.append_nil, hw] at hdecoded
    · exact .inr (hcut chars w hw hstrict)

section Exchange

variable {toWriter : DaemonResponse → List UInt8} {fromStr : List Char → Option DaemonResponse}
  {r response : DaemonResponse} {received : List UInt8} {path : String} {ending : ReplyEnding}
  {text : List Char}

/-- A line is taken as text exactly when it is the text's encoding. -/
theorem lineText_eq_ok {line : List UInt8} : lineText line = .ok text ↔ line = encode text := by
  unfold lineText
  constructor
  · intro h
    split at h
    · cases h
    · next hdecode =>
      cases h
      exact encode_of_decode? hdecode
  · rintro rfl
    rw [decode?_encode]

/-- A reply that is parsed is what the reader makes of it. -/
theorem parseReply_eq_ok (h : parseReply fromStr text = .ok response) :
    fromStr text = some response := by
  unfold parseReply at h
  split at h
  · cases h
  · split at h
    · cases h
    · next hfrom =>
      rw [hfrom]
      exact congrArg some (Except.ok.inj h)

/-- The text of a response is decoded to the response, with or without its newline. -/
theorem RespondsInJson.decodes (h : RespondsInJson toWriter fromStr) {after : List Char}
    (htext : IsValue Compact (.object r.fields) text) (hafter : Blank after) :
    fromStr (text ++ after) = some r := by
  have hall := IsElement.mk (fun _ hc => absurd hc List.not_mem_nil) htext.blank hafter
  rw [List.nil_append] at hall
  rw [h.reads _ _ r.nodup_fields r.isSimple_fields hall]
  exact r.ofFields_fields

/-- A response is written without a newline. -/
theorem WritesObjects.newline_notMem (h : WritesObjects toWriter) (r : DaemonResponse) :
    0x0a ∉ toWriter r := by
  obtain ⟨text, htext, hwrites⟩ := h r
  rw [hwrites]
  intro hmem
  have hcontrol := htext.printable '\n' (newline_of_mem_encode hmem)
  exact absurd hcontrol (by decide)

/-- No strict front of a response is decoded. -/
theorem RespondsInJson.cut (h : RespondsInJson toWriter fromStr)
    (htext : IsValue Compact (.object r.fields) text) (u w : List Char) (hw : text = u ++ w)
    (hstrict : w ≠ []) : fromStr u = none := by
  have hblank : Blank [] := fun _ hc => absurd hc List.not_mem_nil
  have hall := IsElement.mk hblank htext.blank hblank
  rw [List.nil_append, List.append_nil, hw] at hall
  exact h.rejects _ u w hall fun v => not_isText_of_prefix htext.blank hw hstrict

/-- A reply that was read is the line that came. -/
theorem readReply_eq_ok (h : readReply path received ending = .ok text) :
    lineOf received = encode text := by
  unfold readReply at h
  unfold lineOf
  split at h
  · next hnewline =>
    rw [if_pos hnewline]
    exact lineText_eq_ok.mp h
  · next hnewline =>
    rw [if_neg hnewline]
    cases ending with
    | closed => exact lineText_eq_ok.mp h
    | timedOut => cases h
    | failed => cases h

/-- A client that got the whole response line reads the response. -/
theorem reply_whole (h : RespondsInJson toWriter fromStr) :
    (readReply path (writeDaemonResponse toWriter r) ending).bind (parseReply fromStr) = .ok r := by
  obtain ⟨text, htext, hwrites⟩ := h.writes r
  have hline := lineOf_whole (h.writes.newline_notMem r)
  have hread : readReply path (writeDaemonResponse toWriter r) ending = .ok (text ++ ['\n']) := by
    unfold readReply
    unfold lineOf at hline
    rw [if_pos (by simp)] at hline
    rw [if_pos (by simp [writeDaemonResponse]), writeDaemonResponse, hline]
    refine lineText_eq_ok.mpr ?_
    rw [hwrites, encode_append]
    rfl
  have hfilled : (text ++ ['\n']).isEmpty = false := by simp
  have hblank : Blank ['\n'] := by simp [Blank, isSpace]
  rw [hread]
  change parseReply fromStr (text ++ ['\n']) = .ok r
  unfold parseReply
  rw [hfilled, h.decodes htext hblank]
  rfl

/-- A client that got the front of a response line reads the response, or fails. -/
theorem reply_front (h : RespondsInJson toWriter fromStr)
    (hfront : received <+: writeDaemonResponse toWriter r)
    (hreply : (readReply path received ending).bind (parseReply fromStr) = .ok response) :
    response = r := by
  obtain ⟨text, htext, hwrites⟩ := h.writes r
  have hnewline := h.writes.newline_notMem r
  rw [writeDaemonResponse] at hfront
  rw [hwrites] at hfront hnewline
  cases hread : readReply path received ending with
  | error e =>
    rw [hread] at hreply
    cases hreply
  | ok chars =>
    rw [hread] at hreply
    have hfrom := parseReply_eq_ok hreply
    rcases decoded_front (fun _ => h.decodes htext) (h.cut htext) hnewline hfront
      (readReply_eq_ok hread) with hdecoded | hdecoded
    · exact Option.some.inj (hfrom.symm.trans hdecoded)
    · cases hfrom.symm.trans hdecoded

end Exchange

/-! ## Requests that were cut -/

section Requests

variable {toWriter : DaemonRequest → List UInt8} {fromStr : List Char → Option DaemonRequest}
  {request other : DaemonRequest} {seen : List UInt8} {ending : Ending}

/-- What the daemon reads is the line at the front of what it looks at. -/
theorem lineOf_of_readLine {received line : List UInt8} (h : readLine received ending = some line) :
    lineOf (received.take maxRequestBytes) = line := by
  unfold lineOf
  by_cases hnewline : 0x0a ∈ received.take maxRequestBytes
  · rw [if_pos hnewline]
    simp only [readLine, if_pos hnewline] at h
    exact Option.some.inj h
  · rw [if_neg hnewline]
    simp only [readLine, if_neg hnewline] at h
    split at h
    · exact Option.some.inj h
    · cases h

/-- The daemon executes the request that it got the front of, or nothing. -/
theorem executes_front (h : FollowsRfc8259 toWriter fromStr)
    (hfront : seen <+: clientBytes toWriter request)
    (hexecutes : handleDaemonStream fromStr seen ending = .executes other) : other = request := by
  obtain ⟨text, htext, hwrites⟩ := h.writes request
  have hnewline : 0x0a ∉ toWriter request := h.newline_notMem
  have htaken : seen.take maxRequestBytes <+: encode text ++ [0x0a] := by
    rw [clientBytes, hwrites] at hfront
    exact (List.take_prefix ..).trans hfront
  rw [hwrites] at hnewline
  unfold handleDaemonStream at hexecutes
  split at hexecutes
  · cases hexecutes
  · next line hread =>
    have hline := lineOf_of_readLine hread
    split at hexecutes
    · cases hexecutes
    · next chars hdecode =>
      split at hexecutes
      · cases hexecutes
      · split at hexecutes
        · cases hexecutes
        · next found hfrom =>
          cases hexecutes
          rw [encode_of_decode? hdecode] at hline
          rcases decoded_front (fun _ => h.decodes htext)
            (fun u w hw hstrict => h.rejects u fun v => not_isText_of_prefix htext.blank hw hstrict)
            hnewline htaken hline with hdecoded | hdecoded
          · exact Option.some.inj (hfrom.symm.trans hdecoded)
          · cases hfrom.symm.trans hdecoded

end Requests

/-! ## Both ends -/

/-- The libraries of both ends. -/
structure Wire where
  writeRequest : DaemonRequest → List UInt8
  readRequest : List Char → Option DaemonRequest
  writeResponse : DaemonResponse → List UInt8
  readResponse : List Char → Option DaemonResponse

/-- Both ends follow RFC 8259. -/
structure Wire.Lawful (wire : Wire) : Prop where
  requests : FollowsRfc8259 wire.writeRequest wire.readRequest
  responses : RespondsInJson wire.writeResponse wire.readResponse

/-- A connection: the front of the request that the daemon sees, and what it then writes. -/
structure Connection where
  wire : Wire
  ops : Operations
  parseError : String
  seen : List UInt8
  ending : Ending

/-- The bytes that the daemon writes. -/
def Connection.written (connection : Connection) : List UInt8 :=
  IgnibyteBridge.written connection.wire.writeResponse connection.wire.readRequest connection.ops
    connection.parseError connection.seen connection.ending

/-- What the daemon executes. -/
def Connection.handled (connection : Connection) : Handled :=
  handleDaemonStream connection.wire.readRequest connection.seen connection.ending

/-- A handler without a response writes nothing. -/
theorem Connection.written_of_none (connection : Connection)
    (h : respond connection.ops connection.parseError connection.handled = none) :
    connection.written = [] := by
  unfold handled at h
  unfold written IgnibyteBridge.written
  rw [h]

/-- A handler with a response writes that response on one line. -/
theorem Connection.written_of_some (connection : Connection) {response : DaemonResponse}
    (h : respond connection.ops connection.parseError connection.handled = some response) :
    connection.written = writeDaemonResponse connection.wire.writeResponse response := by
  unfold handled at h
  unfold written IgnibyteBridge.written
  rw [h]

/-- The exchange of a request over a connection that can break in both directions. -/
structure Connection.Carries (connection : Connection) (request : DaemonRequest) (x : Exchange) :
    Prop where
  request : connection.seen <+: clientBytes connection.wire.writeRequest request
  response : x.received <+: connection.written

/-- The exchange of a request over a connection that does not break. -/
structure Connection.Delivers (connection : Connection) (request : DaemonRequest) (x : Exchange) :
    Prop where
  request : connection.seen = clientBytes connection.wire.writeRequest request
  response : x.received = connection.written
  connecting : x.connecting = .connected
  steps : x.setReadTimeout ∧ x.setWriteTimeout ∧ x.write ∧ x.finish ∧ x.flush

/-- A connection that does not break carries the request. -/
theorem Connection.Delivers.carries {connection : Connection} {request : DaemonRequest}
    {x : Exchange} (h : connection.Delivers request x) : connection.Carries request x where
  request := h.request ▸ List.prefix_rfl
  response := h.response ▸ List.prefix_rfl

/-- The exchange in which the client gets all that the daemon writes. -/
def Connection.exchange (connection : Connection) : Exchange where
  connecting := .connected
  received := connection.written
  ending := .closed

/-- The exchange of a connection is delivered when the daemon sees the client's bytes. -/
theorem Connection.delivers_exchange {connection : Connection} {request : DaemonRequest}
    (h : connection.seen = clientBytes connection.wire.writeRequest request) :
    connection.Delivers request connection.exchange where
  request := h
  response := rfl
  connecting := rfl
  steps := ⟨rfl, rfl, rfl, rfl, rfl⟩

section Connected

variable {connection : Connection} {request : DaemonRequest} {x shutdown : Exchange} {env : ClientEnv}
  {here : Local} {command : Commands} {output : String} {response : DaemonResponse}

/-- What a sequence of fallible steps returned was returned by its last one. -/
theorem bind_eq_ok {α β : Type} {y : Except String α} {f : α → Except String β} {z : β}
    (h : (y >>= f) = .ok z) : ∃ a, y = .ok a ∧ f a = .ok z := by
  cases y with
  | error e => cases h
  | ok a => exact ⟨a, rfl, h⟩

/-- The response that a client returns was read from the line it received. -/
theorem trySendDaemonRequest_eq_ok {fromStr : List Char → Option DaemonResponse}
    {answer : Option DaemonResponse} (hconnected : x.connecting = .connected)
    (h : trySendDaemonRequest fromStr env x = .ok answer) :
    ∃ path response, answer = some response ∧
      (readReply path x.received x.ending).bind (parseReply fromStr) = .ok response := by
  obtain ⟨path, -, h⟩ := bind_eq_ok h
  rw [hconnected] at h
  obtain ⟨-, -, h⟩ := bind_eq_ok h
  obtain ⟨-, -, h⟩ := bind_eq_ok h
  obtain ⟨-, -, h⟩ := bind_eq_ok h
  obtain ⟨-, -, h⟩ := bind_eq_ok h
  obtain ⟨-, -, h⟩ := bind_eq_ok h
  obtain ⟨line, hline, h⟩ := bind_eq_ok h
  obtain ⟨response, hresponse, h⟩ := bind_eq_ok h
  refine ⟨path, response, (Except.ok.inj h).symm, ?_⟩
  rw [hline]
  exact hresponse

/-- A client that received nothing has no response. -/
theorem no_reply {fromStr : List Char → Option DaemonResponse} {path : String}
    {ending : ReplyEnding} :
    (readReply path [] ending).bind (parseReply fromStr) ≠ .ok response := by
  intro h
  cases ending <;> cases h

/-- A client that has a response has that of the daemon, which executed its request if it
says so. -/
theorem Connection.Carries.answered (h : connection.Carries request x)
    (hwire : connection.wire.Lawful) {path : String}
    (hreply : (readReply path x.received x.ending).bind
      (parseReply connection.wire.readResponse) = .ok response) :
    respond connection.ops connection.parseError connection.handled = some response ∧
      (response.ok = true → connection.handled = .executes request) := by
  have hresponse := h.response
  cases hrespond : respond connection.ops connection.parseError connection.handled with
  | none =>
    rw [connection.written_of_none hrespond] at hresponse
    rw [List.prefix_nil.mp hresponse] at hreply
    exact absurd hreply no_reply
  | some r =>
    rw [connection.written_of_some hrespond] at hresponse
    obtain rfl := reply_front hwire.responses hresponse hreply
    refine ⟨rfl, fun hok => ?_⟩
    cases hhandled : connection.handled with
    | failed error =>
      rw [hhandled] at hrespond
      cases hrespond
    | ignored =>
      rw [hhandled] at hrespond
      cases hrespond
    | invalid =>
      rw [hhandled] at hrespond
      cases hrespond
      cases hok
    | executes other => rw [executes_front hwire.requests h.request hhandled]

/-- What a request returns that has the response `ok`. -/
theorem result_of_respond {ops : Operations} {parseError : String}
    (h : respond ops parseError (.executes request) = some response) (hok : response.ok = true) :
    (request = .shutdown ∧ response.output = "daemon shutting down\n") ∨
      ops.result request = some (.ok response.output) := by
  by_cases hshutdown : request = .shutdown
  · subst hshutdown
    cases h
    exact .inl ⟨rfl, rfl⟩
  · have hresult : (ops.result request).map DaemonResponse.ofResult = some response := by
      cases request <;> first | exact h | exact absurd rfl hshutdown
    obtain ⟨result, hsome, rfl⟩ := Option.map_eq_some_iff.mp hresult
    cases result with
    | error e => cases hok
    | ok output => exact .inr hsome

/-- **Nothing is reported that was not done.** Wherever the connection to a daemon breaks, in
either direction: if a command prints an output, then the daemon executed exactly that command's
request, with that result. -/
theorem clientMain_prints_result (hwire : connection.wire.Lawful)
    (hcarries : connection.Carries request x) (hconnected : x.connecting = .connected)
    (hrequest : daemonRequestForCommand env command = .ok (some request))
    (hprints : clientMain here connection.wire.readResponse env false x shutdown command =
      .ok output) :
    connection.handled = .executes request ∧
      ((request = .shutdown ∧ output = "daemon shutting down\n") ∨
        connection.ops.result request = some (.ok output)) := by
  obtain ⟨_, hcommand, hprints⟩ := bind_eq_ok hprints
  rw [hrequest] at hcommand
  cases hcommand
  obtain ⟨answer, hanswer, hprints⟩ := bind_eq_ok hprints
  obtain ⟨path, response, rfl, hreply⟩ := trySendDaemonRequest_eq_ok hconnected hanswer
  obtain ⟨hrespond, hexecuted⟩ := hcarries.answered hwire hreply
  change response.shown _ = _ at hprints
  unfold DaemonResponse.shown at hprints
  split at hprints
  · next hok =>
    cases hprints
    have hhandled := hexecuted hok
    rw [hhandled] at hrespond
    exact ⟨hhandled, result_of_respond hrespond hok⟩
  · cases hprints

/-- Over a connection that does not break, a client shows the daemon's response. -/
theorem Connection.Delivers.shown (h : connection.Delivers request x)
    (hwire : connection.wire.Lawful) {socket : String} (hsocket : env.socketPath = .ok socket)
    (hfits : (connection.wire.writeRequest request).length ≤ maxRequestBytes)
    (hrequest : daemonRequestForCommand env command = .ok (some request)) :
    ∃ response, respond connection.ops connection.parseError (.executes request) = some response ∧
      clientMain here connection.wire.readResponse env false x shutdown command =
        response.shown "daemon command failed" := by
  have hhandled : connection.handled = .executes request := by
    rw [Connection.handled, h.request, ← List.append_nil (clientBytes _ _)]
    exact handle_clientBytes hwire.requests hfits []
  obtain ⟨response, hresponse⟩ := respond_executes connection.ops connection.parseError request
  refine ⟨response, hresponse, ?_⟩
  have hreceived : x.received = writeDaemonResponse connection.wire.writeResponse response := by
    rw [h.response]
    refine connection.written_of_some ?_
    rwa [hhandled]
  have hreply : (readReply socket (writeDaemonResponse connection.wire.writeResponse response)
      x.ending).bind (parseReply connection.wire.readResponse) = .ok response :=
    reply_whole hwire.responses
  obtain ⟨line, hline, hparse⟩ := bind_eq_ok hreply
  obtain ⟨hread, hwrite, hsent, hfinish, hflush⟩ := h.steps
  have hanswer : trySendDaemonRequest connection.wire.readResponse env x = .ok (some response) := by
    unfold trySendDaemonRequest
    simp only [hsocket, h.connecting, hread, hwrite, hsent, hfinish, hflush, hreceived, checked]
    change (readReply socket _ x.ending >>= fun line => _) = _
    rw [hline]
    change (parseReply connection.wire.readResponse line >>= fun response => _) = _
    rw [hparse]
    rfl
  unfold clientMain
  rw [hrequest]
  change (trySendDaemonRequest connection.wire.readResponse env x >>= _) = _
  rw [hanswer]
  rfl

/-- The response to a request shows its result. -/
theorem shown_of_result {ops : Operations} {parseError otherwise : String}
    {result : Except String String} (hresult : ops.result request = some result)
    (h : respond ops parseError (.executes request) = some response) :
    response.shown otherwise = result := by
  have hresponse : (ops.result request).map DaemonResponse.ofResult = some response := by
    cases request <;> first | exact h | cases hresult
  rw [hresult] at hresponse
  obtain rfl := Option.some.inj hresponse
  cases result <;> rfl

/-- Without the daemon a command other than a start prints what its operation returns. -/
theorem Local.run_eq {fromStr : List Char → Option DaemonResponse}
    (hrequest : daemonRequestForCommand env command = .ok (some request))
    (hshutdown : request ≠ .shutdown)
    (hstart : ∀ name cwd cmd rows cols, command ≠ .start name cwd cmd rows cols) :
    here.toOperations.result request = some (here.run fromStr env shutdown command) := by
  cases command with
  | start name cwd cmd rows cols => exact absurd rfl (hstart name cwd cmd rows cols)
  | shutdown =>
    cases hrequest
    exact absurd rfl hshutdown
  | daemon => cases hrequest
  | doctor => cases hrequest
  | supervisor => cases hrequest
  | _ =>
    cases hrequest
    rfl

/-- **Daemon mode and direct mode agree.** A command whose request fits the cap, over a
connection that does not break, prints what the daemon's operation returns, or fails with
its error. But for starts and shutdowns that is what the command does without the daemon. -/
theorem clientMain_agrees (hwire : connection.wire.Lawful)
    (hdelivers : connection.Delivers request x) {socket : String}
    (hsocket : env.socketPath = .ok socket)
    (hfits : (connection.wire.writeRequest request).length ≤ maxRequestBytes)
    (hrequest : daemonRequestForCommand env command = .ok (some request)) :
    (request = .shutdown →
      clientMain here connection.wire.readResponse env false x shutdown command =
        .ok "daemon shutting down\n") ∧
    (∀ result, connection.ops.result request = some result →
      clientMain here connection.wire.readResponse env false x shutdown command = result) ∧
    (here.toOperations = connection.ops → request ≠ .shutdown →
      (∀ name cwd cmd rows cols, command ≠ .start name cwd cmd rows cols) →
        clientMain here connection.wire.readResponse env false x shutdown command =
          clientMain here connection.wire.readResponse env true x shutdown command) := by
  obtain ⟨response, hrespond, hshown⟩ := hdelivers.shown hwire hsocket hfits hrequest
  have hresult : ∀ result, connection.ops.result request = some result →
      clientMain here connection.wire.readResponse env false x shutdown command = result := by
    intro result hresult
    rw [hshown]
    exact shown_of_result hresult hrespond
  refine ⟨?_, hresult, fun hsame hshutdown hstart => ?_⟩
  · rintro rfl
    cases hrespond
    exact hshown
  · refine hresult _ ?_
    rw [← hsame]
    exact Local.run_eq hrequest hshutdown hstart

end Connected

/-- A reader of responses, over the derived implementation. -/
def readResponse (text : List Char) : Option DaemonResponse :=
  match Json.read text with
  | some (.object fields) => DaemonResponse.ofFields fields
  | _ => none

/-- Both ends print and read as the grammar says. -/
def jsonWire : Wire := ⟨printRequest, readRequest, printResponse, readResponse⟩

/-- The JSON printer and reader are a lawful wire. -/
theorem lawful_jsonWire : jsonWire.Lawful where
  requests := followsRfc8259
  responses := by
    refine ⟨writesObjects_print, fun fields text _ _ htext => ?_, fun _ text _ _ hnone => ?_⟩
    · change readResponse text = _
      rw [readResponse, read_of_isText htext]
    · change readResponse text = none
      unfold readResponse
      split
      · next hread => exact absurd (isText_of_read hread) (hnone _)
      · rfl

/-- An environment with a socket. -/
def demoEnv : ClientEnv := ⟨fun cwd => .ok (cwd.getD "/tmp"), some "/usr/bin", .ok "/run/bridge.sock"⟩

/-- A process that has no sessions either. -/
def demoLocal : Local where
  toOperations := noSessions
  startDirectly _ _ _ _ _ := .error "failed to parse command"
  runDaemon := .ok ""
  doctor _ _ := .ok ""
  runSupervisor _ _ _ := .ok ""

/-- The daemon sees a whole request to list the sessions. -/
def listConnection : Connection :=
  ⟨jsonWire, noSessions, "", clientBytes printRequest .list, .failed⟩

/-- The example's connection delivers its request. -/
theorem delivers_list : listConnection.Delivers .list listConnection.exchange :=
  Connection.delivers_exchange rfl

/-- The example's request is shorter than the cap. -/
theorem fits_list : (jsonWire.writeRequest .list).length ≤ maxRequestBytes := by decide +kernel

/-- The list is printed, so the daemon executed the request. -/
theorem clientMain_prints_result_list :
    listConnection.handled = .executes .list ∧
      ((DaemonRequest.list = .shutdown ∧ "no sessions\n" = "daemon shutting down\n") ∨
        noSessions.result .list = some (.ok "no sessions\n")) := by
  have hprints : clientMain demoLocal readResponse demoEnv false listConnection.exchange
      listConnection.exchange .list = .ok "no sessions\n" := by
    have hrequest : daemonRequestForCommand demoEnv .list = .ok (some .list) := rfl
    obtain ⟨response, hrespond, hshown⟩ :=
      delivers_list.shown lawful_jsonWire rfl fits_list hrequest
    have hresult : noSessions.result .list = some (.ok "no sessions\n") := rfl
    rw [← shown_of_result hresult hrespond]
    exact hshown
  exact clientMain_prints_result lawful_jsonWire delivers_list.carries rfl rfl hprints

/-- The client prints the same with and without the daemon. -/
theorem clientMain_agrees_list :
    clientMain demoLocal readResponse demoEnv false listConnection.exchange
        listConnection.exchange .list =
      clientMain demoLocal readResponse demoEnv true listConnection.exchange
        listConnection.exchange .list := by
  have hrequest : daemonRequestForCommand demoEnv .list = .ok (some .list) := rfl
  obtain ⟨-, -, hdirect⟩ := clientMain_agrees lawful_jsonWire delivers_list rfl fits_list hrequest
  refine hdirect rfl (by decide) ?_
  intro name cwd cmd rows cols h
  cases h

end IgnibyteBridge
