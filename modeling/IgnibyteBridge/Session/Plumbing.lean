import IgnibyteBridge.Session.Messages
import IgnibyteBridge.Session.Repertoire

/-!
# What a thread knows about input

The discipline of input: a call writes the parts of its message in their order to
the FIFO of its session, an owner passes the FIFO that it opened on to one
forwarder, and a forwarder writes what it has read until it closes the FIFO. Only
then it drops its PTY writer.
-/

namespace IgnibyteBridge

open Concurrency Program Fallible

/-- What a thread knows about the input of a session. -/
structure Plumbing where
  /-- The session that its request sends input to. -/
  session : Option String := none
  /-- The parts of its message, and the pieces that it has written. -/
  parts : List (List UInt8) := []
  pieces : List (List UInt8) := []
  /-- The FIFO that it opened for writing. -/
  aim : Option ℕ := none
  /-- The sessions whose records it has loaded. -/
  seen : List String := []
  /-- The session whose run it owns, with the PTY and the FIFO that it opened. -/
  own : Option String := none
  pty : Option ℕ := none
  fifo : Option ℕ := none
  /-- The forwarder that it started. -/
  forwarder : Option ℕ := none
  /-- The FIFO and the PTY that it forwards between. -/
  forwards : Option (ℕ × ℕ) := none
  /-- The FIFO that it holds open for reading. -/
  reads : Option ℕ := none
  /-- It has dropped its PTY writer. -/
  dropped : Bool := false
  /-- What it has read and not written, unless a write failed. -/
  hand : Option (List UInt8) := some []

namespace Plumbing

/-- The thread owns a run of the session and has opened no FIFO. -/
structure Unopened (g : Plumbing) (name : String) : Prop where
  own : g.own = some name
  fifo : g.fifo = none
  reads : g.reads = none
  forwarder : g.forwarder = none
  forwards : g.forwards = none

/-- The obligation before an action. -/
def pre (env : Env) : Act → Plumbing → Prop
  | .process (.openPty ..), g => g.own ≠ none
  | .process (.spawnForward fifo pty), g =>
    g.own ≠ none ∧ g.fifo = some fifo ∧ g.pty = some pty ∧ g.forwarder = none ∧
      g.reads = some fifo
  | .file (.openFifo name), g => g.Unopened name ∧ name ∈ g.seen
  | .file (.closeFifo fifo), g => g.reads = some fifo
  | .file (.openFifoWriter name), g => g.session = some name ∧ name ∈ g.seen
  | .file (.writeFifo fifo bytes), g =>
    g.aim = some fifo ∧ bytes ≠ [] ∧ ∃ rest, Written g.parts g.pieces (bytes :: rest)
  | .file (.readFifo fifo), g =>
    (∃ pty, g.forwards = some (fifo, pty)) ∧ g.reads = some fifo ∧ g.hand = some []
  | .file (.writePty pty bytes), g =>
    (∃ fifo, g.forwards = some (fifo, pty) ∧ g.reads = some fifo) ∧ g.hand = some bytes
  | .file (.dropWriter pty farewell), g =>
    farewell = env.farewell ∧ g.reads = none ∧ g.dropped = false ∧
      ∃ fifo, g.forwards = some (fifo, pty)
  | _, _ => True

/-- What may be relied on about a response. -/
def fact : (a : Act) → Plumbing → a.Response → Prop
  | .file (.writeFifo _ bytes), _, some count => bytes.length ≤ pipeBuf → count = bytes.length
  | _, _, _ => True

/-- What a thread knows after an action. -/
def post : (a : Act) → Plumbing → a.Response → Plumbing
  | .disk (.loadMetadata name), g, .ok _ => { g with seen := name :: g.seen }
  | .process (.openPty ..), g, pty => { g with pty := pty }
  | .process (.spawnForward ..), g, j => { g with forwarder := some j, reads := none }
  | .file (.openFifo _), g, fifo => { g with fifo := fifo, reads := fifo }
  | .file (.closeFifo _), g, _ => { g with reads := none }
  | .file (.openFifoWriter _), g, .opened fifo => { g with aim := some fifo }
  | .file (.writeFifo _ bytes), g, some count =>
    { g with pieces := g.pieces ++ [bytes.take count] }
  | .file (.readFifo _), g, some bytes => { g with hand := some bytes }
  | .file (.writePty _ _), g, ok => { g with hand := if ok then some [] else none }
  | .file (.dropWriter ..), g, _ => { g with dropped := true }
  | _, g, _ => g

/-- What a thread knows when another thread starts it. -/
def fresh : (a : Act) → Plumbing → a.Response → Plumbing
  | .process (.spawnSupervisor name _ _), _, _ => { own := some name }
  | .process (.spawnOwner name _ _ _ _), _, _ => { own := some name }
  | .process (.spawnForward fifo pty), _, _ =>
    { forwards := some (fifo, pty), reads := some fifo }
  | _, _, _ => {}

/-- The discipline of input. -/
def discipline (env : Env) : Discipline Act Act.Response Plumbing where
  pre := pre env
  fact := fact
  post := post

/-- Actions that a thread learns nothing from but that a session has a record. -/
def aside : Act → Bool
  | .process (.openPty ..) | .process (.spawnForward ..) => false
  | .file (.openFifo _) | .file (.closeFifo _) | .file (.openFifoWriter _) => false
  | .file (.writeFifo ..) | .file (.readFifo _) | .file (.writePty ..) => false
  | .file (.dropWriter ..) => false
  | _ => true

/-- Starts and shutdowns have nothing to do with pipes. -/
theorem aside_of_directs (a : Act) (h : a.directs = true) : aside a = true := by
  unfold aside
  split <;> first | rfl | cases h

/-- Owners with their records have nothing to do with pipes. -/
theorem aside_of_records (a : Act) (h : a.records = true) : aside a = true := by
  unfold aside
  split <;> first | rfl | cases h

/-- Capturing output has nothing to do with pipes. -/
theorem aside_of_captures (a : Act) (h : a.captures = true) : aside a = true := by
  unfold aside
  split <;> first | rfl | cases h

/-- The end of a thread has nothing to do with pipes. -/
theorem aside_of_leaves (a : Act) (h : a.leaves = true) : aside a = true := by
  unfold aside
  split <;> first | rfl | cases h

/-- Stops have nothing to do with pipes. -/
theorem manages_aside (a : Act) (h : a.manages = true) : aside a = true :=
  manages_of_directs aside_of_directs a h

/-- An action on processes that has nothing to do with pipes. -/
theorem aside_proc {a : ProcessAct} (h : aside (.process a) = true) :
    Performs (fun a => aside a = true) (proc a) :=
  performs_proc h

/-- An action on files that has nothing to do with pipes. -/
theorem aside_file {a : FileAct} (h : aside (.file a) = true) :
    Performs (fun a => aside a = true) (file a) :=
  performs_file h

/-- Two stages of a thread between which it only found that sessions have records. -/
structure Sees (g g' : Plumbing) : Prop where
  same : g' = { g with seen := g'.seen }
  seen : ∀ n ∈ g.seen, n ∈ g'.seen

/-- Doing nothing changes nothing. -/
theorem Sees.refl (g : Plumbing) : g.Sees g := ⟨rfl, fun _ => id⟩

/-- Two parts change nothing if each does not. -/
theorem Sees.trans {g g' g'' : Plumbing} (h : g.Sees g') (h' : g'.Sees g'') : g.Sees g'' where
  same := by rw [h'.same, h.same]
  seen n hn := h'.seen n (h.seen n hn)

/-- An owner that opened no FIFO has opened none later. -/
theorem Unopened.sees {g g' : Plumbing} {name : String} (h : g.Unopened name) (hsees : g.Sees g') :
    g'.Unopened name := by
  rw [hsees.same]
  exact ⟨h.own, h.fifo, h.reads, h.forwarder, h.forwards⟩

/-- The PTY is the same. -/
theorem Sees.pty {g g' : Plumbing} (h : g.Sees g') : g'.pty = g.pty := by rw [h.same]

variable {env : Env} {g : Plumbing}

/-- Such an action needs nothing. -/
theorem pre_of_aside {a : Act} (ha : aside a = true) : pre env a g := by
  unfold pre
  split <;> trivial

/-- All that it teaches is that a session has a record. -/
theorem sees_post {a : Act} (ha : aside a = true) (r : a.Response) : g.Sees (post a g r) := by
  unfold post
  split
  case h_1 => exact ⟨rfl, fun _ hn => List.mem_cons_of_mem _ hn⟩
  all_goals first | exact .refl g | cases ha

/-- A forwarder goes on with nothing in hand, and a call that succeeded wrote all of
its message. -/
def Finished : ThreadResult → Plumbing → Prop
  | .replied (.ok _), g => Written g.parts g.pieces []
  | .forwarding fifo pty, g =>
    g.forwards = some (fifo, pty) ∧ g.hand = some [] ∧ g.reads = some fifo ∧ g.dropped = false
  | _, _ => True

/-- A thread may leave with any result that it may end with. -/
theorem follows_leave (result : ThreadResult) (h : Finished result g) :
    (leave result).Follows (discipline env) Finished g :=
  ⟨trivial, fun _ _ => h⟩

/-- A program that only learns that sessions have records, and what follows it. -/
theorem follows_aside {α β : Type} {p : Prog α} {next : α → Prog β} {Q : β → Plumbing → Prop}
    (h : p.Only (fun a => aside a = true) fun _ => True)
    (hnext : ∀ x g', g.Sees g' → (next x).Follows (discipline env) Q g') :
    (p >>= next).Follows (discipline env) Q g := by
  rw [follows_bind]
  exact (h.follows (I := fun g' => g.Sees g') (fun _ _ ha _ => pre_of_aside ha)
    (fun _ _ r ha hg' _ => hg'.trans (sees_post ha r)) (.refl g)).mono fun x g' h => hnext x g' h.2

/-- A function that has nothing to do with pipes changes nothing. -/
theorem meets_aside {α : Type} {p : Result α} {Q : α → Plumbing → Prop}
    {E : String → Plumbing → Prop} (h : Performs (fun a => aside a = true) p)
    (hok : ∀ x g', g.Sees g' → Q x g') (herror : ∀ e g', g.Sees g' → E e g') :
    Meets (discipline env) Q E p g :=
  (h.meets (I := fun g' => g.Sees g') (fun _ _ ha _ => pre_of_aside ha)
    (fun _ _ r ha hg' _ => hg'.trans (sees_post ha r)) (.refl g)).mono hok herror

/-! ## Calls -/

/-- A load that succeeds shows that the session has a record. -/
theorem meets_loadMetadata {name : String} {Q : SessionMetadata → Plumbing → Prop}
    {E : String → Plumbing → Prop}
    (hok : ∀ m, Q m { g with seen := name :: g.seen }) (herror : ∀ e, E e g) :
    Meets (discipline env) Q E (loadMetadata name) g := by
  unfold loadMetadata
  rw [meets_bind]
  refine meets_sessionDir (fun _ => ?_) fun _ _ => herror _
  rw [meets_bind]
  refine (meets_disk _ _).mpr ⟨trivial, fun r _ => ?_⟩
  cases r with
  | ok m => exact hok m
  | error e => exact herror e

/-- What is left of a part is written in pieces. -/
theorem meets_writeAll {fifo : ℕ} {rest : List (List UInt8)} (n : ℕ) (bytes : List UInt8)
    (haim : g.aim = some fifo) (hg : Written g.parts g.pieces (bytes :: rest)) :
    Meets (discipline env) (fun _ g' => (g'.session = g.session ∧ g'.parts = g.parts) ∧
      Written g'.parts g'.pieces rest) (fun _ _ => True) (writeAll fifo n bytes) g := by
  induction n generalizing g bytes with
  | zero =>
    cases bytes with
    | nil => exact ⟨⟨rfl, rfl⟩, hg.next⟩
    | cons byte bytes => trivial
  | succ n ih =>
    cases bytes with
    | nil => exact ⟨⟨rfl, rfl⟩, hg.next⟩
    | cons byte bytes =>
      unfold writeAll
      rw [meets_bind]
      refine (meets_file _ _).mpr ⟨⟨haim, by simp, rest, hg⟩, fun r hr => ?_⟩
      match r with
      | none => trivial
      | some 0 => trivial
      | some (count + 1) =>
        exact ih (g := { g with pieces := g.pieces ++ [(byte :: bytes).take (count + 1)] })
          (bytes.drop count) haim (.piece (count + 1) hg (by simp) hr)

/-- One part of a message is written. -/
theorem meets_writeSessionBytes {name : String} {bytes : List UInt8} {rest : List (List UInt8)}
    (hsession : g.session = some name) (hg : Written g.parts g.pieces (bytes :: rest)) :
    Meets (discipline env) (fun _ g' => (g'.session = g.session ∧ g'.parts = g.parts) ∧
      Written g'.parts g'.pieces rest) (fun _ _ => True) (writeSessionBytes name bytes) g := by
  unfold writeSessionBytes
  rw [meets_bind]
  refine meets_sessionDir (fun _ => ?_) fun _ _ => trivial
  rw [meets_bind]
  refine meets_loadMetadata (fun m => ?_) fun _ => trivial
  dsimp only
  split
  · exact trivial
  · rw [meets_bind]
    refine (meets_file _ _).mpr ⟨⟨hsession, List.mem_cons_self⟩, fun r _ => ?_⟩
    cases r with
    | noReader => trivial
    | failed => trivial
    | opened fifo =>
      dsimp only
      rw [meets_bind]
      refine (meets_proc _ _).mpr ⟨trivial, fun ok _ => ?_⟩
      rw [meets_bind]
      refine meets_ensure (fun _ => ?_) fun _ => trivial
      exact meets_writeAll (g := { g with aim := some fifo, seen := name :: g.seen })
        bytes.length bytes rfl hg

/-- A send that succeeds wrote its text and its carriage return. -/
theorem meets_sendInputSilent (name : String) (text : List UInt8) (noEnter : Bool)
    (hsession : g.session = some name)
    (hg : Written g.parts g.pieces (if noEnter then [text] else [text, [0x0d]])) :
    Meets (discipline env) (fun _ g' => Written g'.parts g'.pieces []) (fun _ _ => True)
      (sendInputSilent name text noEnter) g := by
  unfold sendInputSilent
  rw [meets_bind]
  cases noEnter with
  | true => exact (meets_writeSessionBytes hsession hg).mono (fun _ _ h => h.2) fun _ _ => id
  | false =>
    refine (meets_writeSessionBytes hsession hg).mono (fun _ g' h => ?_) fun _ _ => id
    exact (meets_writeSessionBytes (h.1.1.trans hsession) h.2).mono (fun _ _ h => h.2) fun _ _ => id

/-- A keys call that succeeds wrote the encoded keys. -/
theorem meets_sendKeysSilent (name : String) (keys : List String) (hsession : g.session = some name)
    (hg : Written g.parts g.pieces (encodeKeys keys).toOption.toList) :
    Meets (discipline env) (fun _ g' => Written g'.parts g'.pieces []) (fun _ _ => True)
      (sendKeysSilent name keys) g := by
  unfold sendKeysSilent
  split
  · exact trivial
  · rw [meets_bind]
    refine meets_try (fun bytes hbytes => ?_) fun _ _ => trivial
    rw [hbytes] at hg
    exact (meets_writeSessionBytes hsession hg).mono (fun _ _ h => h.2) fun _ _ => id

/-- A call that wrote its message when it succeeds is replied to. -/
theorem follows_reply {α : Type} {p : Result α}
    (h : Meets (discipline env) (fun _ g' => Written g'.parts g'.pieces []) (fun _ _ => True) p g) :
    (reply p).Follows (discipline env) Finished g := by
  rw [reply, follows_bind, follows_run]
  exact h.mono (fun _ _ hg => follows_leave _ hg) fun _ _ _ => follows_leave _ trivial

/-- A request without a message. -/
theorem follows_reply_aside {α : Type} {p : Result α} (h : Performs (fun a => aside a = true) p)
    (hparts : g.parts = []) (hpieces : g.pieces = []) :
    (reply p).Follows (discipline env) Finished g :=
  follows_reply <| meets_aside h (fun _ g' hg' => by
    rw [hg'.same]
    dsimp only
    rw [hparts, hpieces]
    exact .start) fun _ _ _ => trivial

/-- A shutdown has no message. -/
theorem follows_handleShutdown (env : Env) :
    (handleShutdown env).Follows (discipline env) Finished g := by
  rw [handleShutdown, follows_bind]
  refine ⟨trivial, fun acknowledged _ => ?_⟩
  cases acknowledged with
  | false => exact follows_leave _ trivial
  | true =>
    exact follows_aside (performs_shutdownSessionsForDaemon aside_of_directs env).run
      fun _ _ _ => ⟨trivial, fun _ _ => trivial⟩

/-- The ghost state of a thread that serves a request. -/
def asked (request : Option Request) : Plumbing where
  session := addressee request
  parts := messageParts request

/-- Every request writes its message, if it has one. -/
theorem follows_program (env : Env) (request : Request) :
    (request.program env).Follows (discipline env) Finished (asked (some request)) := by
  obtain ⟨viaDaemon, command⟩ := request
  cases command with
  | start name cwd cmd path rows cols =>
    cases viaDaemon with
    | true => exact follows_reply_aside (performs_startSessionInDaemon aside_of_directs ..) rfl rfl
    | false => exact follows_reply_aside (performs_startSessionDetached aside_of_directs ..) rfl rfl
  | send name text noEnter => exact follows_reply (meets_sendInputSilent name text noEnter rfl .start)
  | keys name names => exact follows_reply (meets_sendKeysSilent name names rfl .start)
  | stop name => exact follows_reply_aside (performs_stopSessionSilent manages_aside _) rfl rfl
  | shutdown =>
    cases viaDaemon with
    | true => exact follows_handleShutdown env
    | false => exact follows_leave _ trivial

/-! ## Owners -/

/-- The rest of an owner's work asks nothing. -/
theorem meets_done {α : Type} {p : Result α} {Q : α → Plumbing → Prop}
    {E : String → Plumbing → Prop} (h : Performs (fun a => aside a = true) p)
    (hok : ∀ x g', Q x g') (herror : ∀ e g', E e g') : Meets (discipline env) Q E p g :=
  meets_aside h (fun x g' _ => hok x g') fun e g' _ => herror e g'

/-- An owner passes its FIFO on to a forwarder. -/
theorem meets_serveChild (name : String) (pty child fifo rows cols : ℕ)
    (hpre : pre env (.process (.spawnForward fifo pty)) g) :
    Meets (discipline env) (fun _ _ => True) (fun _ _ => True)
      (serveChild name pty child fifo rows cols) g := by
  unfold serveChild
  rw [meets_bind]
  refine (meets_proc _ _).mpr ⟨trivial, fun output _ => ?_⟩
  rw [meets_bind]
  refine (meets_proc _ _).mpr ⟨hpre, fun input _ => ?_⟩
  refine meets_done (g := { g with forwarder := some input, reads := none }) ?_
    (fun _ _ => trivial) fun _ _ => trivial
  refine (aside_proc rfl).bind fun waited => ?_
  refine (performs_orThrow _ waited).bind fun ended => ?_
  refine (aside_file rfl).bind fun _ => ?_
  refine (aside_proc rfl).bind fun _ => ?_
  refine (aside_proc rfl).bind fun _ => ?_
  refine (aside_file rfl).bind fun _ => ?_
  exact (aside_proc rfl).bind fun _ => trivial

/-- A lock is held around a section that may be left with an error. -/
theorem meets_withStatusLock {α : Type} {name : String} {body : Result α}
    {Q : α → Plumbing → Prop} {E : String → Plumbing → Prop}
    (hbody : Meets (discipline env) Q E body g) (herror : ∀ e, E e g) :
    Meets (discipline env) Q E (withStatusLock name body) g := by
  unfold withStatusLock
  rw [meets_bind]
  refine (meets_disk _ _).mpr ⟨trivial, fun r _ => ?_⟩
  cases r with
  | held =>
    dsimp only
    rw [meets_bind, meets_caught]
    refine Meets.mono hbody (fun x g' hg' => ?_) fun e g' hg' => ?_
    all_goals
      rw [meets_bind]
      exact (meets_disk _ _).mpr ⟨trivial, fun _ _ => hg'⟩
  | _ => exact herror _

/-- A child is recorded in a record. -/
theorem meets_recordChild (name : String) (generation child : ℕ) (command : List String) :
    Meets (discipline env) (fun _ g' => g.Sees g' ∧ name ∈ g'.seen) (fun _ _ => True)
      (recordChild name generation child command) g := by
  refine meets_withStatusLock ?_ fun _ => trivial
  rw [meets_bind]
  refine meets_loadMetadata (fun m => ?_) fun _ => trivial
  refine meets_aside ?_ (fun _ g' hg' => ⟨?_, hg'.seen name List.mem_cons_self⟩) fun _ _ _ => trivial
  · refine (performs_try _).bind fun _ => ?_
    exact (aside_proc rfl).bind fun startTime => performs_saveMetadata manages_aside _ _
  · exact Sees.trans ⟨rfl, fun _ hn => List.mem_cons_of_mem _ hn⟩ hg'

/-- An owner opens its FIFO once the session has a record, and closes or passes it on. -/
theorem meets_superviseChild (name : String) (generation pty child rows cols : ℕ)
    (command : List String) (hg : g.Unopened name) (hpty : g.pty = some pty) :
    Meets (discipline env) (fun _ _ => True) (fun _ _ => True)
      (superviseChild env name generation pty child rows cols command) g := by
  unfold superviseChild
  rw [meets_bind]
  refine (meets_recordChild name generation child command).mono (fun _ g₁ h₁ => ?_) fun _ _ => id
  obtain ⟨hsees₁, hseen⟩ := h₁
  have hg₁ := hg.sees hsees₁
  rw [meets_bind]
  refine (meets_file _ _).mpr ⟨⟨hg₁, hseen⟩, fun r _ => ?_⟩
  rw [meets_bind]
  refine meets_orThrow (fun fifo hfifo => ?_) fun _ => trivial
  subst hfifo
  rw [meets_bind, meets_caught]
  have hown : g₁.own ≠ none := by simp [hg₁.own]
  have hpty₁ : g₁.pty = some pty := hsees₁.pty.trans hpty
  refine meets_aside (performs_publish aside_of_records name generation) (fun _ g₂ h₂ => ?_)
    fun e g₂ h₂ => ?_
  · refine meets_serveChild name pty child fifo rows cols ?_
    rw [h₂.same]
    exact ⟨hown, rfl, hpty₁, hg₁.forwarder, rfl⟩
  · -- The FIFO is still the owner's own.
    have hreads : g₂.reads = some fifo := by
      rw [h₂.same]
      rfl
    dsimp only
    rw [meets_bind]
    exact (meets_file _ _).mpr ⟨hreads, fun _ _ => trivial⟩

/-- An owner that has opened no FIFO opens a PTY, spawns its child and serves it. -/
theorem meets_supervisePty (name cwd cmd : String) (clientPath : Option String)
    (generation : ℕ) (hg : g.Unopened name) :
    Meets (discipline env) (fun _ _ => True) (fun _ _ => True)
      (supervisePty env name cwd cmd clientPath generation) g := by
  unfold supervisePty
  rw [meets_bind]
  refine meets_try (fun command _ => ?_) fun _ _ => trivial
  rw [meets_bind]
  refine meets_sessionDir (fun _ => ?_) fun _ _ => trivial
  rw [meets_bind, meets_caught]
  refine meets_aside (performs_loadMetadata manages_aside name) (fun m g₁ h₁ => ?_)
    fun e g₁ h₁ => ?_
  all_goals
    have hg₁ := hg.sees h₁
    dsimp only
    rw [meets_bind]
    refine (meets_proc _ _).mpr ⟨by simp [discipline, pre, hg₁.own], fun r _ => ?_⟩
    rw [meets_bind]
    refine meets_orThrow (fun pty hpty => ?_) fun _ => trivial
    subst hpty
    rw [meets_bind]
    refine (meets_proc _ _).mpr ⟨trivial, fun r _ => ?_⟩
    rw [meets_bind]
    refine meets_orThrow (fun child _ => ?_) fun _ => trivial
    rw [meets_bind, meets_caught]
    have hopened : { g₁ with pty := some pty }.Unopened name :=
      ⟨hg₁.own, hg₁.fifo, hg₁.reads, hg₁.forwarder, hg₁.forwards⟩
    refine (meets_superviseChild name generation pty child _ _ _ hopened rfl).mono
      (fun _ _ _ => trivial) fun e g₂ _ => ?_
    refine meets_done ?_ (fun _ _ => trivial) fun _ _ => trivial
    refine (aside_proc rfl).bind fun _ => ?_
    exact (aside_proc rfl).bind fun _ => trivial

/-- The rest of an owner's work is not about pipes. -/
theorem meets_superviseAndMark (name cwd cmd : String) (clientPath : Option String)
    (generation : ℕ) (hg : g.Unopened name) :
    Meets (discipline env) (fun _ _ => True) (fun _ _ => True)
      (superviseAndMark env name cwd cmd clientPath generation) g := by
  unfold superviseAndMark
  rw [meets_bind, meets_caught]
  refine (meets_supervisePty name cwd cmd clientPath generation hg).mono
    (fun x g' _ => ?_) fun e g' _ => ?_
  all_goals
    exact meets_done (performs_markStopped manages_aside ..) (fun _ _ => trivial) fun _ _ => trivial

/-- What a supervisor does first is not about pipes. -/
theorem meets_runSupervisor (name cwd cmd : String) (hg : g.Unopened name) :
    Meets (discipline env) (fun _ _ => True) (fun _ _ => True)
      (runSupervisor env name cwd cmd) g := by
  unfold runSupervisor
  rw [meets_bind]
  refine meets_sessionDir (fun _ => ?_) fun _ _ => trivial
  rw [meets_bind]
  refine meets_aside (performs_adoptRun aside_of_records name) (fun generation g₁ h₁ => ?_)
    fun _ _ _ => trivial
  exact meets_superviseAndMark name cwd cmd none generation (hg.sees h₁)

/-! ## Threads -/

/-- A forwarder closes its FIFO and then drops its PTY writer, once. -/
theorem follows_leaveForward {fifo pty : ℕ} (hforwards : g.forwards = some (fifo, pty))
    (hreads : g.reads = some fifo) (hdropped : g.dropped = false) :
    (leaveForward env fifo pty).Follows (discipline env) Finished g := by
  refine ⟨hreads, fun _ _ => ⟨⟨rfl, rfl, hdropped, fifo, hforwards⟩, fun _ _ => ?_⟩⟩
  exact follows_leave _ trivial

/-- What a forwarder reads it writes before it reads again, or it leaves. -/
theorem follows_forwardStep (fifo pty : ℕ) (hg : Finished (.forwarding fifo pty) g) :
    (forwardStep env fifo pty).Follows (discipline env) Finished g := by
  obtain ⟨hforwards, hhand, hreads, hdropped⟩ := id hg
  refine ⟨trivial, fun stop _ => ?_⟩
  cases stop with
  | true => exact follows_leaveForward hforwards hreads hdropped
  | false =>
    refine ⟨⟨⟨pty, hforwards⟩, hreads, hhand⟩, fun r _ => ?_⟩
    match r with
    | none => exact follows_leaveForward hforwards hreads hdropped
    | some [] => exact ⟨hforwards, rfl, hreads, hdropped⟩
    | some (byte :: bytes) =>
      refine ⟨⟨⟨fifo, hforwards, hreads⟩, rfl⟩, fun ok _ => ?_⟩
      cases ok with
      | true => exact ⟨hforwards, rfl, hreads, hdropped⟩
      | false => exact follows_leaveForward hforwards hreads hdropped

/-- Every thread that another one starts follows the discipline. -/
theorem follows_launched {a : Act} {r : a.Response} {j : ℕ} {p : Prog ThreadResult}
    (h : launched env a r = some (j, p)) : p.Follows (discipline env) Finished (fresh a g r) := by
  unfold launched at h
  split at h <;> cases h
  · unfold supervisorMain
    rw [follows_bind, follows_run]
    refine (meets_runSupervisor _ _ _ ⟨rfl, rfl, rfl, rfl, rfl⟩).mono (fun _ _ _ => ?_)
      fun _ _ _ => ?_
    all_goals exact ⟨trivial, fun _ _ => trivial⟩
  · unfold ownerThread
    rw [follows_bind, follows_run]
    refine (meets_superviseAndMark _ _ _ _ _ ⟨rfl, rfl, rfl, rfl, rfl⟩).mono (fun _ _ _ => ?_)
      fun _ _ _ => ?_
    all_goals exact follows_leave _ trivial
  · refine ((only_captureOutput aside_of_leaves aside_of_captures ..).follows
      (I := fun _ => True) (fun _ _ ha _ => pre_of_aside ha) (fun _ _ _ _ _ _ => trivial)
      trivial).mono fun result g' h => ?_
    obtain ⟨rfl | ⟨state, rfl⟩, -⟩ := h <;> exact trivial
  · exact ⟨rfl, rfl, rfl, rfl⟩

/-- The iterations of worker threads follow the discipline. -/
theorem covers (env : Env) : Covers (bridge env) (discipline env) Finished fresh where
  launched h _ _ := follows_launched h
  again {x g p} hx h := by
    cases x with
    | finished => cases h
    | replied r => cases h
    | capturing state =>
      cases h
      refine ((only_captureStep aside_of_leaves aside_of_captures env state).follows
        (I := fun _ => True) (fun _ _ ha _ => pre_of_aside ha) (fun _ _ _ _ _ _ => trivial)
        trivial).mono fun result g' h => ?_
      obtain ⟨rfl | ⟨state, rfl⟩, -⟩ := h <;> exact trivial
    | forwarding fifo pty =>
      cases h
      exact follows_forwardStep fifo pty hx

/-- The threads at the beginning follow the discipline. -/
theorem follows_boot (env : Env) (requests : ℕ → Option Request) (i : ℕ) :
    ((boot env requests).thread i).Follows (discipline env) Finished (asked (requests i)) := by
  unfold boot
  dsimp only
  cases hrequest : requests i with
  | some request => exact follows_program env request
  | none => exact trivial

end Plumbing

end IgnibyteBridge
