import IgnibyteBridge.Concurrency.History
import IgnibyteBridge.Session.Cleanup

/-!
# What a capture thread records

A capture thread appends what it reads to its raw log and the clean text of the whole stream
to its clean log, wherever the stream is cut, and it shows the screen that the whole stream
makes. Its tape is what it knows of this, and tells it of everything that it did.
-/

namespace IgnibyteBridge

open Concurrency Program Fallible World

/-! ### What happened -/

/-- A chunk that a thread read from a PTY. -/
def Did.chunk : Did → Option (List UInt8)
  | ⟨.file (.readPty _), some (byte :: bytes)⟩ => some (byte :: bytes)
  | _ => none

/-- What a thread appended to a file. -/
def Did.appended (file : ℕ) : Did → List UInt8
  | ⟨.file (.append f bytes), _⟩ => if f = file then bytes else []
  | _ => []

/-- A screen that a thread wrote. -/
def Did.shown : Did → Option (List Char)
  | ⟨.file (.writeScreen _ text), _⟩ => some text
  | _ => none

/-- What a thread opens and reads belongs to one session and one PTY. -/
def Did.Within (name : String) (pty : ℕ) (opened : Log → ℕ → Prop) : Did → Prop
  | ⟨.file (.openAppend l n), r⟩ => n = name ∧ ∀ file, r = some file → opened l file
  | ⟨.file (.readPty p), _⟩ => p = pty
  | ⟨.file (.writeScreen n _), _⟩ => n = name
  | _ => True

/-- Where a capture thread records the output, and the chunks that went to each place. -/
structure Transcript where
  name : String
  pty : ℕ
  rawLog : ℕ
  cleanLog : ℕ
  rows : ℕ
  cols : ℕ
  raw : List (List UInt8)
  clean : List (List UInt8)
  shown : List (List UInt8)

/-- The file of each log. -/
def Transcript.log (t : Transcript) : Log → ℕ
  | .raw => t.rawLog
  | .clean => t.cleanLog

/-- The chunks are all of them, or all but the last one, which is still in hand. -/
def AllButLast (chunks all : List (List UInt8)) : Prop := chunks = all ∨ chunks = all.dropLast

/-- A transcript of what a thread did. -/
structure Transcript.Of (env : Env) (t : Transcript) (log : List Did) : Prop where
  within : ∀ e ∈ log, e.Within t.name t.pty fun l file => file = t.log l
  apart : t.rawLog ≠ t.cleanLog
  rawLog : log.flatMap (Did.appended t.rawLog) = t.raw.flatten
  cleanLog : log.flatMap (Did.appended t.cleanLog) =
    (({} : AnsiCleaner).clean t.clean.flatten).2
  /-- After each chunk the screen is the one that everything so far makes. -/
  screen : log.filterMap Did.shown = (List.range t.shown.length).map fun k =>
    env.render t.rows t.cols (t.shown.take (k + 1)).flatten
  elsewhere : ∀ file, file ≠ t.rawLog → file ≠ t.cleanLog → log.flatMap (Did.appended file) = []
  raw : AllButLast t.raw (log.filterMap Did.chunk)
  clean : AllButLast t.clean (log.filterMap Did.chunk)
  shown : AllButLast t.shown (log.filterMap Did.chunk)

/-! ### What a capture thread knows -/

/-- What a thread knows about the output that it captures. -/
structure Tape where
  name : String := ""
  pty : ℕ := 0
  rows : ℕ := 0
  cols : ℕ := 0
  rawLog : Option ℕ := none
  cleanLog : Option ℕ := none
  /-- The chunks that it is done with. -/
  done : List (List UInt8) := []
  /-- The chunk in hand, and how many of the two logs it went to. -/
  hand : Option (List UInt8 × ℕ) := none

namespace Tape

/-- The file of each log, once it is open. -/
def log (g : Tape) : Log → Option ℕ
  | .raw => g.rawLog
  | .clean => g.cleanLog

/-- The chunks that went to `k` logs. -/
def part (g : Tape) (k : ℕ) : List (List UInt8) :=
  g.done ++ ((g.hand.filter fun h => k ≤ h.2).map Prod.fst).toList

/-- The cleaner after the chunks that the thread is done with. -/
def cleaner (g : Tape) : AnsiCleaner := (({} : AnsiCleaner).clean g.done.flatten).1

/-- A chunk goes to the raw log, to the clean log and to the screen. -/
def pre (env : Env) : Act → Tape → Prop
  | .file (.openAppend .raw name), g => name = g.name ∧ g.rawLog = none ∧ g.cleanLog = none
  | .file (.openAppend .clean name), g => name = g.name ∧ g.rawLog ≠ none ∧ g.cleanLog = none
  | .file (.readPty pty), g => pty = g.pty ∧ g.cleanLog ≠ none ∧ g.hand = none
  | .file (.append file bytes), g =>
    (g.hand = some (bytes, 0) ∧ g.rawLog = some file) ∨
      ∃ chunk, g.hand = some (chunk, 1) ∧ g.cleanLog = some file ∧
        bytes = (g.cleaner.clean chunk).2
  | .file (.writeScreen name text), g => name = g.name ∧ ∃ chunk, g.hand = some (chunk, 2) ∧
    text = env.render g.rows g.cols (g.done.flatten ++ chunk)
  | _, _ => True

/-- A log that is opened second is another file. -/
def fact : (a : Act) → Tape → a.Response → Prop
  | .file (.openAppend .clean _), g, some file => g.rawLog ≠ some file
  | _, _, _ => True

/-- What a thread knows after an action. -/
def post : (a : Act) → Tape → a.Response → Tape
  | .file (.openAppend .raw _), g, some file => { g with rawLog := some file }
  | .file (.openAppend .clean _), g, some file => { g with cleanLog := some file }
  | .file (.readPty _), g, some (byte :: bytes) => { g with hand := some (byte :: bytes, 0) }
  | .file (.append ..), g, _ => { g with hand := g.hand.map fun h => (h.1, h.2 + 1) }
  | .file (.writeScreen ..), g, _ => { g with done := g.part 2, hand := none }
  | _, g, _ => g

/-- What a thread knows when another thread starts it. -/
def fresh : (a : Act) → Tape → a.Response → Tape
  | .process (.spawnCapture name pty rows cols), _, _ => { name, pty, rows, cols }
  | _, _, _ => {}

/-- The discipline of capture threads. -/
def discipline (env : Env) : Discipline Act Act.Response Tape where
  pre := pre env
  fact := fact
  post := post

/-- Between two chunks a capture thread has processed everything that it read. -/
def Finished : ThreadResult → Tape → Prop
  | .capturing state, g => g.hand = none ∧ g.rawLog = some state.rawLog ∧
    g.cleanLog = some state.cleanLog ∧ state.cleaner = g.cleaner ∧
    state.processed = g.done.flatten ∧ state.name = g.name ∧ state.pty = g.pty ∧
    state.rows = g.rows ∧ state.cols = g.cols
  | _, g => g.hand = none

/-! ### Threads that capture nothing -/

/-- Actions that record nothing of a session's output. -/
def mute : Act → Bool
  | .file (.openAppend ..) | .file (.append ..) => false
  | .file (.writeScreen ..) | .file (.readPty _) => false
  | _ => true

/-- Starts and shutdowns do nothing with output. -/
theorem mute_of_directs (a : Act) (h : a.directs = true) : mute a = true := by
  unfold mute
  split <;> first | rfl | cases h

/-- Owners do nothing with output. -/
theorem mute_of_owns (a : Act) (h : a.owns = true) : mute a = true := by
  unfold mute
  split <;> first | rfl | cases h

/-- Sending input does nothing with output. -/
theorem mute_of_sends (a : Act) (h : a.sends = true) : mute a = true := by
  unfold mute
  split <;> first | rfl | cases h

/-- Forwarding input does nothing with output. -/
theorem mute_of_forwards (a : Act) (h : a.forwards = true) : mute a = true := by
  unfold mute
  split <;> first | rfl | cases h

/-- The end of a thread does nothing with output. -/
theorem mute_of_leaves (a : Act) (h : a.leaves = true) : mute a = true := by
  unfold mute
  split <;> first | rfl | cases h

/-- A thread that does not go on capturing. -/
def Mute (x : ThreadResult) : Prop := ∀ state, x ≠ .capturing state

/-- A program that records nothing. -/
abbrev Silent (p : Prog ThreadResult) : Prop := p.Only (fun a => mute a = true) Mute

/-- A thread that leaves is silent. -/
theorem silent_leave {x : ThreadResult} (h : Mute x) : Silent (leave x) :=
  only_leave mute_of_leaves h

/-- A thread whose parts are silent is silent. -/
theorem silent_bind {α : Type} {p : Prog α} {next : α → Prog ThreadResult}
    (h : p.Only (fun a => mute a = true) fun _ => True) (hnext : ∀ x, Silent (next x)) :
    Silent (p >>= next) :=
  (follows_bind ..).mpr (Follows.mono h fun x _ _ => hnext x)

/-- A thread that replies is silent. -/
theorem silent_reply {α : Type} {p : Result α} (h : Performs (fun a => mute a = true) p) :
    Silent (reply p) :=
  silent_bind h.run fun _ => silent_leave fun _ h => by cases h

/-- The handler of a shutdown is silent. -/
theorem silent_handleShutdown (env : Env) : Silent (handleShutdown env) := by
  rw [handleShutdown]
  refine silent_bind ⟨rfl, fun _ _ => trivial⟩ fun acknowledged => ?_
  cases acknowledged with
  | false => exact silent_leave fun _ h => by cases h
  | true =>
    rw [if_pos rfl]
    refine silent_bind (performs_shutdownSessionsForDaemon mute_of_directs env).run fun _ => ?_
    exact ⟨rfl, fun _ _ _ h => by cases h⟩

/-- A thread that serves a request records nothing. -/
theorem silent_program (env : Env) (request : Request) : Silent (request.program env) := by
  unfold Request.program
  split
  · split
    · exact silent_reply (performs_startSessionInDaemon mute_of_directs ..)
    · exact silent_reply (performs_startSessionDetached mute_of_directs ..)
  · exact silent_reply (performs_sendInputSilent mute_of_sends ..)
  · exact silent_reply (performs_sendKeysSilent mute_of_sends ..)
  · exact silent_reply (performs_stopSessionSilent (manages_of_directs mute_of_directs) _)
  · split
    · exact silent_handleShutdown env
    · exact silent_leave fun _ h => by cases h

/-- A supervisor is silent. -/
theorem silent_supervisorMain (env : Env) (name cwd cmd : String) :
    Silent (supervisorMain env name cwd cmd) :=
  silent_bind (performs_runSupervisor mute_of_owns ..).run fun _ =>
    ⟨rfl, fun _ _ _ h => by cases h⟩

/-- A daemon's owner is silent. -/
theorem silent_ownerThread (env : Env) (name cwd cmd : String) (clientPath : Option String)
    (generation : ℕ) : Silent (ownerThread env name cwd cmd clientPath generation) :=
  silent_bind (performs_superviseAndMark mute_of_owns ..).run fun _ =>
    silent_leave fun _ h => by cases h

/-- A forwarder is silent. -/
theorem silent_forwardStep (env : Env) (fifo pty : ℕ) : Silent (forwardStep env fifo pty) := by
  have honly := only_forwardStep mute_of_leaves mute_of_forwards env fifo pty
  refine Follows.mono honly fun x _ hx state hstate => ?_
  rcases hx with rfl | rfl <;> cases hstate

variable {env : Env} {g : Tape}

/-- An action that does nothing with output needs nothing. -/
theorem pre_of_mute {a : Act} (ha : mute a = true) : pre env a g := by
  unfold pre
  split <;> trivial

/-- An action that does nothing with output teaches nothing either. -/
theorem post_of_mute {a : Act} {r : a.Response} (ha : mute a = true) : post a g r = g := by
  unfold post
  split <;> first | rfl | cases ha

/-- A thread that records nothing keeps no chunk in hand. -/
theorem follows_silent {p : Prog ThreadResult} (h : Silent p) (hg : g.hand = none) :
    p.Follows (discipline env) Finished g := by
  have hpost : ∀ (a : Act) (g' : Tape) (r : a.Response), mute a = true → g'.hand = none →
      (discipline env).fact a g' r → ((discipline env).post a g' r).hand = none := by
    intro a g' r ha hg' _
    have hsame : (discipline env).post a g' r = g' := post_of_mute ha
    rwa [hsame]
  have hfollows := h.follows (D := discipline env) (I := fun g' => g'.hand = none)
    (fun a g' ha _ => pre_of_mute ha) hpost hg
  refine hfollows.mono fun x g' hx => ?_
  obtain ⟨hmute, hnone⟩ := hx
  cases x with
  | capturing state => exact absurd rfl (hmute state)
  | _ => exact hnone

/-! ### Capture threads -/

/-- A thread with no chunk in hand may leave. -/
theorem follows_leave (hg : g.hand = none) :
    (leave .finished).Follows (discipline env) Finished g :=
  follows_silent (silent_leave fun _ h => by cases h) hg

/-- A capture thread opens its logs. -/
theorem follows_captureOutput (name : String) (pty rows cols : ℕ) :
    (captureOutput name pty rows cols).Follows (discipline env) Finished
      { name, pty, rows, cols } := by
  refine ⟨⟨rfl, rfl, rfl⟩, fun r _ => ?_⟩
  cases r with
  | none => exact follows_leave rfl
  | some rawLog =>
    refine ⟨⟨rfl, Option.some_ne_none rawLog, rfl⟩, fun r _ => ?_⟩
    cases r with
    | none => exact follows_leave rfl
    | some cleanLog => exact ⟨rfl, rfl, rfl, rfl, rfl, rfl, rfl, rfl, rfl⟩

/-- The cleaner after one more chunk. -/
theorem clean_append (self : AnsiCleaner) (input chunk : List UInt8) :
    self.clean (input ++ chunk) =
      (((self.clean input).1.clean chunk).1,
        (self.clean input).2 ++ ((self.clean input).1.clean chunk).2) :=
  Streaming.feed_append AnsiCleaner.step self input chunk

/-- The cleaner is done with the chunks that the thread is done with. -/
theorem cleaner_snoc {chunks : List (List UInt8)} {chunk : List UInt8}
    (h : g.done = chunks ++ [chunk]) :
    g.cleaner = ((({} : AnsiCleaner).clean chunks.flatten).1.clean chunk).1 := by
  rw [cleaner, h, List.flatten_append, List.flatten_singleton, clean_append]

/-- A chunk goes to both logs and to the screen. -/
theorem follows_captureChunk {state : CaptureState} {chunk : List UInt8}
    {next : CaptureState → Prog ThreadResult} (hg : Finished (.capturing state) g)
    (hnext : ∀ state' g', Finished (.capturing state') g' →
      (next state').Follows (discipline env) Finished g') :
    (captureChunk env state chunk >>= next).Follows (discipline env) Finished
      { g with hand := some (chunk, 0) } := by
  obtain ⟨hhand, hraw, hclean, hcleaner, hprocessed, hname, hpty, hrows, hcols⟩ := hg
  rw [follows_bind]
  refine ⟨.inl ⟨rfl, hraw⟩, fun _ _ => ⟨.inr ⟨chunk, rfl, hclean, ?_⟩, fun _ _ =>
    ⟨⟨hname, chunk, rfl, ?_⟩, fun _ _ => hnext _ _
      ⟨rfl, hraw, hclean, ?_, ?_, hname, hpty, hrows, hcols⟩⟩⟩⟩
  · rw [hcleaner]
    rfl
  · rw [hrows, hcols, hprocessed]
    rfl
  · rw [cleaner_snoc rfl, hcleaner]
    rfl
  · have hflatten : (g.done ++ [chunk]).flatten = g.done.flatten ++ chunk := by simp
    rw [hprocessed]
    exact hflatten.symm

/-- A chunk that was read goes to all three places before the next read. -/
theorem follows_captureStep (state : CaptureState) (hg : Finished (.capturing state) g) :
    (captureStep env state).Follows (discipline env) Finished g := by
  refine ⟨trivial, fun stop _ => ?_⟩
  cases stop with
  | true => exact follows_leave hg.1
  | false =>
    refine ⟨trivial, fun r _ => ?_⟩
    cases r with
    | failed => exact follows_leave hg.1
    | idle => exact hg
    | ready =>
      have hopen : g.cleanLog ≠ none := by
        rw [hg.2.2.1]
        exact Option.some_ne_none _
      have hpty : state.pty = g.pty := hg.2.2.2.2.2.2.1
      refine ⟨⟨hpty, hopen, hg.1⟩, fun r _ => ?_⟩
      cases r with
      | none => exact follows_leave hg.1
      | some bytes =>
        cases bytes with
        | nil => exact follows_leave hg.1
        | cons byte bytes => exact follows_captureChunk hg fun _ _ => id

/-- The programs of the system follow the discipline. -/
theorem covers (env : Env) : Covers (bridge env) (discipline env) Finished fresh where
  launched {a g r j p} h _ _ := by
    simp only [bridge] at h
    unfold launched at h
    split at h <;> cases h
    · exact follows_silent (silent_supervisorMain ..) rfl
    · exact follows_silent (silent_ownerThread ..) rfl
    · exact follows_captureOutput ..
    · exact rfl
  again {x g p} hx h := by
    cases x with
    | finished => cases h
    | replied r => cases h
    | capturing state =>
      cases h
      exact follows_captureStep state hx
    | forwarding fifo pty =>
      cases h
      exact follows_silent (silent_forwardStep ..) hx

/-- The threads at the beginning follow the discipline. -/
theorem follows_boot (env : Env) (requests : ℕ → Option Request) (i : ℕ) :
    ((boot env requests).thread i).Follows (discipline env) Finished {} := by
  unfold boot
  dsimp only
  split
  · exact follows_silent (silent_program ..) rfl
  · exact rfl

/-! ### What a tape says -/

/-- With no chunk in hand the places have the same. -/
theorem part_of_none (h : g.hand = none) (k : ℕ) : g.part k = g.done := by simp [part, h]

/-- A place that was served has the chunk in hand too. -/
theorem part_of_le {chunk : List UInt8} {n k : ℕ} (h : g.hand = some (chunk, n)) (hk : k ≤ n) :
    g.part k = g.done ++ [chunk] := by
  simp [part, h, hk]

/-- One that was not has what is done. -/
theorem part_of_lt {chunk : List UInt8} {n k : ℕ} (h : g.hand = some (chunk, n)) (hk : n < k) :
    g.part k = g.done := by
  simpa [part, h] using hk

/-- The tape of a thread tells what it has recorded. -/
structure Tells (env : Env) (log : List Did) (g : Tape) : Prop where
  within : ∀ e ∈ log, e.Within g.name g.pty fun l file => g.log l = some file
  chunks : log.filterMap Did.chunk = g.part 0
  raw : ∀ file, g.rawLog = some file → log.flatMap (Did.appended file) = (g.part 1).flatten
  clean : ∀ file, g.cleanLog = some file →
    log.flatMap (Did.appended file) = (({} : AnsiCleaner).clean (g.part 2).flatten).2
  shown : log.filterMap Did.shown = (List.range g.done.length).map fun k =>
    env.render g.rows g.cols (g.done.take (k + 1)).flatten
  elsewhere : ∀ file, g.rawLog ≠ some file → g.cleanLog ≠ some file →
    log.flatMap (Did.appended file) = []
  opened : g.cleanLog ≠ none → g.rawLog ≠ none
  apart : ∀ file, g.rawLog = some file → g.cleanLog ≠ some file
  unopened : g.cleanLog = none → g.done = [] ∧ g.hand = none

variable {log : List Did}

/-- A thread that did nothing has an empty transcript. -/
theorem tells_nil (name : String) (pty rows cols : ℕ) :
    Tells env [] { name, pty, rows, cols } where
  within _ he := by cases he
  chunks := rfl
  raw _ h := by cases h
  clean _ h := by cases h
  shown := rfl
  elsewhere _ _ _ := rfl
  opened h := absurd rfl h
  apart _ h := by cases h
  unopened _ := ⟨rfl, rfl⟩

/-- What one more action adds to a selection. -/
theorem filterMap_snoc {β : Type} (f : Did → Option β) (e : Did) :
    (log ++ [e]).filterMap f = log.filterMap f ++ (f e).toList := by
  cases h : f e <;> simp [h]

/-- What one more action adds to the bytes of a log. -/
theorem flatMap_snoc (f : Did → List UInt8) (e : Did) :
    (log ++ [e]).flatMap f = log.flatMap f ++ f e := by
  simp

/-- More files are open. -/
theorem within_mono {name : String} {pty : ℕ} {opened opened' : Log → ℕ → Prop} {e : Did}
    (h : e.Within name pty opened) (hopened : ∀ l file, opened l file → opened' l file) :
    e.Within name pty opened' := by
  unfold Did.Within at h ⊢
  split
  · exact ⟨h.1, fun file hfile => hopened _ file (h.2 file hfile)⟩
  · exact h
  · exact h
  · trivial

/-- One more action on the thread's own files. -/
theorem within_snoc {name : String} {pty : ℕ} {opened : Log → ℕ → Prop} {e : Did}
    (hlog : ∀ e ∈ log, e.Within name pty opened) (he : e.Within name pty opened) :
    ∀ e' ∈ log ++ [e], e'.Within name pty opened := by
  intro e' hmem
  rcases List.mem_append.mp hmem with hold | hnew
  · exact hlog e' hold
  · rw [List.mem_singleton.mp hnew]
    exact he

/-- An event that records nothing. -/
theorem Tells.same (h : Tells env log g) {e : Did}
    (hwithin : e.Within g.name g.pty fun l file => g.log l = some file)
    (hchunk : Did.chunk e = none) (happended : ∀ file, Did.appended file e = [])
    (hshown : Did.shown e = none) : Tells env (log ++ [e]) g :=
  { h with
    within := within_snoc h.within hwithin
    chunks := by rw [filterMap_snoc, hchunk, h.chunks]; exact List.append_nil _
    raw := fun file hfile => by rw [flatMap_snoc, happended, List.append_nil, h.raw file hfile]
    clean := fun file hfile => by rw [flatMap_snoc, happended, List.append_nil, h.clean file hfile]
    shown := by rw [filterMap_snoc, hshown, h.shown]; exact List.append_nil _
    elsewhere := fun file hraw hclean => by
      rw [flatMap_snoc, happended, List.append_nil, h.elsewhere file hraw hclean] }

/-- A thread opens its raw log. -/
theorem Tells.openRaw (h : Tells env log g) (hraw : g.rawLog = none) (hclean : g.cleanLog = none)
    (file : ℕ) : Tells env log { g with rawLog := some file } := by
  obtain ⟨hdone, hhand⟩ := h.unopened hclean
  have hnothing : ∀ file, log.flatMap (Did.appended file) = [] := by
    intro file
    refine h.elsewhere file ?_ ?_
    · rw [hraw]
      exact (Option.some_ne_none file).symm
    · rw [hclean]
      exact (Option.some_ne_none file).symm
  have hpart : ({ g with rawLog := some file } : Tape).part 1 = [] :=
    (part_of_none hhand 1).trans hdone
  refine { h with within := fun e he => within_mono (h.within e he) fun l file' hfile => ?_,
                  raw := fun file' _ => ?_, elsewhere := fun file' _ _ => hnothing file',
                  opened := fun _ => Option.some_ne_none file, apart := fun file' _ => ?_ }
  · cases l with
    | raw => cases hraw.symm.trans hfile
    | clean => exact hfile
  · rw [hnothing, hpart]
    rfl
  · exact hclean ▸ (Option.some_ne_none file').symm

/-- A thread opens its clean log. -/
theorem Tells.openClean (h : Tells env log g) (hraw : g.rawLog ≠ none)
    (hclean : g.cleanLog = none) {file : ℕ} (hother : g.rawLog ≠ some file) :
    Tells env log { g with cleanLog := some file } := by
  obtain ⟨hdone, hhand⟩ := h.unopened hclean
  have hnone : ∀ file', g.cleanLog ≠ some file' := by
    intro file'
    rw [hclean]
    exact (Option.some_ne_none file').symm
  have hpart : ({ g with cleanLog := some file } : Tape).part 2 = [] :=
    (part_of_none hhand 2).trans hdone
  refine { h with within := fun e he => within_mono (h.within e he) fun l file' hfile => ?_,
                  clean := fun file' hfile => ?_,
                  elsewhere := fun file' hraw' _ => h.elsewhere file' hraw' (hnone file'),
                  opened := fun _ => hraw, apart := fun file' hfile hsame => ?_,
                  unopened := fun hopen => ?_ }
  · cases l with
    | raw => exact hfile
    | clean => exact absurd hfile (hnone file')
  · obtain rfl := Option.some.inj hfile
    rw [h.elsewhere file hother (hnone file), hpart]
    rfl
  · obtain rfl := Option.some.inj hsame
    exact hother hfile
  · cases hopen

/-- A thread has a chunk in hand. -/
theorem Tells.read (h : Tells env log g) {e : Did} {chunk : List UInt8}
    (hwithin : e.Within g.name g.pty fun l file => g.log l = some file)
    (hhand : g.hand = none) (hopen : g.cleanLog ≠ none) (hchunk : Did.chunk e = some chunk)
    (happended : ∀ file, Did.appended file e = []) (hshown : Did.shown e = none) :
    Tells env (log ++ [e]) { g with hand := some (chunk, 0) } := by
  have hnow : ({ g with hand := some (chunk, 0) } : Tape).part 0 = g.done ++ [chunk] :=
    part_of_le rfl (Nat.le_refl 0)
  have hpart : ∀ k, 0 < k → ({ g with hand := some (chunk, 0) } : Tape).part k = g.part k := by
    intro k hk
    rw [part_of_none hhand]
    exact part_of_lt rfl hk
  refine { within := within_snoc h.within hwithin, chunks := ?_, raw := fun file hfile => ?_,
           clean := fun file hfile => ?_, shown := ?_, elsewhere := fun file hraw hclean => ?_,
           opened := h.opened, apart := h.apart, unopened := fun hnone => absurd hnone hopen }
  · rw [filterMap_snoc, hchunk, h.chunks, part_of_none hhand, hnow]
    rfl
  · rw [flatMap_snoc, happended, List.append_nil, h.raw file hfile, hpart 1 (by omega)]
  · rw [flatMap_snoc, happended, List.append_nil, h.clean file hfile, hpart 2 (by omega)]
  · rw [filterMap_snoc, hshown, h.shown]
    exact List.append_nil _
  · rw [flatMap_snoc, happended, List.append_nil, h.elsewhere file hraw hclean]

/-- A chunk goes to one more log. -/
theorem Tells.append (h : Tells env log g) {e : Did} {chunk bytes : List UInt8} {n file : ℕ}
    (hwithin : e.Within g.name g.pty fun l file => g.log l = some file)
    (hhand : g.hand = some (chunk, n)) (hchunk : Did.chunk e = none) (hshown : Did.shown e = none)
    (happended : ∀ f, Did.appended f e = if file = f then bytes else [])
    (hgoes : (n = 0 ∧ g.rawLog = some file ∧ bytes = chunk) ∨
      n = 1 ∧ g.cleanLog = some file ∧ bytes = (g.cleaner.clean chunk).2) :
    Tells env (log ++ [e]) { g with hand := some (chunk, n + 1) } := by
  have hopen : g.cleanLog ≠ none := by
    intro hnone
    cases (h.unopened hnone).2.symm.trans hhand
  have hfirst : ({ g with hand := some (chunk, n + 1) } : Tape).part 0 = g.part 0 := by
    rw [part_of_le hhand (Nat.zero_le n)]
    exact part_of_le rfl (Nat.zero_le _)
  have hfirst' : ({ g with hand := some (chunk, n + 1) } : Tape).part 1 = g.done ++ [chunk] :=
    part_of_le rfl (Nat.le_add_left 1 n)
  have hother : ∀ {f}, file ≠ f → (log ++ [e]).flatMap (Did.appended f) =
      log.flatMap (Did.appended f) := by
    intro f hf
    rw [flatMap_snoc, happended, if_neg hf, List.append_nil]
  have hsame : (log ++ [e]).flatMap (Did.appended file) =
      log.flatMap (Did.appended file) ++ bytes := by
    rw [flatMap_snoc, happended, if_pos rfl]
  refine { within := within_snoc h.within hwithin, chunks := ?_, raw := fun f hf => ?_,
           clean := fun f hf => ?_, shown := ?_, elsewhere := fun f hraw hclean => ?_,
           opened := h.opened, apart := h.apart, unopened := fun hnone => absurd hnone hopen }
  · rw [filterMap_snoc, hchunk, h.chunks, hfirst]
    exact List.append_nil _
  · rw [hfirst']
    rcases hgoes with ⟨rfl, hraw, rfl⟩ | ⟨rfl, hclean, -⟩
    · obtain rfl := Option.some.inj (hraw.symm.trans hf)
      rw [hsame, h.raw file hf, part_of_lt hhand (Nat.lt_succ_self 0)]
      simp
    · have hne : file ≠ f := by
        rintro rfl
        exact h.apart file hf hclean
      rw [hother hne, h.raw f hf, part_of_le hhand (Nat.le_refl 1)]
  · rcases hgoes with ⟨rfl, hraw, -⟩ | ⟨rfl, hclean, rfl⟩
    · have hne : file ≠ f := by
        rintro rfl
        exact h.apart file hraw hf
      have hlate : ({ g with hand := some (chunk, 0 + 1) } : Tape).part 2 = g.part 2 := by
        rw [part_of_lt hhand (by omega)]
        exact part_of_lt rfl (by omega)
      rw [hother hne, h.clean f hf, hlate]
    · obtain rfl := Option.some.inj (hclean.symm.trans hf)
      have hnow : ({ g with hand := some (chunk, 1 + 1) } : Tape).part 2 = g.done ++ [chunk] :=
        part_of_le rfl (Nat.le_refl 2)
      rw [hsame, h.clean file hf, hnow, part_of_lt hhand (Nat.lt_succ_self 1), List.flatten_append,
        List.flatten_singleton, clean_append]
      rfl
  · rw [filterMap_snoc, hshown, h.shown]
    exact List.append_nil _
  · have hne : file ≠ f := by
      rintro rfl
      rcases hgoes with ⟨-, hraw', -⟩ | ⟨-, hclean', -⟩
      · exact hraw hraw'
      · exact hclean hclean'
    rw [hother hne, h.elsewhere f hraw hclean]

/-- The screens after each of some chunks, and after one more. -/
theorem screens_snoc (screen : List (List UInt8) → List Char) (chunks : List (List UInt8))
    (chunk : List UInt8) :
    ((List.range (chunks ++ [chunk]).length).map fun k =>
        screen ((chunks ++ [chunk]).take (k + 1))) =
      ((List.range chunks.length).map fun k => screen (chunks.take (k + 1))) ++
        [screen (chunks ++ [chunk])] := by
  rw [List.length_append, List.length_singleton, List.range_succ, List.map_append]
  congr 1
  · refine List.map_congr_left fun k hk => ?_
    have hshort : k + 1 ≤ chunks.length := List.mem_range.mp hk
    rw [List.take_append_of_le_length hshort]
  · rw [List.map_singleton, List.take_of_length_le (by simp)]

/-- A thread is done with a chunk. -/
theorem Tells.show (h : Tells env log g) {e : Did} {chunk : List UInt8}
    (hwithin : e.Within g.name g.pty fun l file => g.log l = some file)
    (hhand : g.hand = some (chunk, 2)) (hchunk : Did.chunk e = none)
    (happended : ∀ file, Did.appended file e = [])
    (hshown : Did.shown e = some (env.render g.rows g.cols (g.done.flatten ++ chunk))) :
    Tells env (log ++ [e]) { g with done := g.part 2, hand := none } := by
  have hopen : g.cleanLog ≠ none := by
    intro hnone
    cases (h.unopened hnone).2.symm.trans hhand
  have hdone : g.part 2 = g.done ++ [chunk] := part_of_le hhand (Nat.le_refl 2)
  have hpart : ∀ k, k ≤ 2 →
      ({ g with done := g.part 2, hand := none } : Tape).part k = g.part k := by
    intro k hk
    rw [part_of_le hhand hk, ← hdone]
    exact part_of_none rfl k
  refine { within := within_snoc h.within hwithin, chunks := ?_, raw := fun f hf => ?_,
           clean := fun f hf => ?_, shown := ?_, elsewhere := fun f hraw hclean => ?_,
           opened := h.opened, apart := h.apart, unopened := fun hnone => absurd hnone hopen }
  · rw [filterMap_snoc, hchunk, h.chunks, hpart 0 (by omega)]
    exact List.append_nil _
  · rw [flatMap_snoc, happended, List.append_nil, h.raw f hf, hpart 1 (by omega)]
  · rw [flatMap_snoc, happended, List.append_nil, h.clean f hf, hpart 2 (by omega)]
  · rw [filterMap_snoc, hshown, h.shown]
    have hscreens := screens_snoc (fun chunks => env.render g.rows g.cols chunks.flatten) g.done
      chunk
    rw [List.flatten_append, List.flatten_singleton] at hscreens
    rw [hdone]
    exact hscreens.symm
  · rw [flatMap_snoc, happended, List.append_nil, h.elsewhere f hraw hclean]

/-- An action that does nothing with output adds nothing to a transcript. -/
theorem unrecorded_of_mute {a : Act} (ha : mute a = true) (r : a.Response) :
    (∀ name pty opened, Did.Within name pty opened ⟨a, r⟩) ∧ Did.chunk ⟨a, r⟩ = none ∧
      (∀ file, Did.appended file ⟨a, r⟩ = []) ∧ Did.shown ⟨a, r⟩ = none := by
  cases a with
  | disk a => exact ⟨fun _ _ _ => trivial, rfl, fun _ => rfl, rfl⟩
  | process a => exact ⟨fun _ _ _ => trivial, rfl, fun _ => rfl, rfl⟩
  | file a =>
    cases a <;> first
      | exact ⟨fun _ _ _ => trivial, rfl, fun _ => rfl, rfl⟩
      | cases ha

/-- What a tape tells stays true. -/
theorem Tells.act (h : Tells env log g) {a : Act} {r : a.Response} (hpre : pre env a g)
    (hfact : fact a g r) : Tells env (log ++ [⟨a, r⟩]) (post a g r) := by
  by_cases hmute : mute a = true
  · obtain ⟨hwithin, hchunk, happended, hshown⟩ := unrecorded_of_mute hmute r
    rw [post_of_mute hmute]
    exact h.same (hwithin ..) hchunk happended hshown
  · cases a with
    | disk a => exact absurd rfl hmute
    | process a => exact absurd rfl hmute
    | file a =>
      cases a
      case openAppend l name =>
        have hname : name = g.name := by cases l <;> exact hpre.1
        cases r with
        | none =>
          have hsame : post (.file (.openAppend l name)) g none = g := by cases l <;> rfl
          rw [hsame]
          exact h.same ⟨hname, fun _ hfile => by cases hfile⟩ rfl (fun _ => rfl) rfl
        | some file =>
          cases l with
          | raw =>
            have hopen := h.openRaw hpre.2.1 hpre.2.2 file
            exact hopen.same ⟨hname, fun _ hfile => hfile⟩ rfl (fun _ => rfl) rfl
          | clean =>
            have hopen := h.openClean hpre.2.1 hpre.2.2 hfact
            exact hopen.same ⟨hname, fun _ hfile => hfile⟩ rfl (fun _ => rfl) rfl
      case readPty pty =>
        obtain ⟨hpty, hopen, hhand⟩ := hpre
        cases r with
        | none => exact h.same hpty rfl (fun _ => rfl) rfl
        | some bytes =>
          cases bytes with
          | nil => exact h.same hpty rfl (fun _ => rfl) rfl
          | cons byte bytes => exact h.read hpty hhand hopen rfl (fun _ => rfl) rfl
      case append file bytes =>
        rcases hpre with ⟨hhand, hraw⟩ | ⟨chunk, hhand, hclean, hbytes⟩
        · have happend := h.append (e := ⟨.file (.append file bytes), r⟩) trivial hhand rfl rfl
            (fun _ => rfl) (.inl ⟨rfl, hraw, rfl⟩)
          simpa [post, hhand] using happend
        · have happend := h.append (e := ⟨.file (.append file bytes), r⟩) trivial hhand rfl rfl
            (fun _ => rfl) (.inr ⟨rfl, hclean, hbytes⟩)
          simpa [post, hhand] using happend
      case writeScreen name text =>
        obtain ⟨hname, chunk, hhand, rfl⟩ := hpre
        exact h.show hname hhand rfl (fun _ => rfl) rfl
      all_goals exact absurd rfl hmute

/-- A thread's ghost state sums up what it did. -/
theorem summarizes (env : Env) : Summarizes (bridge env) (discipline env) fresh (Tells env) where
  act h hpre hfact := h.act hpre hfact
  launched {a g r k p} _ := by
    unfold fresh
    split
    · exact tells_nil ..
    · exact tells_nil "" 0 0 0

/-- Each place lacks the last chunk at most. -/
theorem allButLast_part (k : ℕ) : AllButLast (g.part k) (g.part 0) := by
  cases hhand : g.hand with
  | none =>
    rw [part_of_none hhand, part_of_none hhand]
    exact .inl rfl
  | some held =>
    obtain ⟨chunk, n⟩ := held
    rw [part_of_le hhand (Nat.zero_le n)]
    by_cases hk : k ≤ n
    · exact .inl (part_of_le hhand hk)
    · refine .inr ?_
      rw [part_of_lt hhand (by omega), List.dropLast_concat]

/-- What is done lacks the last chunk at most. -/
theorem allButLast_done : AllButLast g.done (g.part 0) := by
  cases hhand : g.hand with
  | none =>
    rw [part_of_none hhand]
    exact .inl rfl
  | some held =>
    obtain ⟨chunk, n⟩ := held
    rw [part_of_le hhand (Nat.zero_le n)]
    exact .inr List.dropLast_concat.symm

/-- The transcript on a tape. -/
def transcript (g : Tape) : Transcript where
  name := g.name
  pty := g.pty
  rawLog := g.rawLog.getD 0
  cleanLog := g.cleanLog.getD (g.rawLog.getD 0 + 1)
  rows := g.rows
  cols := g.cols
  raw := g.part 1
  clean := g.part 2
  shown := g.done

/-- A tape that tells what a thread recorded is a transcript of it. -/
theorem Tells.transcript (h : Tells env log g) : g.transcript.Of env log := by
  have hunopened : g.cleanLog = none → ∀ k, g.part k = [] := by
    intro hclean k
    obtain ⟨hdone, hhand⟩ := h.unopened hclean
    rw [part_of_none hhand, hdone]
  have hraw : ∀ file, g.rawLog = some file → file = g.rawLog.getD 0 := by
    intro file hfile
    rw [hfile]
    rfl
  constructor
  case within =>
    intro e he
    refine within_mono (h.within e he) fun l file hfile => ?_
    cases l with
    | raw => exact hraw file hfile
    | clean =>
      have hclean : g.cleanLog = some file := hfile
      change file = g.cleanLog.getD _
      rw [hclean]
      rfl
  case apart =>
    change g.rawLog.getD 0 ≠ g.cleanLog.getD (g.rawLog.getD 0 + 1)
    cases hclean : g.cleanLog with
    | none => exact Nat.ne_of_lt (Nat.lt_succ_self _)
    | some file =>
      obtain ⟨x, hx⟩ := Option.ne_none_iff_exists'.mp (h.opened (by rw [hclean]; simp))
      rw [hx]
      rintro rfl
      exact h.apart x hx hclean
  case rawLog =>
    change log.flatMap (Did.appended (g.rawLog.getD 0)) = (g.part 1).flatten
    cases hopen : g.rawLog with
    | some file => exact h.raw file hopen
    | none =>
      have hclean : g.cleanLog = none := by
        by_contra hne
        exact h.opened hne hopen
      rw [hunopened hclean, h.elsewhere _ (by simp [hopen]) (by simp [hclean])]
      rfl
  case cleanLog =>
    change log.flatMap (Did.appended (g.cleanLog.getD _)) = _
    cases hclean : g.cleanLog with
    | some file => exact h.clean file hclean
    | none =>
      have hempty : g.transcript.clean = [] := hunopened hclean 2
      rw [hempty, h.elsewhere _ ?_ (by simp [hclean])]
      · rfl
      · intro hfile
        have hself := hraw _ hfile
        simp at hself
  case screen => exact h.shown
  case elsewhere =>
    intro file hfirst hsecond
    refine h.elsewhere file (fun hfile => hfirst (hraw file hfile)) fun hfile => hsecond ?_
    change file = g.cleanLog.getD _
    rw [hfile]
    rfl
  case raw =>
    rw [h.chunks]
    exact allButLast_part 1
  case clean =>
    rw [h.chunks]
    exact allButLast_part 2
  case shown =>
    rw [h.chunks]
    exact allButLast_done

end Tape

end IgnibyteBridge
