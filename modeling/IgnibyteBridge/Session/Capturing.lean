import IgnibyteBridge.Session.Repertoire

/-!
# What a capture thread knows

The discipline of output: only a capture thread writes logs and screens, between
reading a chunk and finishing it, to the log files that it opened and the screen
of its session.
-/

namespace IgnibyteBridge

open Concurrency Program Fallible

/-- What a thread knows about the output of a session. -/
structure Sink where
  /-- It owns a run. -/
  own : Bool := false
  /-- The session whose output it captures. -/
  name : Option String := none
  /-- The log files it opened. -/
  files : List ℕ := []
  /-- It has read a chunk and not finished writing it. -/
  holding : Bool := false

namespace Sink

/-- The obligation before an action. -/
def pre : Act → Sink → Prop
  | .process (.spawnCapture ..), g => g.own = true
  | .file (.openAppend _ name), g => g.name = some name
  | .file (.readPty _), g => g.name ≠ none
  | .file (.append file _), g => g.holding = true ∧ file ∈ g.files
  | .file (.writeScreen name _), g => g.holding = true ∧ g.name = some name
  | _, _ => True

/-- What a thread knows after an action. -/
def post : (a : Act) → Sink → a.Response → Sink
  | .file (.openAppend ..), g, some file => { g with files := file :: g.files }
  | .file (.readPty _), g, some (_ :: _) => { g with holding := true }
  | .file (.writeScreen ..), g, _ => { g with holding := false }
  | _, g, _ => g

/-- What a thread knows when another thread starts it. -/
def fresh : (a : Act) → Sink → a.Response → Sink
  | .process (.spawnSupervisor ..), _, _ => { own := true }
  | .process (.spawnOwner ..), _, _ => { own := true }
  | .process (.spawnCapture name ..), _, _ => { name := some name }
  | _, _, _ => {}

/-- The discipline of output. -/
def discipline : Discipline Act Act.Response Sink where
  pre := pre
  fact _ _ _ := True
  post := post

/-- Actions that have nothing to do with output. -/
def aside : Act → Bool
  | .process (.spawnCapture ..) => false
  | .file (.openAppend ..) | .file (.readPty _) => false
  | .file (.append ..) | .file (.writeScreen ..) => false
  | _ => true

/-- Starts and shutdowns have nothing to do with sinks. -/
theorem aside_of_directs (a : Act) (h : a.directs = true) : aside a = true := by
  unfold aside
  split <;> first | rfl | cases h

/-- Sending input has nothing to do with sinks. -/
theorem aside_of_sends (a : Act) (h : a.sends = true) : aside a = true := by
  unfold aside
  split <;> first | rfl | cases h

/-- Forwarding input has nothing to do with sinks. -/
theorem aside_of_forwards (a : Act) (h : a.forwards = true) : aside a = true := by
  unfold aside
  split <;> first | rfl | cases h

/-- The end of a thread has nothing to do with sinks. -/
theorem aside_of_leaves (a : Act) (h : a.leaves = true) : aside a = true := by
  unfold aside
  split <;> first | rfl | cases h

variable {g : Sink}

/-- Such an action needs nothing. -/
theorem pre_of_aside {a : Act} (ha : aside a = true) : pre a g := by
  unfold pre
  split <;> trivial

/-- A loop of a capture thread goes on with its log files, and without a chunk in hand. -/
def Finished : ThreadResult → Sink → Prop
  | .capturing state, g =>
    g.name = some state.name ∧ state.rawLog ∈ g.files ∧ state.cleanLog ∈ g.files
  | _, _ => True

/-- A thread may leave with any result that it may end with. -/
theorem follows_leave (result : ThreadResult) (h : Finished result g) :
    (leave result).Follows discipline Finished g :=
  ⟨trivial, fun _ _ => h⟩

/-- A program that has nothing to do with output, and what follows it. -/
theorem follows_aside {α β : Type} {p : Prog α} {next : α → Prog β} {Q : β → Sink → Prop}
    (h : p.Only (fun a => aside a = true) fun _ => True)
    (hnext : ∀ x g', (next x).Follows discipline Q g') :
    (p >>= next).Follows discipline Q g := by
  rw [follows_bind]
  exact (h.follows (I := fun _ => True) (fun _ _ ha _ => pre_of_aside ha)
    (fun _ _ _ _ _ _ => trivial) trivial).mono fun x g' _ => hnext x g'

/-- A function that has nothing to do with sinks is replied to. -/
theorem follows_reply {α : Type} {p : Result α}
    (h : Performs (fun a => aside a = true) p) : (reply p).Follows discipline Finished g :=
  follows_aside h.run fun _ _ => follows_leave _ trivial

/-- A shutdown has nothing to do with sinks. -/
theorem follows_handleShutdown (env : Env) :
    (handleShutdown env).Follows discipline Finished g := by
  rw [handleShutdown, follows_bind]
  refine ⟨trivial, fun acknowledged _ => ?_⟩
  cases acknowledged with
  | false => exact follows_leave _ trivial
  | true =>
    exact follows_aside (performs_shutdownSessionsForDaemon aside_of_directs env).run
      fun _ _ => ⟨trivial, fun _ _ => trivial⟩

/-- An owner starts the capture thread of its run. -/
theorem follows_owner {α : Type} {p : Result α} {next : Except String α → Prog ThreadResult}
    (h : Performs (fun a => a.owns = true) p) (hg : g.own = true)
    (hnext : ∀ x g', (next x).Follows discipline Finished g') :
    ((p.run : Prog (Except String α)) >>= next).Follows discipline Finished g := by
  rw [follows_bind]
  refine (h.run.follows (I := fun g' => g'.own = true) (fun a g' ha hg' => ?_)
    (fun a g' r _ hg' _ => ?_) hg).mono fun x g' _ => hnext x g'
  · unfold Sink.discipline pre
    dsimp only
    split
    · exact hg'
    all_goals trivial
  · unfold Sink.discipline post
    dsimp only
    split <;> exact hg'

/-- A capture thread opens the logs of its session. -/
theorem follows_captureOutput (name : String) (pty rows cols : ℕ) (hname : g.name = some name) :
    (captureOutput name pty rows cols).Follows discipline Finished g := by
  refine ⟨hname, fun r _ => ?_⟩
  cases r with
  | none => exact follows_leave _ trivial
  | some rawLog =>
    refine ⟨hname, fun r _ => ?_⟩
    cases r with
    | none => exact follows_leave _ trivial
    | some cleanLog => exact ⟨hname, List.mem_cons_of_mem _ List.mem_cons_self, List.mem_cons_self⟩

/-- What it reads goes to its own logs and to its session's screen. -/
theorem follows_captureStep (env : Env) (state : CaptureState)
    (hg : Finished (.capturing state) g) :
    (captureStep env state).Follows discipline Finished g := by
  obtain ⟨hname, hraw, hclean⟩ := id hg
  refine ⟨trivial, fun stop _ => ?_⟩
  cases stop with
  | true => exact follows_leave _ trivial
  | false =>
    refine ⟨trivial, fun r _ => ?_⟩
    cases r with
    | failed => exact follows_leave _ trivial
    | idle => exact hg
    | ready =>
      refine ⟨show g.name ≠ none by simp [hname], fun r _ => ?_⟩
      match r with
      | none => exact follows_leave _ trivial
      | some [] => exact follows_leave _ trivial
      | some (byte :: bytes) =>
        -- The chunk goes to the raw log, the clean log and the screen.
        refine ⟨⟨rfl, hraw⟩, fun _ _ => ?_⟩
        refine ⟨⟨rfl, hclean⟩, fun _ _ => ?_⟩
        exact ⟨⟨rfl, hname⟩, fun _ _ => ⟨hname, hraw, hclean⟩⟩

/-- No request has anything to do with sinks. -/
theorem follows_program (env : Env) (request : Request) :
    (request.program env).Follows discipline Finished g := by
  unfold Request.program
  split
  · split
    · exact follows_reply (performs_startSessionInDaemon aside_of_directs ..)
    · exact follows_reply (performs_startSessionDetached aside_of_directs ..)
  · exact follows_reply (performs_sendInputSilent aside_of_sends ..)
  · exact follows_reply (performs_sendKeysSilent aside_of_sends ..)
  · exact follows_reply (performs_stopSessionSilent (manages_of_directs aside_of_directs) _)
  · split
    · exact follows_handleShutdown env
    · exact follows_leave _ trivial

/-- Every thread that another one starts follows the discipline. -/
theorem follows_launched {env : Env} {a : Act} {r : a.Response} {j : ℕ} {p : Prog ThreadResult}
    (h : launched env a r = some (j, p)) : p.Follows discipline Finished (fresh a g r) := by
  unfold launched at h
  split at h <;> cases h
  · exact follows_owner (performs_runSupervisor (fun _ => id) ..) rfl
      fun _ _ => ⟨trivial, fun _ _ => trivial⟩
  · exact follows_owner (performs_superviseAndMark (fun _ => id) ..) rfl
      fun _ _ => follows_leave _ trivial
  · exact follows_captureOutput _ _ _ _ rfl
  · exact trivial

/-- The iterations of worker threads follow the discipline. -/
theorem covers (env : Env) : Covers (bridge env) discipline Finished fresh where
  launched h _ _ := follows_launched h
  again {x g p} hx h := by
    cases x with
    | finished => cases h
    | replied r => cases h
    | capturing state =>
      cases h
      exact follows_captureStep env state hx
    | forwarding fifo pty =>
      cases h
      refine ((only_forwardStep aside_of_leaves aside_of_forwards env fifo pty).follows
        (I := fun _ => True) (fun _ _ ha _ => pre_of_aside ha) (fun _ _ _ _ _ _ => trivial)
        trivial).mono fun result _ h => ?_
      rcases h.1 with rfl | rfl <;> exact trivial

/-- The threads at the beginning follow the discipline. -/
theorem follows_boot (env : Env) (requests : ℕ → Option Request) (i : ℕ) :
    ((boot env requests).thread i).Follows discipline Finished {} := by
  unfold boot
  dsimp only
  split
  · exact follows_program env _
  · exact trivial

end Sink

end IgnibyteBridge
