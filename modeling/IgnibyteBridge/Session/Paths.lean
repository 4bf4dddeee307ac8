import IgnibyteBridge.SearchPath
import IgnibyteBridge.Session.Operations
import IgnibyteBridge.Storage.Replacement
import IgnibyteBridge.Text.LexicalPath

/-!
# The paths of a session

The paths that are built from a session's name, and where they lead. An accepted
name is one step down from the sessions root, and every file of the session is one
step further down.
-/

namespace IgnibyteBridge

open Text

/-- `sessions_root`. -/
def sessionsRoot (root : String) : List Char := joinPath root.toList "sessions".toList

/-- The path that `session_dir` builds from an accepted name. -/
def sessionPath (root name : String) : List Char := joinPath (sessionsRoot root) name.toList

/-- A file of a session. -/
def sessionFile (root name file : String) : List Char :=
  joinPath (sessionPath root name) file.toList

/-- The path that a log is rotated to. -/
def previousPath (path : List Char) : List Char := path ++ ".prev".toList

/-- The two paths that `write_atomic` writes for a file of a session. -/
def atomicPaths (root name file : String) (pid unique : ℕ) : List (List Char) :=
  [sessionFile root name (tempName file pid unique), sessionFile root name file]

/-- The paths that an action builds from a session's name, in a process with this PID
whose counter of temp files stands at `unique`. -/
def Act.paths (root : String) (pid unique : ℕ) : Act → List (List Char)
  | .disk (.ensureBridgeDir name) => [sessionPath root name]
  | .disk (.acquireStartLock name) => [sessionFile root name "start.lock"]
  | .disk (.acquireStatusLock name) => [sessionFile root name "status.lock"]
  | .disk (.loadMetadata name) => [sessionFile root name "metadata.json"]
  | .disk (.saveMetadata _ metadata) => atomicPaths root metadata.name "metadata.json" pid unique
  | .file (.fifoExists name) | .file (.removeFifo name) | .file (.mkfifo name) =>
    [sessionFile root name "input.fifo"]
  | .file (.openFifo name) | .file (.openFifoWriter name) =>
    [sessionFile root name "input.fifo"]
  | .file (.logLength log name) => [sessionFile root name log.fileName]
  | .file (.renameLog log name) =>
    [sessionFile root name log.fileName, previousPath (sessionFile root name log.fileName)]
  | .file (.createPrivateLog log name) | .file (.openAppend log name) =>
    [sessionFile root name log.fileName]
  | .file (.createScreen name) => [sessionFile root name "screen.txt"]
  | .file (.writeScreen name _) => atomicPaths root name "screen.txt" pid unique
  | _ => []

/-- The paths that an action of an operation builds from a session's name. -/
def Access.paths (root : String) (pid unique : ℕ) : Access → List (List Char)
  | .act a => a.paths root pid unique
  | .readLog log name => [sessionFile root name log.fileName]
  | .readScreen name => [sessionFile root name "screen.txt"]
  | .statLog name => [sessionFile root name "raw.log"]
  | .ensureSessionsRoot => []

/-- The session that an action works on, or starts a thread for. -/
def Act.session : Act → Option String
  | .disk (.ensureBridgeDir name) => some name
  | .disk (.acquireStartLock name) | .disk (.dropStartLock name) => some name
  | .disk (.acquireStatusLock name) | .disk (.dropStatusLock name) => some name
  | .disk (.loadMetadata name) => some name
  | .disk (.saveMetadata _ metadata) => some metadata.name
  | .process (.spawnSupervisor name ..) | .process (.spawnOwner name ..) => some name
  | .process (.spawnCapture name ..) => some name
  | .file (.fifoExists name) | .file (.removeFifo name) | .file (.mkfifo name) => some name
  | .file (.openFifo name) | .file (.openFifoWriter name) => some name
  | .file (.logLength _ name) | .file (.renameLog _ name) => some name
  | .file (.createPrivateLog _ name) | .file (.openAppend _ name) => some name
  | .file (.createScreen name) | .file (.writeScreen name _) => some name
  | _ => none

/-- The session that an action of an operation works on. -/
def Access.session : Access → Option String
  | .act a => a.session
  | .readLog _ name | .readScreen name | .statLog name => some name
  | .ensureSessionsRoot => none

/-- The action saves a record, in the directory of the name that the record carries. -/
def Access.isSave : Access → Bool
  | .act (.disk (.saveMetadata ..)) => true
  | _ => false

/-! ## Where they lead -/

/-- An accepted name is a name of a place. -/
theorem isName_of_valid {name : String} (h : validateSessionName name = .ok ()) :
    IsName name.toList := by
  have hchars := nameChar_of_valid h
  unfold validateSessionName at h
  split_ifs at h with hempty hlong hall hdots
  have hne : ∀ other : String, name ≠ other → name.toList ≠ other.toList :=
    fun other hother hlist => hother (String.toList_inj.mp hlist)
  rw [not_or] at hdots
  constructor
  · intro hnil
    apply hempty
    rw [String.isEmpty_iff]
    exact String.toList_inj.mp hnil
  · intro hslash
    exact absurd (hchars '/' hslash) (by decide)
  · exact hne "." hdots.1
  · exact hne ".." hdots.2

/-- Joining a name leads one place further down, however the path ends. -/
theorem resolve_joinPath {component : List Char} (h : IsName component) (base : List Char) :
    resolve (joinPath base component) = resolve base ++ [component] := by
  have hhead : component.head? ≠ some '/' :=
    fun hslash => h.slash_not_mem (List.mem_of_head? hslash)
  unfold joinPath
  rw [if_neg hhead]
  split_ifs with hend
  · rcases hend with rfl | hslash
    · rw [List.nil_append, resolve_name h]
      rfl
    · obtain ⟨rest, rfl⟩ := List.getLast?_eq_some_iff.mp hslash
      rw [List.append_assoc, List.singleton_append, resolve_append_name h, resolve_slash]
  · exact resolve_append_name h base

variable {root name : String}

/-- The directory of a valid name is the entry of that name in the sessions' directory. -/
theorem resolve_sessionPath (hname : validateSessionName name = .ok ()) :
    resolve (sessionPath root name) = resolve (sessionsRoot root) ++ [name.toList] :=
  resolve_joinPath (isName_of_valid hname) _

/-- A session's directory is directly below the sessions root. -/
theorem isChild_sessionPath (hname : validateSessionName name = .ok ()) :
    IsChild (sessionPath root name) (sessionsRoot root) :=
  ⟨name.toList, resolve_sessionPath hname⟩

/-- Two sessions have two directories. -/
theorem resolve_sessionPath_ne {other : String} (hname : validateSessionName name = .ok ())
    (hother : validateSessionName other = .ok ()) (hne : name ≠ other) :
    resolve (sessionPath root name) ≠ resolve (sessionPath root other) := by
  intro heq
  rw [resolve_sessionPath hname, resolve_sessionPath hother] at heq
  have hlist := List.append_cancel_left heq
  exact hne (String.toList_inj.mp (List.cons.inj hlist).1)

/-- The file name of a log is one component. -/
theorem isName_log (log : Log) : IsName log.fileName.toList := by
  cases log <;> decide

/-- The file name of a log's previous generation is one component. -/
theorem isName_previousLog (log : Log) : IsName (log.fileName ++ ".prev").toList := by
  cases log <;> decide

/-- A temp file is named after its target. -/
theorem isName_tempName {file : String} (hfile : '/' ∉ file.toList) (pid unique : ℕ) :
    IsName (tempName file pid unique).toList := by
  have hdigits : ∀ n : ℕ, '/' ∉ n.repr.toList :=
    fun n hslash => absurd (isDigit_of_mem_repr hslash) (by decide)
  have hlong : 2 < (tempName file pid unique).toList.length := by
    rw [toList_tempName]
    simp only [List.length_append, List.length_cons, String.length_toList]
    have hmark : ".tmp.".length = 5 := by decide
    omega
  constructor
  · intro hnil
    simp [hnil] at hlong
  · rw [toList_tempName]
    simp only [List.mem_append, List.mem_cons, not_or]
    exact ⟨⟨⟨by decide, hfile⟩, by decide⟩, hdigits pid, by decide, hdigits unique⟩
  · intro hdot
    simp [hdot] at hlong
  · intro hdots
    simp [hdots] at hlong

/-- An ending goes to the last component. -/
theorem joinPath_append {base path : List Char} (hne : path ≠ []) (ending : List Char) :
    joinPath base path ++ ending = joinPath base (path ++ ending) := by
  have hhead : (path ++ ending).head? = path.head? := List.head?_append_of_ne_nil path hne
  unfold joinPath
  rw [hhead]
  split_ifs <;> simp

/-- The previous generation of a log stands beside it. -/
theorem previousPath_sessionFile (root name : String) (log : Log) :
    previousPath (sessionFile root name log.fileName) =
      sessionFile root name (log.fileName ++ ".prev") := by
  unfold previousPath sessionFile
  rw [joinPath_append (isName_log log).ne_nil, String.toList_append]

/-- A file of a session is inside the session's directory. -/
theorem sessionFile_inside {file : String} (hfile : IsName file.toList) :
    StrictlyInside (sessionFile root name file) (sessionPath root name) := by
  apply IsChild.strictlyInside
  exact ⟨file.toList, resolve_joinPath hfile _⟩

/-- The paths of an atomic write, the temporary one included, are inside the session's directory.
-/
theorem atomicPaths_inside {file : String} (hfile : IsName file.toList) {pid unique : ℕ}
    {path : List Char} (hpath : path ∈ atomicPaths root name file pid unique) :
    StrictlyInside path (sessionPath root name) := by
  rcases List.mem_cons.mp hpath with rfl | htarget
  · exact sessionFile_inside (isName_tempName hfile.slash_not_mem pid unique)
  · rw [List.mem_singleton.mp htarget]
    exact sessionFile_inside hfile

/-- Every path of an action belongs to the session that the action works on. -/
theorem Act.path_inside {a : Act} {pid unique : ℕ} {path : List Char}
    (hpath : path ∈ a.paths root pid unique) :
    ∃ name, a.session = some name ∧
      (path = sessionPath root name ∨ StrictlyInside path (sessionPath root name)) := by
  -- Every path but that of the directory is one of a file in it.
  have hfile : ∀ {name file : String}, IsName file.toList → path ∈ [sessionFile root name file] →
      path = sessionPath root name ∨ StrictlyInside path (sessionPath root name) := by
    intro name file hname hmem
    rw [List.mem_singleton.mp hmem]
    exact .inr (sessionFile_inside hname)
  cases a with
  | process a => cases hpath
  | disk a =>
    cases a with
    | ensureBridgeDir name => exact ⟨name, rfl, .inl (List.mem_singleton.mp hpath)⟩
    | saveMetadata site m => exact ⟨m.name, rfl, .inr (atomicPaths_inside (by decide) hpath)⟩
    | acquireStartLock name => exact ⟨name, rfl, hfile (by decide) hpath⟩
    | acquireStatusLock name => exact ⟨name, rfl, hfile (by decide) hpath⟩
    | loadMetadata name => exact ⟨name, rfl, hfile (by decide) hpath⟩
    | dropStartLock name | dropStatusLock name | readSessions => cases hpath
  | file a =>
    cases a with
    | fifoExists name | removeFifo name | mkfifo name | openFifo name | openFifoWriter name =>
      exact ⟨name, rfl, hfile (by decide) hpath⟩
    | logLength log name | createPrivateLog log name | openAppend log name =>
      exact ⟨name, rfl, hfile (isName_log log) hpath⟩
    | renameLog log name =>
      refine ⟨name, rfl, ?_⟩
      rcases List.mem_cons.mp hpath with rfl | hprevious
      · exact .inr (sessionFile_inside (isName_log log))
      · rw [previousPath_sessionFile] at hprevious
        exact hfile (isName_previousLog log) hprevious
    | createScreen name => exact ⟨name, rfl, hfile (by decide) hpath⟩
    | writeScreen name text => exact ⟨name, rfl, .inr (atomicPaths_inside (by decide) hpath)⟩
    | _ => cases hpath

/-- Every path an access touches is the directory of the session it names, or inside it. -/
theorem Access.path_inside {a : Access} {pid unique : ℕ} {path : List Char}
    (hpath : path ∈ a.paths root pid unique) :
    ∃ name, a.session = some name ∧
      (path = sessionPath root name ∨ StrictlyInside path (sessionPath root name)) := by
  cases a with
  | act a => exact a.path_inside hpath
  | ensureSessionsRoot => cases hpath
  | readLog log name =>
    rw [List.mem_singleton.mp hpath]
    exact ⟨name, rfl, .inr (sessionFile_inside (isName_log log))⟩
  | readScreen name =>
    rw [List.mem_singleton.mp hpath]
    exact ⟨name, rfl, .inr (sessionFile_inside (by decide))⟩
  | statLog name =>
    rw [List.mem_singleton.mp hpath]
    exact ⟨name, rfl, .inr (sessionFile_inside (by decide))⟩

end IgnibyteBridge
