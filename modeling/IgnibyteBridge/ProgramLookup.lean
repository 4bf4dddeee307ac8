import IgnibyteBridge.Search.FirstMatch
import IgnibyteBridge.SearchPath

/-!
# Looking up the program of a session

`supervise_pty` looks a bare program name up in the child's `PATH` before it sets
the child's working directory. In the daemon that lookup sees a relative entry
from the daemon's own directory, while the path it finds is used from the
session's.
-/

namespace IgnibyteBridge

/-- What `is_executable` reads of a file. -/
structure FileAttributes where
  isFile : Bool
  /-- The permission bits. -/
  mode : ℕ

/-- A file that may be executed by someone. -/
def FileAttributes.executable (a : FileAttributes) : Bool := a.isFile && (a.mode &&& 0o111) != 0

section

variable {File : Type} (files : List Char → Option File) (attributes : File → FileAttributes)

/-- `is_executable` in a process with this working directory. -/
def isExecutable (workingDir path : List Char) : Bool :=
  match files (joinPath workingDir path) with
  | some file => (attributes file).executable
  | none => false

/-- The places where `resolve_program_path` looks for a program. -/
def programCandidates (program path : List Char) : List (List Char) :=
  ((pathEntries path).filter fun entry => !entry.isEmpty).map fun entry => joinPath entry program

/-- `resolve_program_path` in a process with this working directory. -/
def resolveProgramPath (workingDir program path : List Char) : Option (List Char) :=
  if '/' ∈ program then some program
  else (programCandidates program path).find? (isExecutable files attributes workingDir)

/-- The spawner of a session: a path is taken from the session's directory, and a
bare name is looked up in the spawner's own way. -/
structure Spawner (cwd : List Char) where
  run : List Char → Option File
  run_path : ∀ path, '/' ∈ path → run path = files (joinPath cwd path)

/-- The file that `supervise_pty` runs, in a daemon with this working directory. -/
def startedFile {cwd : List Char} (spawner : Spawner files cwd)
    (workingDir program path : List Char) : Option File :=
  spawner.run ((resolveProgramPath files attributes workingDir program path).getD program)

end

section

variable {File : Type} {files : List Char → Option File} {attributes : File → FileAttributes}

/-- An entry and a name make a path, not a bare name. -/
theorem slash_mem_joinPath {base path : List Char} (hbase : base ≠ []) :
    '/' ∈ joinPath base path := by
  unfold joinPath
  split_ifs with habsolute hends
  · exact List.mem_of_mem_head? habsolute
  · rcases hends with hempty | hlast
    · exact absurd hempty hbase
    · exact List.mem_append_left _ (List.mem_of_getLast? hlast)
  · simp

/-- Every candidate on the PATH has a slash, so it is no bare name. -/
theorem slash_mem_candidate {program path c : List Char} (hc : c ∈ programCandidates program path) :
    '/' ∈ c := by
  obtain ⟨entry, hentry, rfl⟩ := List.mem_map.mp hc
  apply slash_mem_joinPath
  intro hempty
  simp [hempty] at hentry

/-- What runs is what a search through the candidates yields. -/
theorem startedFile_eq_firstMatch {cwd program : List Char} (hprogram : '/' ∉ program)
    (spawner : Spawner files cwd) (workingDir path : List Char) :
    startedFile files attributes spawner workingDir program path =
      Search.firstMatch (isExecutable files attributes workingDir)
        (fun c => files (joinPath cwd c)) (spawner.run program)
        (programCandidates program path) := by
  unfold startedFile resolveProgramPath Search.firstMatch
  rw [if_neg hprogram]
  cases hfind : (programCandidates program path).find? (isExecutable files attributes workingDir) with
  | none => rfl
  | some c =>
    have hc : c ∈ programCandidates program path := List.mem_of_find?_eq_some hfind
    exact spawner.run_path c (slash_mem_candidate hc)

/-- **The daemon's directory.** A start runs what a lookup from the session's
directory finds, exactly if the lookups from the session's and from the daemon's
directory go the same way. -/
theorem startedFile_eq_session_iff {cwd : List Char} (spawner : Spawner files cwd)
    (workingDir program clientPath : List Char) (home : Option (List Char))
    (hprogram : '/' ∉ program) :
    startedFile files attributes spawner workingDir program (childPath clientPath home) =
        startedFile files attributes spawner cwd program (childPath clientPath home) ↔
      Search.FoundAlike (isExecutable files attributes cwd)
        (isExecutable files attributes workingDir)
        (fun c => files (joinPath cwd c)) (spawner.run program)
        (programCandidates program (childPath clientPath home)) := by
  rw [startedFile_eq_firstMatch hprogram, startedFile_eq_firstMatch hprogram]
  apply Search.firstMatch_eq_firstMatch_iff
  intro a b hsame
  simp only [isExecutable, hsame]

/-- An absolute path is the same from every directory. -/
theorem joinPath_absolute {path : List Char} (h : path.head? = some '/') (base : List Char) :
    joinPath base path = path := if_pos h

/-- With absolute entries only, the daemon's directory does not matter. -/
theorem startedFile_of_absolute {cwd : List Char} (spawner : Spawner files cwd)
    {workingDir program path : List Char} (hprogram : '/' ∉ program)
    (habsolute : ∀ entry ∈ pathEntries path, entry ≠ [] → entry.head? = some '/') :
    startedFile files attributes spawner workingDir program path =
      startedFile files attributes spawner cwd program path := by
  have hcandidate : ∀ c ∈ programCandidates program path, c.head? = some '/' := by
    intro c hc
    obtain ⟨entry, hentry, rfl⟩ := List.mem_map.mp hc
    obtain ⟨hmem, hfilled⟩ := List.mem_filter.mp hentry
    have hne : entry ≠ [] := by simpa using hfilled
    have hhead := habsolute entry hmem hne
    have hrelative : ¬program.head? = some '/' := fun h => hprogram (List.mem_of_mem_head? h)
    cases entry with
    | nil => exact absurd rfl hne
    | cons c entry =>
      unfold joinPath
      rw [if_neg hrelative]
      split_ifs <;> simpa using hhead
  rw [startedFile_eq_firstMatch hprogram, startedFile_eq_firstMatch hprogram]
  apply Search.firstMatch_congr
  intro c hc
  simp only [isExecutable, joinPath_absolute (hcandidate c hc)]

end

/-! ## A relative entry -/

/-- Two programs of one name, below the session's directory `/w` and in `/b`. -/
def toolFiles (path : List Char) : Option Bool :=
  if path = "/w/bin/t".toList then some true
  else if path = "/b/t".toList then some false
  else none

/-- Everyone may execute both. -/
def toolAttributes (_ : Bool) : FileAttributes := ⟨true, 0o755⟩

/-- A spawner that takes every program from the session's directory. -/
def toolSpawner : Spawner toolFiles "/w".toList where
  run path := toolFiles (joinPath "/w".toList path)
  run_path _ _ := rfl

/-- A daemon in `/` runs the session's choice where an absolute entry comes first. -/
theorem startedFile_eq_session_iff_tool :
    '/' ∉ "t".toList ∧
      startedFile toolFiles toolAttributes toolSpawner "/".toList "t".toList
          (childPath "/b:bin".toList none) =
        startedFile toolFiles toolAttributes toolSpawner "/w".toList "t".toList
          (childPath "/b:bin".toList none) :=
  have hprogram : '/' ∉ "t".toList := by decide
  ⟨hprogram, (startedFile_eq_session_iff toolSpawner "/".toList "t".toList "/b:bin".toList none
    hprogram).mpr (.both (by decide) (by decide))⟩

/-- Where `bin` comes first, it does not see the session's program and runs another one. -/
theorem startedFile_other_directory :
    '/' ∉ "t".toList ∧
      startedFile toolFiles toolAttributes toolSpawner "/w".toList "t".toList
        (childPath "bin:/b".toList none) = some true ∧
      startedFile toolFiles toolAttributes toolSpawner "/".toList "t".toList
        (childPath "bin:/b".toList none) = some false := by
  refine ⟨by decide, by decide, by decide⟩

end IgnibyteBridge
