import IgnibyteBridge.Paths
import IgnibyteBridge.Session.Metadata
import IgnibyteBridge.Text.Decimal
import IgnibyteBridge.Text.Records
import Mathlib.Data.List.Forall2
import Mathlib.Data.String.Basic

/-!
# Reports

`list_sessions_text` and `status_text` of `session.rs`: reports on lines, made for
callers that split them again. The words of a command and the path of a directory
go in as they are.
-/

namespace IgnibyteBridge

open Text

/-- What a report says about a session: its record, whether the recorded processes
are alive, and the activity of its raw log. -/
structure SessionView where
  metadata : SessionMetadata
  supervisorAlive : Bool
  childAlive : Bool
  /-- `session_activity`: the time of the last output, the seconds since, and the bytes. -/
  activity : Option (ℕ × ℕ × ℕ)
  /-- The name was accepted when the session was started. -/
  name_valid : validateSessionName metadata.name = .ok ()

/-- The sessions that `list_sessions_text` finds, in the order of the directory. -/
structure SessionSet where
  sessions : List SessionView
  /-- Each has a directory of its own. -/
  names_nodup : (sessions.map fun v => v.metadata.name).Nodup

/-- A status as it is printed. -/
def SessionStatus.debug : SessionStatus → String
  | .starting => "Starting"
  | .running => "Running"
  | .stopped => "Stopped"

/-- An optional PID as it is printed. -/
def debugPid : Option ℕ → String
  | none => "None"
  | some pid => "Some(" ++ pid.repr ++ ")"

/-- A truth value as it is printed. -/
def displayBool (b : Bool) : String := if b then "true" else "false"

namespace SessionView

/-- The words of the command, as they are printed. -/
def command (v : SessionView) : String := String.intercalate " " v.metadata.command

/-- The column `idle` of a listing. -/
def idle (v : SessionView) : String :=
  match v.activity with
  | some (_, idleSeconds, _) => idleSeconds.repr ++ "s"
  | none => "-"

/-- A session's line in a listing. -/
def line (v : SessionView) : String :=
  v.metadata.name ++ "\t" ++ v.metadata.status.debug ++ "\t" ++
    ("child_alive=" ++ displayBool v.childAlive) ++ "\t" ++ ("idle=" ++ v.idle) ++ "\t" ++
      ("cmd=" ++ v.command)

/-- The keys of a status report that every session has. -/
def recordEntries (v : SessionView) : List (String × String) :=
  [("name", v.metadata.name), ("status", v.metadata.status.debug), ("cwd", v.metadata.cwd),
    ("command", v.command), ("geometry", v.metadata.rows.repr ++ "x" ++ v.metadata.cols.repr),
    ("supervisor_pid", debugPid v.metadata.supervisorPid),
    ("supervisor_alive", displayBool v.supervisorAlive),
    ("child_pid", debugPid v.metadata.childPid), ("child_alive", displayBool v.childAlive)]

/-- The keys of a session with a raw log. -/
def activityEntries (v : SessionView) : List (String × String) :=
  match v.activity with
  | some (lastOutputUnix, idleSeconds, outputBytes) =>
    [("last_output_unix", lastOutputUnix.repr), ("idle_seconds", idleSeconds.repr),
      ("output_bytes", outputBytes.repr)]
  | none => []

/-- The key of a session that is over. -/
def exitEntries (v : SessionView) : List (String × String) :=
  match v.metadata.exitStatus with
  | some exitStatus => [("exit_status", exitStatus)]
  | none => []

/-- The keys of a status report with their values. -/
def entries (v : SessionView) : List (String × String) :=
  v.recordEntries ++ v.activityEntries ++ v.exitEntries

end SessionView

/-- A line of a status report. -/
def entryLine (entry : String × String) : String := entry.1 ++ ": " ++ entry.2

/-- `status_text`, once the record is loaded. -/
def statusText (v : SessionView) : String :=
  String.join (v.entries.map fun entry => entryLine entry ++ "\n")

/-- The sessions in the order of their names. -/
def sortByName (sessions : List SessionView) : List SessionView :=
  sessions.mergeSort fun left right => decide (left.metadata.name ≤ right.metadata.name)

/-- `list_sessions_text`, once the records are loaded. -/
def listSessionsText (sessions : List SessionView) : String :=
  if sessions.isEmpty then "no sessions\n"
  else String.join ((sortByName sessions).map fun v => v.line ++ "\n")

/-! ## What the reports should say -/

/-- The fields of a line by which a caller tells the session and what it does. -/
def SessionView.fields (v : SessionView) : List (List Char) :=
  [v.metadata.name.toList, v.metadata.status.debug.toList,
    ("child_alive=" ++ displayBool v.childAlive).toList]

/-- A listing has one line for each session, in ascending order of the names, and the
tab-separated fields of each line tell its name, status and liveness. -/
def Listed (set : SessionSet) : Prop :=
  if set.sessions = [] then listSessionsText set.sessions = "no sessions\n"
  else ∃ order : List SessionView, order.Perm set.sessions ∧
    order.Pairwise (fun left right => left.metadata.name < right.metadata.name) ∧
    List.Forall₂ (fun line v => (line.splitOn '\t').take 3 = v.fields)
      (splitLines (listSessionsText set.sessions).toList) order

/-- A status report has one line for each key, and the value stands behind it. -/
def Reported (v : SessionView) : Prop :=
  splitLines (statusText v).toList = v.entries.map fun entry => (entryLine entry).toList

/-- The text is on one line. -/
def OneLine (s : String) : Prop := '\n' ∉ s.toList

instance (s : String) : Decidable (OneLine s) := inferInstanceAs (Decidable (_ ∉ _))

/-- Nothing in the session's command, directory or exit status breaks a line. -/
def SessionView.Unbroken (v : SessionView) : Prop :=
  OneLine v.command ∧ OneLine v.metadata.cwd ∧ ∀ exitStatus, v.metadata.exitStatus = some exitStatus →
    OneLine exitStatus

/-! ## Lines -/

/-- A text is one line when both of its parts are. -/
theorem oneLine_append {s t : String} : OneLine (s ++ t) ↔ OneLine s ∧ OneLine t := by
  rw [OneLine, String.toList_append, List.mem_append, not_or]
  rfl

/-- A number is one line. -/
theorem oneLine_repr (n : ℕ) : OneLine n.repr := by
  intro h
  exact absurd (isDigit_of_mem_repr h) (by decide)

/-- A truth value is one line. -/
theorem oneLine_displayBool (b : Bool) : OneLine (displayBool b) := by
  cases b <;> decide

/-- A PID is one line. -/
theorem oneLine_debugPid (pid : Option ℕ) : OneLine (debugPid pid) := by
  cases pid with
  | none => decide
  | some pid =>
    have hopen : OneLine "Some(" := by decide
    have hclose : OneLine ")" := by decide
    exact oneLine_append.mpr ⟨oneLine_append.mpr ⟨hopen, oneLine_repr pid⟩, hclose⟩

/-- A status is one line. -/
theorem oneLine_debug (status : SessionStatus) : OneLine status.debug := by
  cases status <;> decide

/-- An entry is one line when its key and its value are. -/
theorem oneLine_entryLine {key value : String} :
    OneLine (entryLine (key, value)) ↔ OneLine key ∧ OneLine value := by
  have hcolon : OneLine ": " := by decide
  simp only [entryLine, oneLine_append, hcolon, and_true]

namespace SessionView

variable (v : SessionView)

/-- A character that names lack is in no name. -/
theorem name_not_mem {c : Char} (hc : nameChar c = false) : c ∉ v.metadata.name.toList := by
  intro h
  have htrue := nameChar_of_valid v.name_valid c h
  rw [hc] at htrue
  cases htrue

/-- A name is one line. -/
theorem oneLine_name : OneLine v.metadata.name := v.name_not_mem (by decide)

/-- An idle time is one line. -/
theorem oneLine_idle : OneLine v.idle := by
  unfold idle
  cases v.activity with
  | none => decide
  | some activity =>
    have hunit : OneLine "s" := by decide
    exact oneLine_append.mpr ⟨oneLine_repr _, hunit⟩

/-- A line of a listing is broken by the command only. -/
theorem oneLine_line : OneLine v.line ↔ OneLine v.command := by
  have htab : OneLine "\t" := by decide
  have hchild : OneLine "child_alive=" := by decide
  have hidle : OneLine "idle=" := by decide
  have hcmd : OneLine "cmd=" := by decide
  simp only [line, oneLine_append, v.oneLine_name, oneLine_debug, oneLine_displayBool,
    v.oneLine_idle, htab, hchild, hidle, hcmd, true_and, and_true]

/-- The first fields of a line are the session's own. -/
theorem take_fields : (v.line.toList.splitOn '\t').take 3 = v.fields := by
  have hname : '\t' ∉ v.metadata.name.toList := v.name_not_mem (by decide)
  have hstatus : '\t' ∉ v.metadata.status.debug.toList := by
    cases v.metadata.status <;> decide
  have halive : '\t' ∉ ("child_alive=" ++ displayBool v.childAlive).toList := by
    cases v.childAlive <;> decide
  have hline : v.line.toList = v.metadata.name.toList ++ '\t' :: (v.metadata.status.debug.toList ++
      '\t' :: (("child_alive=" ++ displayBool v.childAlive).toList ++
        '\t' :: (("idle=" ++ v.idle) ++ "\t" ++ ("cmd=" ++ v.command)).toList)) := by
    have htab : "\t".toList = ['\t'] := rfl
    simp only [line, String.toList_append, htab, List.append_assoc, List.cons_append,
      List.nil_append]
  rw [hline, splitOn_append_of_not_mem hname, splitOn_append_of_not_mem hstatus,
    splitOn_append_of_not_mem halive]
  rfl

/-- The fixed entries are broken by the directory or the command only. -/
theorem oneLine_recordEntries :
    (∀ entry ∈ v.recordEntries, OneLine (entryLine entry)) ↔
      OneLine v.metadata.cwd ∧ OneLine v.command := by
  have hgeometry : OneLine (v.metadata.rows.repr ++ "x" ++ v.metadata.cols.repr) := by
    have htimes : OneLine "x" := by decide
    simp only [oneLine_append, oneLine_repr, htimes, and_self]
  simp only [recordEntries, List.forall_mem_cons, oneLine_entryLine,
    v.oneLine_name, oneLine_debug, hgeometry, oneLine_debugPid, oneLine_displayBool]
  simp +decide

/-- The entries about activity are one line each. -/
theorem oneLine_activityEntries : ∀ entry ∈ v.activityEntries, OneLine (entryLine entry) := by
  unfold activityEntries
  cases v.activity with
  | none => nofun
  | some activity =>
    simp only [List.forall_mem_cons, oneLine_entryLine, oneLine_repr]
    simp +decide

/-- The entries about the exit are one line each when the exit status is. -/
theorem oneLine_exitEntries :
    (∀ entry ∈ v.exitEntries, OneLine (entryLine entry)) ↔
      ∀ exitStatus, v.metadata.exitStatus = some exitStatus → OneLine exitStatus := by
  have hkey : OneLine "exit_status" := by decide
  unfold exitEntries
  cases v.metadata.exitStatus with
  | none => exact iff_of_true nofun nofun
  | some exitStatus => simp [oneLine_entryLine, hkey]

/-- An entry is broken by the directory, the command or the exit status only. -/
theorem oneLine_entries :
    (∀ entry ∈ v.entries, OneLine (entryLine entry)) ↔ v.Unbroken := by
  rw [entries, List.forall_mem_append, List.forall_mem_append, oneLine_recordEntries,
    oneLine_exitEntries, Unbroken]
  constructor
  · rintro ⟨⟨⟨hcwd, hcommand⟩, -⟩, hexit⟩
    exact ⟨hcommand, hcwd, hexit⟩
  · rintro ⟨hcommand, hcwd, hexit⟩
    exact ⟨⟨⟨hcwd, hcommand⟩, v.oneLine_activityEntries⟩, hexit⟩

end SessionView

/-- A listing is made of the lines of the sorted sessions. -/
theorem toList_listSessionsText {sessions : List SessionView} (h : sessions ≠ []) :
    (listSessionsText sessions).toList =
      terminated ((sortByName sessions).map fun v => v.line.toList) := by
  have hfilled : sessions.isEmpty = false := by simpa using h
  rw [listSessionsText, hfilled, if_neg Bool.false_ne_true, String.toList_join, terminated,
    List.flatMap_map, List.flatMap_map]
  simp only [String.toList_append]
  rfl

/-- A status report is a line for each entry. -/
theorem toList_statusText (v : SessionView) :
    (statusText v).toList = terminated (v.entries.map fun entry => (entryLine entry).toList) := by
  rw [statusText, String.toList_join, terminated, List.flatMap_map, List.flatMap_map]
  simp only [String.toList_append]
  rfl

/-- The sessions are sorted, and none has the name of another. -/
theorem pairwise_sortByName (set : SessionSet) :
    (sortByName set.sessions).Pairwise fun left right =>
      left.metadata.name < right.metadata.name := by
  let byName := fun left right : SessionView => decide (left.metadata.name ≤ right.metadata.name)
  have htrans : ∀ a b c, byName a b = true → byName b c = true → byName a c = true := by
    intro a b c hab hbc
    simp only [byName, decide_eq_true_eq] at hab hbc ⊢
    exact hab.trans hbc
  have htotal : ∀ a b, (byName a b || byName b a) = true := by
    intro a b
    simpa [byName] using le_total a.metadata.name b.metadata.name
  have hsorted := List.pairwise_mergeSort htrans htotal set.sessions
  have hperm : (sortByName set.sessions).Perm set.sessions := List.mergeSort_perm _ _
  have hnodup : ((sortByName set.sessions).map fun v => v.metadata.name).Nodup :=
    (hperm.map _).nodup_iff.mpr set.names_nodup
  have hdistinct := List.pairwise_map.mp hnodup
  refine (hsorted.and hdistinct).imp ?_
  rintro left right ⟨hle, hne⟩
  exact lt_of_le_of_ne (by simpa [byName] using hle) hne

/-- A listing is read back when every command is one line. -/
theorem listed_iff (set : SessionSet) : Listed set ↔ ∀ v ∈ set.sessions, OneLine v.command := by
  unfold Listed
  have hperm : (sortByName set.sessions).Perm set.sessions := List.mergeSort_perm _ _
  by_cases hempty : set.sessions = []
  · rw [if_pos hempty, hempty]
    simp [listSessionsText]
  · rw [if_neg hempty, toList_listSessionsText hempty]
    constructor
    · rintro ⟨order, horder, -, hlines⟩
      have hlength : (splitLines (terminated ((sortByName set.sessions).map
          fun v => v.line.toList))).length = ((sortByName set.sessions).map
            fun v => v.line.toList).length := by
        rw [hlines.length_eq, horder.length_eq, List.length_map, hperm.length_eq]
      have hunbroken := (length_splitLines_terminated_iff _).mp hlength
      intro v hv
      have hmem : v.line.toList ∈ (sortByName set.sessions).map fun v => v.line.toList :=
        List.mem_map_of_mem (hperm.mem_iff.mpr hv)
      exact v.oneLine_line.mp (hunbroken _ hmem)
    · intro hunbroken
      refine ⟨sortByName set.sessions, hperm, pairwise_sortByName set, ?_⟩
      have hlines : ∀ line ∈ (sortByName set.sessions).map fun v => v.line.toList,
          '\n' ∉ line := by
        intro line hline
        obtain ⟨v, hv, rfl⟩ := List.mem_map.mp hline
        exact v.oneLine_line.mpr (hunbroken v (hperm.mem_iff.mp hv))
      rw [splitLines_terminated hlines, List.forall₂_map_left_iff]
      exact List.forall₂_same.mpr fun v _ => v.take_fields

/-- A status report is read back when its unchecked values are one line. -/
theorem reported_iff (v : SessionView) : Reported v ↔ v.Unbroken := by
  rw [Reported, toList_statusText, ← v.oneLine_entries]
  constructor
  · intro hlines
    have hlength := congrArg List.length hlines
    have hunbroken := (length_splitLines_terminated_iff _).mp hlength
    intro entry hentry
    exact hunbroken _ (List.mem_map_of_mem hentry)
  · intro hunbroken
    apply splitLines_terminated
    intro line hline
    obtain ⟨entry, hentry, rfl⟩ := List.mem_map.mp hline
    exact hunbroken entry hentry

/-- **Reports that cannot be forged.** The listing tells every session by a line of its
own, and every status report tells each key by one, exactly if no session has a newline
in its command, its directory or its exit status. -/
theorem reports_iff (set : SessionSet) :
    (Listed set ∧ ∀ v ∈ set.sessions, Reported v) ↔ ∀ v ∈ set.sessions, v.Unbroken := by
  rw [listed_iff]
  constructor
  · rintro ⟨-, hreported⟩ v hv
    exact (reported_iff v).mp (hreported v hv)
  · intro hunbroken
    exact ⟨fun v hv => (hunbroken v hv).1, fun v hv => (reported_iff v).mpr (hunbroken v hv)⟩

/-- A running session `a` with a second word. -/
def echoMetadata (word : String) : SessionMetadata :=
  (initialMetadata "a" "/" ["echo", word] 1 none none).promoted

/-- The session of the example has a valid name. -/
theorem echoMetadata_valid (word : String) :
    validateSessionName (echoMetadata word).name = .ok () := by
  change validateSessionName "a" = .ok ()
  decide +kernel

/-- The session alone in its directory. -/
def echoView (word : String) : SessionView :=
  ⟨echoMetadata word, false, true, none, echoMetadata_valid word⟩

/-- The session is the only one of its name. -/
theorem echoView_nodup (word : String) :
    ([echoView word].map fun v => v.metadata.name).Nodup :=
  List.pairwise_singleton _ _

def echoSet (word : String) : SessionSet := ⟨[echoView word], echoView_nodup word⟩

/-- A word without a newline. -/
theorem reports_iff_hello :
    Listed (echoSet "hello") ∧ ∀ v ∈ (echoSet "hello").sessions, Reported v := by
  refine (reports_iff (echoSet "hello")).mpr fun v hv => ?_
  obtain rfl := List.mem_singleton.mp hv
  exact ⟨by decide, by decide, nofun⟩

/-- A word that adds the line of a session `b`. -/
theorem listed_forged :
    (splitLines (listSessionsText (echoSet "\nb\tRunning\tchild_alive=true").sessions).toList).map
        (fun line => (line.splitOn '\t').take 3) =
      [["a".toList, "Running".toList, "child_alive=true".toList],
        ["b".toList, "Running".toList, "child_alive=true".toList]] ∧
      ¬Listed (echoSet "\nb\tRunning\tchild_alive=true") ∧
      ¬Reported (echoView "\nb\tRunning\tchild_alive=true") := by
  have hcommand : ¬OneLine (echoView "\nb\tRunning\tchild_alive=true").command := by decide
  have hsort : sortByName (echoSet "\nb\tRunning\tchild_alive=true").sessions =
      [echoView "\nb\tRunning\tchild_alive=true"] := List.mergeSort_singleton _
  refine ⟨?_, ?_, ?_⟩
  · have hfilled : (echoSet "\nb\tRunning\tchild_alive=true").sessions ≠ [] := List.cons_ne_nil _ _
    rw [toList_listSessionsText hfilled, hsort]
    decide +kernel
  · rw [listed_iff]
    exact fun h => hcommand (h _ (List.mem_singleton.mpr rfl))
  · rw [reported_iff]
    exact fun h => hcommand h.1

end IgnibyteBridge
