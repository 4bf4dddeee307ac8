import IgnibyteBridge.Session.Readers
import IgnibyteBridge.Session.Isolation
import IgnibyteBridge.Session.Taping

/-!
# What is recorded of a session's output

No byte is lost or made up between a process that prints and the files of the logs: a PTY's
output is read once, in order, files hold what was appended to them, and capture threads
append what they read.
-/

namespace IgnibyteBridge

open Concurrency Program Fallible World

namespace World

/-! ### Files of logs -/

/-- A file that is no clean log, and never will be. -/
def Apart (f : Files) (file : ℕ) : Prop :=
  file < f.nextInode ∧ ∀ name, f.log .clean name ≠ some file

variable {w w' : World} {i : ℕ} {a : Act} {c : Choice} {r : a.Response}

/-- A file that is no clean log never becomes one. -/
theorem Apart.grows {f f' : Files} {file : ℕ} (h : Apart f file) (hgrows : Grows f f') :
    Apart f' file := by
  obtain ⟨hinode, l₀, n₀, hlog⟩ := hgrows
  refine ⟨Nat.lt_of_lt_of_le h.1 hinode, fun name hname => ?_⟩
  rcases hlog .clean name file hname with hold | ⟨hnew, -⟩
  · exact h.2 name hold
  · have hbound := h.1
    omega

/-- Raw logs are no clean logs. -/
structure Shelved (w : World) (γ : ℕ → Tape) : Prop where
  opened : ∀ i file, (γ i).rawLog = some file → Apart w.files file
  raw : ∀ name file, w.files.log .raw name = some file → Apart w.files file
  clean : ∀ name file, w.files.log .clean name = some file → file < w.files.nextInode

/-- A log that a thread opens is the file that its call returns. -/
theorem openAppend_path {l : Log} {name : String} {file : ℕ}
    (h : perform i (.file (.openAppend l name)) c w = some (some file, w')) :
    w'.files.log l name = some file := by
  obtain ⟨f, hperform, rfl⟩ := perform_file h
  exact openAppend_log hperform

/-- A raw log that is opened is no clean log. -/
theorem Shelved.act (env : Env) {γ : ℕ → Tape} (hJ : Shelved w γ)
    (h : perform i a c w = some (r, w')) :
    (Tape.discipline env).fact a (γ i) r ∧
      Shelved w' (ghosts (bridge env) (Tape.discipline env) Tape.fresh γ i a r) := by
  have hgrows := perform_grows h
  have hraw : ∀ name file, w'.files.log .raw name = some file → Apart w'.files file := by
    intro name file hfile
    obtain ⟨hinode, l₀, n₀, hlog⟩ := id hgrows
    rcases hlog .raw name file hfile with hold | ⟨rfl, hlt, rfl, -⟩
    · exact (hJ.raw name file hold).grows hgrows
    · refine ⟨hlt, fun name' hclean => ?_⟩
      rcases hlog .clean name' _ hclean with hold | ⟨-, -, hl, -⟩
      · exact absurd (hJ.clean name' _ hold) (Nat.lt_irrefl _)
      · cases hl
  have hclean : ∀ name file, w'.files.log .clean name = some file →
      file < w'.files.nextInode := by
    intro name file hfile
    obtain ⟨hinode, l₀, n₀, hlog⟩ := id hgrows
    rcases hlog .clean name file hfile with hold | ⟨rfl, hlt, -⟩
    · exact Nat.lt_of_lt_of_le (hJ.clean name file hold) hinode
    · exact hlt
  refine ⟨?_, fun k file hfile => ?_, hraw, hclean⟩
  · change Tape.fact a (γ i) r
    unfold Tape.fact
    split
    · rename_i name file
      exact fun hopen => ((hJ.opened i file hopen).grows hgrows).2 name (openAppend_path h)
    · trivial
  · rcases ghosts_cases (bridge env) (Tape.discipline env) Tape.fresh γ i a r k with
      ⟨p, -, heq⟩ | ⟨rfl, heq⟩ | ⟨-, heq⟩
    · have hnone : (Tape.fresh a (γ i) r).rawLog = none := by
        unfold Tape.fresh
        split <;> rfl
      rw [heq, hnone] at hfile
      cases hfile
    · rw [heq] at hfile
      change (Tape.post a (γ k) r).rawLog = some file at hfile
      unfold Tape.post at hfile
      split at hfile
      · obtain rfl := Option.some.inj hfile
        exact hraw _ _ (openAppend_path h)
      all_goals exact (hJ.opened k file hfile).grows hgrows
    · rw [heq] at hfile
      exact (hJ.opened k file hfile).grows hgrows

/-- A disturbance makes no file. -/
theorem disturb_made {e : Disturbance} (h : w.disturb e = some w') :
    w'.files.log = w.files.log ∧ w'.files.nextInode = w.files.nextInode ∧
      w'.files.contents = w.files.contents := by
  cases e with
  | clientKilled j =>
    simp only [World.disturb] at h
    split at h <;> cases h
    exact ⟨rfl, rfl, rfl⟩
  | processDies pid =>
    cases h
    exact ⟨rfl, rfl, rfl⟩
  | print pty bytes =>
    cases h
    exact ⟨rfl, rfl, rfl⟩
  | discard fifo =>
    obtain ⟨-, rfl⟩ := disturb_discard h
    exact ⟨rfl, rfl, rfl⟩

/-- No disturbance makes it one. -/
theorem Shelved.disturb {γ : ℕ → Tape} {e : Disturbance} (hJ : Shelved w γ)
    (h : w.disturb e = some w') : Shelved w' γ := by
  obtain ⟨hlog, hinode, -⟩ := disturb_made h
  have hgrows : Grows w.files w'.files := .of_same hlog hinode.ge
  refine ⟨fun k file hfile => (hJ.opened k file hfile).grows hgrows, fun name file hfile => ?_,
    fun name file hfile => ?_⟩
  · exact (hJ.raw name file (hlog ▸ hfile)).grows hgrows
  · rw [hinode]
    exact hJ.clean name file (hlog ▸ hfile)

/-- A thread that was never started has done nothing. -/
theorem births (env : Env) : Births (bridge env) fun w k => w.life k = .unborn where
  alive := alive_ne_unborn
  launched := launched_unborn
  act {i a c w r w' k} h hk := by
    by_contra hborn
    rcases perform_life_born h hborn with hsame | hgone
    · exact hborn (hsame.symm.trans hk)
    · cases hgone.symm.trans hk
  disturb {e w w' k} h hk := by
    rcases (disturb_handles h).2.2 k with hsame | ⟨-, hgone⟩
    · exact hsame.symm.trans hk
    · cases hgone.symm.trans hk

/-! ### PTYs and files -/

/-- What was printed on a PTY. -/
def printedOn (pty : ℕ) : Happening Act Act.Response Disturbance → List UInt8
  | .disturb (.print p bytes) => if p = pty then bytes else []
  | _ => []

/-- What was read from a PTY. -/
def readFrom (pty : ℕ) : Happening Act Act.Response Disturbance → List UInt8
  | .act _ (.file (.readPty p)) (some bytes) => if p = pty then bytes else []
  | _ => []

/-- What was appended to a file. -/
def appendedTo (file : ℕ) : Happening Act Act.Response Disturbance → List UInt8
  | .act _ (.file (.append f bytes)) _ => if f = file then bytes else []
  | _ => []

/-- Whether a call returned this file. -/
def returned (file : ℕ) : Happening Act Act.Response Disturbance → Bool
  | .act _ (.file (.createPrivateLog ..)) r | .act _ (.file (.openAppend ..)) r => r = some file
  | _ => false

/-- Whether a call created this log anew. -/
def created (file : ℕ) : Happening Act Act.Response Disturbance → Bool
  | .act _ (.file (.createPrivateLog ..)) r => r = some file
  | _ => false

/-- A call made or emptied this file: it created the log anew, or it opened it first. -/
def Empties (file : ℕ) (earlier : List (Happening Act Act.Response Disturbance))
    (x : Happening Act Act.Response Disturbance) : Prop :=
  created file x = true ∨ returned file x = true ∧ ∀ y ∈ earlier, returned file y = false

/-- Making a log leaves the PTYs' output. -/
theorem createLog_ptyOutput (f : Files) (l : Log) (name : String) :
    (createLog f l name).ptyOutput = f.ptyOutput := by
  unfold createLog
  split <;> rfl

/-- The file of a log is emptied, or made, and no other file changes. -/
theorem createLog_contents (f : Files) (l : Log) (name : String) :
    ∃ x, (createLog f l name).log l name = some x ∧
      (f.log l name = some x ∨ f.log l name = none ∧ x = f.nextInode) ∧
      (createLog f l name).contents = Function.update f.contents x [] := by
  unfold createLog
  split
  · next x hx => exact ⟨x, hx, .inl hx, rfl⟩
  · next hnone => exact ⟨f.nextInode, by simp, .inr ⟨hnone, rfl⟩, rfl⟩

/-- What is printed is read in that order. -/
theorem perform_ptyOutput (h : perform i a c w = some (r, w')) (pty : ℕ) :
    w.files.ptyOutput pty = readFrom pty (.act i a r) ++ w'.files.ptyOutput pty := by
  cases a with
  | disk a =>
    rw [performDisk_files h]
    rfl
  | process a =>
    have hsame : w'.files.ptyOutput = w.files.ptyOutput := by
      simp only [perform] at h
      cases a <;> simp only [performProcess] at h <;> (try split at h) <;> (try split at h) <;>
        cases h <;> rfl
    rw [hsame]
    rfl
  | file a =>
    obtain ⟨f, hperform, rfl⟩ := perform_file h
    cases a
    case readPty p =>
      simp only [performFile] at hperform
      split at hperform <;> cases hperform
      · by_cases hp : p = pty
        · subst hp
          simp [readFrom]
        · simp [readFrom, hp, Function.update_of_ne (Ne.symm hp)]
      · rfl
    all_goals
      simp only [performFile] at hperform
      (try split at hperform) <;> (try split at hperform) <;> cases hperform <;>
        first
        | rfl
        | exact (congrFun (createLog_ptyOutput ..) pty).symm

/-- A file grows by what is appended, or it is emptied by a call that returns it: one that
creates the log anew, or one that opens a log which was not there. -/
theorem perform_contents (happends : ∀ f bytes, a = .file (.append f bytes) → c.ok = true)
    (h : perform i a c w = some (r, w')) (file : ℕ) :
    w'.files.contents file = w.files.contents file ++ appendedTo file (.act i a r) ∨
      (w'.files.contents file = [] ∧ (created file (.act i a r) = true ∨
        returned file (.act i a r) = true ∧ w.files.nextInode ≤ file)) := by
  cases a with
  | disk a =>
    rw [performDisk_files h]
    exact .inl (List.append_nil _).symm
  | process a =>
    have hsame : w'.files.contents = w.files.contents := by
      simp only [perform] at h
      cases a <;> simp only [performProcess] at h <;> (try split at h) <;> (try split at h) <;>
        cases h <;> rfl
    rw [hsame]
    exact .inl (List.append_nil _).symm
  | file a =>
    obtain ⟨f, hperform, rfl⟩ := perform_file h
    cases a
    case append x bytes =>
      simp only [performFile, happends x bytes rfl, if_pos] at hperform
      cases hperform
      refine .inl ?_
      by_cases hx : x = file
      · subst hx
        simp [appendedTo]
      · simp [appendedTo, hx, Function.update_of_ne (Ne.symm hx)]
    case createPrivateLog l name =>
      simp only [performFile] at hperform
      split at hperform <;> cases hperform
      · obtain ⟨x, hlog, -, hcontents⟩ := createLog_contents w.files l name
        rw [hcontents]
        by_cases hx : file = x
        · subst hx
          exact .inr ⟨Function.update_self .., .inl (decide_eq_true hlog)⟩
        · rw [Function.update_of_ne hx]
          exact .inl (List.append_nil _).symm
      · exact .inl (List.append_nil _).symm
    case openAppend l name =>
      simp only [performFile] at hperform
      split at hperform
      · split at hperform <;> cases hperform
        · exact .inl (List.append_nil _).symm
        · next hnone =>
          obtain ⟨x, -, hold | ⟨-, rfl⟩, hcontents⟩ := createLog_contents w.files l name
          · cases hnone.symm.trans hold
          · rw [hcontents]
            by_cases hx : file = w.files.nextInode
            · subst hx
              exact .inr ⟨Function.update_self .., .inr ⟨decide_eq_true rfl, le_rfl⟩⟩
            · rw [Function.update_of_ne hx]
              exact .inl (List.append_nil _).symm
      · cases hperform
        exact .inl (List.append_nil _).symm
    all_goals
      simp only [performFile] at hperform
      (try split at hperform) <;> (try split at hperform) <;> cases hperform <;>
        exact .inl (List.append_nil _).symm

/-- A file that a call returns is one of a log. -/
theorem log_of_returned {file : ℕ} (h : perform i a c w = some (r, w'))
    (hreturned : returned file (.act i a r) = true) :
    ∃ l name, w'.files.log l name = some file := by
  unfold returned at hreturned
  split at hreturned
  · next heq =>
    cases heq
    obtain ⟨f, hperform, rfl⟩ := perform_file h
    simp only [performFile] at hperform
    split at hperform <;> cases hperform
    · exact ⟨_, _, of_decide_eq_true hreturned⟩
    · cases of_decide_eq_true hreturned
  · next heq =>
    cases heq
    rw [of_decide_eq_true hreturned] at h
    exact ⟨_, _, openAppend_path h⟩
  · cases hreturned

/-- Appending never fails. -/
def Appends (ok : World → ℕ → Act → Choice → Prop) : Prop :=
  ∀ w i file bytes c, ok w i (.file (.append file bytes)) c → c.ok = true

/-- What a file holds was appended to it, one piece after the other, since it was last
emptied, or since the beginning. -/
def WasAppended (history : List (Happening Act Act.Response Disturbance)) (file : ℕ)
    (bytes : List UInt8) : Prop :=
  ∃ before after, history = before ++ after ∧ bytes = after.flatMap (appendedTo file) ∧
    (before = [] ∨ ∃ earlier x, before = earlier ++ [x] ∧ Empties file earlier x)

/-- What is appended comes after what was. -/
theorem WasAppended.append {history : List (Happening Act Act.Response Disturbance)} {file : ℕ}
    {bytes : List UInt8} (h : WasAppended history file bytes)
    (x : Happening Act Act.Response Disturbance) :
    WasAppended (history ++ [x]) file (bytes ++ appendedTo file x) := by
  obtain ⟨before, after, rfl, rfl, hlast⟩ := h
  refine ⟨before, after ++ [x], List.append_assoc .., ?_, hlast⟩
  rw [List.flatMap_append, List.flatMap_singleton]

/-- A file that was emptied holds nothing yet. -/
theorem wasAppended_emptied {history : List (Happening Act Act.Response Disturbance)} {file : ℕ}
    {x : Happening Act Act.Response Disturbance} (hx : Empties file history x) :
    WasAppended (history ++ [x]) file [] :=
  ⟨history ++ [x], [], (List.append_nil _).symm, rfl, .inr ⟨history, x, rfl, hx⟩⟩

/-- The files of logs, and those that calls returned, were made. -/
structure Made (w : WithHistory Act Act.Response World Disturbance) : Prop where
  log : ∀ l name file, w.world.files.log l name = some file → file < w.world.files.nextInode
  returned : ∀ file, ∀ x ∈ w.history, returned file x = true → file < w.world.files.nextInode

/-- A file that a call returns was made by then. -/
theorem Made.act {w : WithHistory Act Act.Response World Disturbance} {w' : World} (hJ : Made w)
    (h : perform i a c w.world = some (r, w')) : Made ⟨w', w.history ++ [.act i a r]⟩ := by
  obtain ⟨hinode, l₀, n₀, hgrows⟩ := perform_grows h
  have hlog : ∀ l name file, w'.files.log l name = some file → file < w'.files.nextInode := by
    intro l name file hfile
    rcases hgrows l name file hfile with hold | ⟨rfl, hlt, -⟩
    · exact Nat.lt_of_lt_of_le (hJ.log l name file hold) hinode
    · exact hlt
  refine ⟨hlog, fun file x hx hreturned => ?_⟩
  rcases List.mem_append.mp hx with hx | hx
  · exact Nat.lt_of_lt_of_le (hJ.returned file x hx hreturned) hinode
  · obtain rfl := List.mem_singleton.mp hx
    obtain ⟨l, name, hfile⟩ := log_of_returned h hreturned
    exact hlog l name file hfile

/-- No disturbance makes a file. -/
theorem Made.disturb {w : WithHistory Act Act.Response World Disturbance} {w' : World}
    {e : Disturbance} (hJ : Made w) (h : w.world.disturb e = some w') :
    Made ⟨w', w.history ++ [.disturb e]⟩ := by
  obtain ⟨hlog, hinode, -⟩ := disturb_made h
  refine ⟨fun l name file hfile => ?_, fun file x hx hreturned => ?_⟩
  · change file < w'.files.nextInode
    rw [hinode]
    exact hJ.log l name file (hlog ▸ hfile)
  · change file < w'.files.nextInode
    rw [hinode]
    rcases List.mem_append.mp hx with hx | hx
    · exact hJ.returned file x hx hreturned
    · obtain rfl := List.mem_singleton.mp hx
      cases hreturned

/-- Nothing is lost between a process that prints and the files of the logs. -/
structure Conserves (w : WithHistory Act Act.Response World Disturbance) (appends : Prop) :
    Prop where
  pty : ∀ pty, w.history.flatMap (printedOn pty) =
    w.history.flatMap (readFrom pty) ++ w.world.files.ptyOutput pty
  file : appends → ∀ file, WasAppended w.history file (w.world.files.contents file)

/-- No action loses output. -/
theorem Conserves.act {appends : Prop} {w : WithHistory Act Act.Response World Disturbance}
    {w' : World} (hJ : Conserves w appends) (hmade : Made w)
    (happends : appends → ∀ f bytes, a = .file (.append f bytes) → c.ok = true)
    (h : perform i a c w.world = some (r, w')) :
    Conserves ⟨w', w.history ++ [.act i a r]⟩ appends where
  pty pty := by
    have hread := perform_ptyOutput h pty
    rw [List.flatMap_append, List.flatMap_append, hJ.pty pty, hread, List.append_assoc,
      List.flatMap_singleton, List.flatMap_singleton]
    simp [printedOn]
  file hcertain file := by
    change WasAppended _ file (w'.files.contents file)
    rcases perform_contents (happends hcertain) h file with hgrown | ⟨hempty, hempties⟩
    · rw [hgrown]
      exact (hJ.file hcertain file).append _
    · rw [hempty]
      refine wasAppended_emptied (hempties.imp_right fun ⟨hreturned, hfresh⟩ => ⟨hreturned, ?_⟩)
      -- A file that is made now was not returned before.
      intro y hy
      refine Bool.eq_false_iff.mpr fun hreturned => ?_
      exact Nat.not_lt.mpr hfresh (hmade.returned file y hy hreturned)

/-- No disturbance loses output. -/
theorem Conserves.disturb {appends : Prop} {w : WithHistory Act Act.Response World Disturbance}
    {w' : World} {e : Disturbance} (hJ : Conserves w appends) (h : w.world.disturb e = some w') :
    Conserves ⟨w', w.history ++ [.disturb e]⟩ appends where
  pty pty := by
    have hprint : w'.files.ptyOutput pty =
        w.world.files.ptyOutput pty ++ printedOn pty (.disturb e) := by
      cases e with
      | clientKilled j =>
        simp only [World.disturb] at h
        split at h <;> cases h
        exact (List.append_nil _).symm
      | processDies pid =>
        cases h
        exact (List.append_nil _).symm
      | print p bytes =>
        cases h
        by_cases hp : p = pty
        · subst hp
          simp [printedOn]
        · simp [printedOn, hp, Function.update_of_ne (Ne.symm hp)]
      | discard fifo =>
        obtain ⟨-, rfl⟩ := disturb_discard h
        exact (List.append_nil _).symm
    rw [List.flatMap_append, List.flatMap_append, hJ.pty pty, hprint, List.flatMap_singleton,
      List.flatMap_singleton]
    simp [readFrom]
  file hcertain file := by
    obtain ⟨-, -, hsame⟩ := disturb_made h
    have happended := (hJ.file hcertain file).append (.disturb e)
    rw [show appendedTo file (.disturb e) = [] from rfl, List.append_nil] at happended
    rwa [hsame]

end World

/-- Everything that a thread read is in its transcript. -/
def Transcript.Complete (t : Transcript) (log : List Did) : Prop :=
  t.raw = log.filterMap Did.chunk ∧ t.clean = log.filterMap Did.chunk ∧
    t.shown = log.filterMap Did.chunk

/-- **Output is transcribed.** In every run, however starts, stops and kills interleave: what was
printed on a PTY is what was read from it, in that order, and what is unread; and if no append
fails, a file holds what was appended to it since it was last emptied. Whatever a thread read came
from one session's PTY and went to the raw log that it opened as it was, to the clean log, which is
another file, as the clean text of the whole stream, and to the screen, chunk by chunk; nothing
else was appended by it. The last chunk may be in hand, unless the thread waits for more or has
ended. -/
theorem output_transcribed (env : Env) (requests : ℕ → Option Request)
    {ok : World → ℕ → Act → Choice → Prop}
    {s : Config Act Act.Response ThreadResult (WithHistory Act Act.Response World Disturbance)}
    (h : (bridge env).recorded.Reaches (fun w => ok w.world) ((boot env requests).record []) s) :
    Conserves s.world (Appends ok) ∧ ∀ i, ∃ t : Transcript,
      t.Of env (events i s.world.history) ∧
      ∀ x, s.thread i = .done x → t.Complete (events i s.world.history) := by
  constructor
  · have hstable : Made s.world ∧ Conserves s.world (Appends ok) := by
      refine h.stable (I := fun w => Made w ∧ Conserves w (Appends ok))
        (fun {w i a c r w'} hJ _ hok hact => ?_) (fun {w e w'} hJ hdisturb => ?_) ?_
      · obtain ⟨hact, hhistory⟩ := System.perform_recorded hact
        obtain ⟨world, history⟩ := w'
        obtain rfl : history = w.history ++ [.act i a r] := hhistory
        refine ⟨hJ.1.act hact, hJ.2.act (c := c) hJ.1 (fun happends f bytes ha => ?_) hact⟩
        subst ha
        exact happends _ _ _ _ _ hok
      · obtain ⟨hdisturb, hhistory⟩ := System.disturb_recorded hdisturb
        obtain ⟨world, history⟩ := w'
        obtain rfl : history = w.history ++ [.disturb e] := hhistory
        exact ⟨hJ.1.disturb hdisturb, hJ.2.disturb hdisturb⟩
      · refine ⟨⟨fun l name file hfile => ?_, fun file x hx => ?_⟩, fun _ => rfl,
          fun _ file => ⟨[], [], rfl, rfl, .inl rfl⟩⟩
        · cases hfile
        · cases hx
    exact hstable.2
  · have hpreserves : Preserves (bridge env) (Tape.discipline env) Tape.fresh ok Shelved :=
      ⟨fun hJ _ _ _ hact => hJ.act env hact, fun hJ hdisturb => hJ.disturb hdisturb⟩
    have hshelved : Shelved (World.fresh requests) fun _ => {} := by
      refine ⟨fun _ _ hfile => ?_, fun _ _ hfile => ?_, fun _ _ hfile => ?_⟩ <;> cases hfile
    obtain ⟨γ, hJ, hfollows⟩ := h.outline (Tape.covers env).recorded
      (hpreserves.recorded (births env) (Tape.summarizes env))
      ⟨fun _ => {}, ⟨hshelved, fun _ => Tape.tells_nil "" 0 0 0, fun _ _ => rfl⟩,
        Tape.follows_boot env requests⟩
    intro i
    have htells := hJ.recalls i
    refine ⟨(γ i).transcript, htells.transcript, fun x hdone => ?_⟩
    have hfinished := hfollows i
    rw [hdone] at hfinished
    have hhand : (γ i).hand = none := by
      cases x with
      | capturing state => exact hfinished.1
      | _ => exact hfinished
    refine ⟨?_, ?_, ?_⟩ <;> rw [htells.chunks, Tape.part_of_none hhand]
    · exact Tape.part_of_none hhand 1
    · exact Tape.part_of_none hhand 2
    · rfl

/-- One byte of a PTY's output goes through the loop of the capture thread 4. -/
def captureByte : List (Move Choice Disturbance) := .loop 4 :: steps 4 6

/-- An escape sequence between two letters, which is read byte by byte. -/
theorem output_transcribed_sequence :
    ∃ s : Config Act Act.Response ThreadResult
        (WithHistory Act Act.Response World Disturbance),
      s.world.history.flatMap (printedOn 2) = [0x61, 0x1b, 0x5b, 0x6d, 0x62] ∧
      (events 4 s.world.history).filterMap Did.chunk = [[0x61], [0x1b], [0x5b], [0x6d], [0x62]] ∧
      (∃ raw clean, s.world.world.files.log .raw "demo" = some raw ∧
        s.world.world.files.log .clean "demo" = some clean ∧
        s.world.world.files.contents raw = [0x61, 0x1b, 0x5b, 0x6d, 0x62] ∧
        s.world.world.files.contents clean = [0x61, 0x62]) ∧
      ∃ t : Transcript, t.Of plainEnv (events 4 s.world.history) ∧
        t.Complete (events 4 s.world.history) := by
  obtain ⟨s, hreach, hs⟩ := System.exists_reaches_of_exec (bridge plainEnv).recorded
    System.unrestricted
    (steps 0 13 ++ [.run 0 { thread := 2 }] ++ steps 2 2 ++
      [.run 2 { pid := 7, startTime := 100 }] ++ steps 2 12 ++ [.run 2 { thread := 4 }] ++
      steps 4 2 ++ [.disturb (.print 2 [0x61, 0x1b, 0x5b, 0x6d, 0x62])] ++ captureByte ++
      captureByte ++ captureByte ++ captureByte ++ captureByte)
    ((boot plainEnv (served [startDemo true])).record [])
    (fun s => decide (s.world.history.flatMap (printedOn 2) = [0x61, 0x1b, 0x5b, 0x6d, 0x62]) &&
      decide ((events 4 s.world.history).filterMap Did.chunk =
        [[0x61], [0x1b], [0x5b], [0x6d], [0x62]]) &&
      (s.world.world.files.log .raw "demo").any (fun raw =>
        (s.world.world.files.log .clean "demo").any fun clean =>
          decide (s.world.world.files.contents raw = [0x61, 0x1b, 0x5b, 0x6d, 0x62]) &&
          decide (s.world.world.files.contents clean = [0x61, 0x62])) &&
      (s.thread 4).head.isNone)
    (fun _ _ _ _ _ => trivial) (by decide +kernel)
  simp only [Bool.and_eq_true, decide_eq_true_eq, Option.any_eq_true] at hs
  obtain ⟨⟨⟨hprinted, hchunks⟩, raw, hraw, clean, hclean, hcontents⟩, hdone⟩ := hs
  obtain ⟨t, ht, hcomplete⟩ :=
    (@output_transcribed plainEnv _ (fun _ _ _ _ => True) s hreach).2 4
  refine ⟨s, hprinted, hchunks, ⟨raw, clean, hraw, hclean, hcontents⟩, t, ht, ?_⟩
  cases hthread : s.thread 4 with
  | done x => exact hcomplete x hthread
  | act a next =>
    rw [hthread] at hdone
    cases hdone

end IgnibyteBridge
