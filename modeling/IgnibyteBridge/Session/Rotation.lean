import IgnibyteBridge.Clean.AnsiCleaner
import IgnibyteBridge.Session.Initialize
import Mathlib.Data.List.Induction

/-!
# The previous run's logs

Each start of a name rotates its raw and its clean log, one by one and only when
there is something in it. Between two starts `capture_output` fills both. Here a
session is started again and again, and the two `.prev` logs are compared with
what its runs printed. No file operation fails.
-/

namespace IgnibyteBridge.Initialize

open Concurrency Storage Fallible Program AnsiCleaner

/-! ## The four logs -/

/-- What the logs of a session contain. -/
structure LogFiles where
  raw : Option (List UInt8)
  clean : Option (List UInt8)
  rawPrev : Option (List UInt8)
  cleanPrev : Option (List UInt8)
  deriving DecidableEq

/-- The logs of a directory. -/
def logFiles (fs : FileSystem SessionFile) : LogFiles where
  raw := fs.read .rawLog
  clean := fs.read .cleanLog
  rawPrev := fs.read .rawPrev
  cleanPrev := fs.read .cleanPrev

/-- What is kept as the previous log: the log, if there is anything in it. -/
def kept (log prev : Option (List UInt8)) : Option (List UInt8) :=
  match log with
  | some (byte :: bytes) => some (byte :: bytes)
  | _ => prev

/-- The logs after a start. -/
def LogFiles.restarted (logs : LogFiles) : LogFiles where
  raw := some []
  clean := some []
  rawPrev := kept logs.raw logs.rawPrev
  cleanPrev := kept logs.clean logs.cleanPrev

/-! ## What a start does to them -/

/-- No operation fails. -/
def Faults.Sound (f : Faults) : Prop := ∀ point, f.fails point = false

/-- The files other than these have the contents they had. -/
def SameBut (files : List SessionFile) (before after : FileSystem SessionFile) : Prop :=
  ∀ file, file ∉ files → after.read file = before.read file

section Start

variable {lib : Library} {f : Faults} {fs : FileSystem SessionFile} {dir : String}

/-- Renaming takes the contents along. -/
theorem read_rename_target (source target : SessionFile) :
    (fs.rename source target).read target = fs.read source := by
  unfold FileSystem.read
  rw [FileSystem.entry_rename_target]
  rfl

/-- A file that was just created is empty. -/
theorem read_create_self (file : SessionFile) : (fs.create file).read file = some [] := by
  unfold FileSystem.read
  rw [FileSystem.entry_create_self]
  exact congrArg some FileSystem.contents_create_self

/-- A log with anything in it takes the place of its `.prev` copy. -/
theorem meets_rotatePreviousLog (hf : f.Sound) (log prev : SessionFile) :
    Meets (answering f.answer)
      (fun _ fs' => fs'.read prev = kept (fs.read log) (fs.read prev) ∧ SameBut [log, prev] fs fs')
      (fun _ _ => False) (rotatePreviousLog dir log prev) fs := by
  unfold rotatePreviousLog
  refine (meets_bind _ _ _ _).mpr (meets_answered ?_)
  simp only [Faults.answer, hf (.length log)]
  cases hread : fs.read log with
  | none => exact ⟨rfl, fun _ _ => rfl⟩
  | some bytes =>
    cases bytes with
    | nil => exact ⟨rfl, fun _ _ => rfl⟩
    | cons byte bytes =>
      have hentry : (fs.entry log).isSome := by
        unfold FileSystem.read at hread
        cases hentry : fs.entry log with
        | none => simp [hentry] at hread
        | some file => rfl
      refine (meets_bind _ _ _ _).mpr (meets_answered ?_)
      have hanswer : f.answer (.rename log prev) fs = (true, fs.rename log prev) := by
        simp [Faults.answer, hentry, hf (.rename log)]
      rw [hanswer]
      refine meets_ensure_true ⟨?_, ?_⟩
      · exact (read_rename_target log prev).trans hread
      · intro file hfile
        rw [List.mem_cons, List.mem_singleton, not_or] at hfile
        exact FileSystem.read_rename_of_ne hfile.1 hfile.2

/-- A created file is empty. -/
theorem meets_createPrivateFile (hf : f.Sound) (file : SessionFile) :
    Meets (answering f.answer)
      (fun _ fs' => fs' = fs.create file) (fun _ _ => False) (createPrivateFile dir file) fs := by
  unfold createPrivateFile
  refine (meets_bind _ _ _ _).mpr (meets_answered ?_)
  have hcreate : f.answer (.create file) fs = (true, fs.create file) := by
    simp [Faults.answer, hf (.create file)]
  rw [hcreate]
  refine (meets_bind _ _ _ _).mpr (meets_ensure_true ?_)
  refine (meets_bind _ _ _ _).mpr (meets_answered ?_)
  simp only [Faults.answer, hf (.inspect file)]
  cases f.loose file with
  | false => rfl
  | true =>
    refine (meets_bind _ _ _ _).mpr (meets_answered ?_)
    exact meets_ensure (fun _ => rfl) (by simp [Faults.answer, hf (.restrict file)])

/-- A creation that succeeds leaves the file empty and touches no other. -/
theorem meets_createWithContext (hf : f.Sound) (context : String) (file : SessionFile) :
    Meets (answering f.answer)
      (fun _ fs' => fs'.read file = some [] ∧ SameBut [file] fs fs') (fun _ _ => False)
      (createWithContext dir context file) fs := by
  unfold createWithContext
  refine (meets_bind _ _ _ _).mpr ((meets_outcome _ _ _).mpr
    (Meets.surely (meets_createPrivateFile hf file) ?_))
  rintro - fs' rfl
  refine ⟨read_create_self file, fun other hother => ?_⟩
  exact FileSystem.read_create_of_ne (by simpa using hother)

/-- A write to the temp file changes no other file. -/
theorem read_write_temp {bytes : List UInt8} {file : SessionFile} (hfile : file ≠ .temp) :
    (fs.write (fs.created .temp) 0 bytes).read file = fs.read file := by
  unfold FileSystem.read
  have hentry : (fs.write (fs.created .temp) 0 bytes).entry file = fs.entry file := rfl
  rw [hentry]
  cases hfound : fs.entry file with
  | none => rfl
  | some number =>
    have hne := FileSystem.ne_created hfound hfile
    exact congrArg some (FileSystem.contents_write_of_ne hne)

/-- The temp file takes the bytes. -/
theorem meets_writeTemp (hf : f.Sound) (contents : List UInt8) :
    Meets (answering f.answer)
      (fun _ fs' => SameBut [.temp] fs fs' ∧ (fs'.entry .temp).isSome) (fun _ _ => False)
      (writeTemp dir contents) fs := by
  unfold writeTemp
  refine Meets.andThen (meets_createPrivateFile hf .temp) ?_
  rintro - fs₁ rfl
  refine (meets_bind _ _ _ _).mpr (meets_answered ?_)
  have hwrite : (f.answer (.writeAll contents) (fs.create .temp)).1 = true := by
    simp [Faults.answer, hf .write]
  have hflush : ∀ fs, (f.answer .flush fs).1 = true := by
    intro fs
    simp [Faults.answer, hf .flush]
  rw [hwrite]
  refine (meets_bind _ _ _ _).mpr (meets_ensure_true ?_)
  refine (meets_bind _ _ _ _).mpr (meets_answered ?_)
  rw [hflush]
  refine meets_ensure_true ⟨fun file hfile => ?_, ?_⟩
  · have hne : file ≠ .temp := by simpa using hfile
    exact (read_write_temp hne).trans (FileSystem.read_create_of_ne hne)
  · have hentry : (fs.create .temp).entry .temp = some (fs.created .temp) :=
      FileSystem.entry_create_self
    exact Option.isSome_iff_exists.mpr ⟨_, hentry⟩

/-- Saving the record changes no other file. -/
theorem meets_saveMetadata (hf : f.Sound) {name : String} (metadata : SessionMetadata)
    (hdir : sessionDir lib name = .ok dir) :
    Meets (answering f.answer) (fun _ fs' => SameBut [.metadata, .temp] fs fs')
      (fun _ _ => False) (saveMetadata lib name (some metadata)) fs := by
  unfold saveMetadata
  rw [hdir]
  change Meets (answering f.answer) _ _ (writeAtomic dir (lib.toJson metadata)) fs
  unfold writeAtomic
  refine (meets_bind _ _ _ _).mpr ((meets_outcome _ _ _).mpr
    (Meets.surely (meets_writeTemp hf (lib.toJson metadata)) ?_))
  rintro - fs₁ ⟨hsame, hentry⟩
  refine (meets_bind _ _ _ _).mpr (meets_answered ?_)
  have hrename : f.answer (.rename .temp .metadata) fs₁ = (true, fs₁.rename .temp .metadata) := by
    simp [Faults.answer, hentry, hf (.rename .temp)]
  rw [hrename]
  intro file hfile
  rw [List.mem_cons, List.mem_singleton, not_or] at hfile
  exact (FileSystem.read_rename_of_ne hfile.2 hfile.1).trans (hsame file (by simpa using hfile.2))

/-- The old FIFO is replaced, and nothing else. -/
theorem meets_replaceFifo_sound (hf : f.Sound) {input : String} :
    Meets (answering f.answer) (fun _ fs' => SameBut [.inputFifo] fs fs') (fun _ _ => False)
      (replaceFifo input) fs := by
  refine Meets.mono meets_replaceFifo ?_ ?_
  · rintro - fs' ⟨-, -, -, hread⟩ file hfile
    exact hread file (by simpa using hfile)
  · have hspares : ¬f.SparesFifo fs := by
      rintro (⟨-, hfails⟩ | ⟨hsees, hentry | hfails⟩)
      · exact absurd hfails (by simp [hf .removeFifo])
      · exact hsees ⟨hentry, hf .fifoExists⟩
      · exact absurd hfails (by simp [hf .mkfifo])
    rintro e fs' (⟨h, -⟩ | ⟨-, hfails, -⟩)
    · exact hspares h
    · exact absurd hfails (by simp [hf .mkfifo])

/-- The two logs are rotated one after the other, and begun anew. -/
theorem meets_createFiles (hf : f.Sound) {name : String} (metadata : SessionMetadata)
    (hdir : sessionDir lib name = .ok dir) :
    Meets (answering f.answer) (fun _ fs' => logFiles fs' = (logFiles fs).restarted)
      (fun _ _ => False) (createFiles lib name dir (some metadata)) fs := by
  unfold createFiles
  refine Meets.andThen (meets_rotatePreviousLog hf _ _) ?_
  rintro - fs₁ ⟨hraw, hsame₁⟩
  refine Meets.andThen (meets_rotatePreviousLog hf _ _) ?_
  rintro - fs₂ ⟨hclean, hsame₂⟩
  refine Meets.andThen (meets_createWithContext hf _ _) ?_
  rintro - fs₃ ⟨hrawLog, hsame₃⟩
  refine Meets.andThen (meets_createWithContext hf _ _) ?_
  rintro - fs₄ ⟨hcleanLog, hsame₄⟩
  refine Meets.andThen (meets_createWithContext hf _ _) ?_
  rintro - fs₅ ⟨-, hsame₅⟩
  refine Meets.surely (meets_saveMetadata hf metadata hdir) ?_
  intro _ fs₆ hsame₆
  -- Each log is read where it was last changed.
  have hafter : ∀ file, file ∉ [SessionFile.metadata, .temp] → file ∉ [SessionFile.screen] →
      fs₆.read file = fs₄.read file :=
    fun file hsave hscreen => (hsame₆ file hsave).trans (hsame₅ file hscreen)
  have hprev : ∀ file, file ∉ [SessionFile.metadata, .temp] → file ∉ [SessionFile.screen] →
      file ∉ [SessionFile.cleanLog] → file ∉ [SessionFile.rawLog] →
      fs₆.read file = fs₂.read file := fun file hsave hscreen hclean hraw =>
    (hafter file hsave hscreen).trans ((hsame₄ file hclean).trans (hsame₃ file hraw))
  have hrawLog₆ := (hafter .rawLog (by decide) (by decide)).trans
    ((hsame₄ .rawLog (by decide)).trans hrawLog)
  have hcleanLog₆ := (hafter .cleanLog (by decide) (by decide)).trans hcleanLog
  have hrawPrev₆ := (hprev .rawPrev (by decide) (by decide) (by decide) (by decide)).trans
    ((hsame₂ .rawPrev (by decide)).trans hraw)
  have hcleanPrev₆ := (hprev .cleanPrev (by decide) (by decide) (by decide) (by decide)).trans
    hclean
  rw [hsame₁ .cleanLog (by decide), hsame₁ .cleanPrev (by decide)] at hcleanPrev₆
  simp only [logFiles, LogFiles.restarted, hrawLog₆, hcleanLog₆, hrawPrev₆, hcleanPrev₆]

/-- **A start rotates the logs.** Where the request is accepted and no operation fails,
the logs of the directory are those of the model. -/
theorem logFiles_initialized (hf : f.Sound) {name cmd : String} (haccepts : lib.Accepts name cmd)
    (cwd : String) (rows cols : Option ℕ) (fs : FileSystem SessionFile) :
    logFiles (initialized lib f name (.text cwd) cmd rows cols fs).2 = (logFiles fs).restarted := by
  obtain ⟨⟨dir, hdir⟩, command, hcommand⟩ := haccepts
  have hmeets : Meets (answering f.answer) (fun _ fs' => logFiles fs' = (logFiles fs).restarted)
      (fun _ _ => False) (initializeSessionFiles lib name (.text cwd) cmd rows cols) fs := by
    unfold initializeSessionFiles
    rw [hdir, hcommand]
    refine (meets_bind _ _ _ _).mpr ((meets_bind _ _ _ _).mpr ((meets_bind _ _ _ _).mpr
      (Meets.surely (meets_previous (E := fun _ _ => False)) ?_)))
    rintro previous fs₀ rfl
    refine Meets.andThen (meets_replaceFifo_sound hf) ?_
    rintro - fs₁ hsame
    have hlogs : logFiles fs₁ = logFiles fs₀ := by
      simp only [logFiles, hsame .rawLog (by decide), hsame .cleanLog (by decide),
        hsame .rawPrev (by decide), hsame .cleanPrev (by decide)]
    refine Meets.andThen (meets_createFiles hf _ hdir) ?_
    intro _ fs₂ h
    rw [hlogs] at h
    exact h
  have hrun := (follows_answering f.answer
    (initializeSessionFiles lib name (.text cwd) cmd rows cols).run
    (fun _ fs' => logFiles fs' = (logFiles fs).restarted) fs).mp
    ((follows_run _ _ fs).mpr (Meets.mono hmeets (fun _ _ => id) fun _ _ h => h.elim))
  exact hrun

end Start

/-! ## What a run writes -/

/-- `open` with `O_CREAT` and `O_APPEND`. -/
def openAppend (fs : FileSystem SessionFile) (file : SessionFile) : FileSystem SessionFile :=
  if (fs.entry file).isSome then fs else fs.create file

/-- A write through a handle that appends. -/
def appendTo (fs : FileSystem SessionFile) (file : SessionFile) (bytes : List UInt8) :
    FileSystem SessionFile :=
  fs.write (fs.created file) (fs.contents (fs.created file)).length bytes

/-- The loop of `capture_output`, chunk by chunk, as far as it concerns the logs. -/
def captureChunks (cleaner : AnsiCleaner) (fs : FileSystem SessionFile) :
    List (List UInt8) → FileSystem SessionFile
  | [] => fs
  | chunk :: chunks =>
    captureChunks (clean cleaner chunk).1
      (appendTo (appendTo fs .rawLog chunk) .cleanLog (clean cleaner chunk).2) chunks

/-- `capture_output`. -/
def captureOutput (fs : FileSystem SessionFile) (chunks : List (List UInt8)) :
    FileSystem SessionFile :=
  captureChunks {} (openAppend (openAppend fs .rawLog) .cleanLog) chunks

/-- What a run printed. -/
def printed (chunks : List (List UInt8)) : List UInt8 := chunks.flatten

/-- Its cleaned form. -/
def cleaned (chunks : List (List UInt8)) : List UInt8 := (cleanChunks {} chunks).2

section Capture

variable {fs : FileSystem SessionFile} {file other : SessionFile} {old : List UInt8}

/-- Opening a file that exists for appending changes nothing. -/
theorem openAppend_of_read (h : fs.read file = some old) : openAppend fs file = fs := by
  have hentry : (fs.entry file).isSome := by
    unfold FileSystem.read at h
    cases hentry : fs.entry file with
    | none => simp [hentry] at h
    | some number => rfl
  exact if_pos hentry

/-- What is appended stands after what the file held. -/
theorem read_appendTo (h : fs.read file = some old) (bytes : List UInt8) :
    (appendTo fs file bytes).read file = some (old ++ bytes) := by
  unfold FileSystem.read at h ⊢
  cases hentry : fs.entry file with
  | none => simp [hentry] at h
  | some number =>
    have hcreated : fs.created file = number := by rw [FileSystem.created, hentry]; rfl
    have hold : fs.contents number = old := by simpa [hentry] using h
    have hsame : (appendTo fs file bytes).entry file = some number := hentry
    rw [hsame, Option.map_some, appendTo, hcreated, FileSystem.contents_write_append rfl, hold]

/-- No other file is touched. -/
theorem read_appendTo_of_ne (hne : other ≠ file) (bytes : List UInt8) :
    (appendTo fs file bytes).read other = fs.read other := by
  unfold FileSystem.read
  have hsame : (appendTo fs file bytes).entry other = fs.entry other := rfl
  rw [hsame]
  cases hentry : fs.entry other with
  | none => rfl
  | some number =>
    have hapart := FileSystem.ne_created hentry hne
    exact congrArg some (FileSystem.contents_write_of_ne hapart)

/-- The capture thread appends the chunks to the raw log and what the cleaner makes of them to the
clean one. -/
theorem logFiles_captureChunks {cleaner : AnsiCleaner} {logs : LogFiles} {raw cleanLog : List UInt8}
    (hlogs : logFiles fs = logs) (hraw : logs.raw = some raw) (hclean : logs.clean = some cleanLog)
    (chunks : List (List UInt8)) :
    logFiles (captureChunks cleaner fs chunks) =
      { logs with
        raw := some (raw ++ chunks.flatten)
        clean := some (cleanLog ++ (cleanChunks cleaner chunks).2) } := by
  induction chunks generalizing cleaner fs logs raw cleanLog with
  | nil =>
    rw [captureChunks, hlogs, List.flatten_nil, List.append_nil, ← hraw]
    have hnothing : cleanLog ++ (cleanChunks cleaner []).2 = cleanLog := List.append_nil _
    rw [hnothing, ← hclean]
  | cons chunk chunks ih =>
    subst hlogs
    have hraw₁ : (appendTo fs .rawLog chunk).read .rawLog = some (raw ++ chunk) :=
      read_appendTo hraw chunk
    have hclean₁ : (appendTo fs .rawLog chunk).read .cleanLog = some cleanLog :=
      (read_appendTo_of_ne (by decide) chunk).trans hclean
    have hraw₂ : (appendTo (appendTo fs .rawLog chunk) .cleanLog (clean cleaner chunk).2).read
        .rawLog = some (raw ++ chunk) :=
      (read_appendTo_of_ne (by decide) (clean cleaner chunk).2).trans hraw₁
    have hclean₂ := read_appendTo hclean₁ (clean cleaner chunk).2
    have hsplit : (cleanChunks cleaner (chunk :: chunks)).2 =
        (clean cleaner chunk).2 ++ (cleanChunks (clean cleaner chunk).1 chunks).2 := rfl
    rw [captureChunks, ih rfl hraw₂ hclean₂, List.flatten_cons, hsplit, List.append_assoc,
      List.append_assoc]
    have hprev : ∀ file, file ≠ SessionFile.rawLog → file ≠ SessionFile.cleanLog →
        (appendTo (appendTo fs .rawLog chunk) .cleanLog (clean cleaner chunk).2).read file =
          fs.read file := fun file hne hne' =>
      (read_appendTo_of_ne hne' _).trans (read_appendTo_of_ne hne _)
    simp only [logFiles, hprev .rawPrev (by decide) (by decide),
      hprev .cleanPrev (by decide) (by decide)]

/-- **A run fills the logs.** What a run prints, and its cleaned form, are added to the logs
that it finds. -/
theorem logFiles_captureOutput {raw cleanLog : List UInt8} (hraw : fs.read .rawLog = some raw)
    (hclean : fs.read .cleanLog = some cleanLog) (chunks : List (List UInt8)) :
    logFiles (captureOutput fs chunks) =
      { logFiles fs with
        raw := some (raw ++ printed chunks)
        clean := some (cleanLog ++ cleaned chunks) } := by
  rw [captureOutput, openAppend_of_read hraw, openAppend_of_read hclean]
  exact logFiles_captureChunks rfl hraw hclean chunks

end Capture

/-! ## A session that is started again and again -/

/-- The directory of a session right after a start, with the runs before that start. In
between, files other than the logs may change. -/
inductive History (lib : Library) (name : String) :
    List (List (List UInt8)) → FileSystem SessionFile → Prop
  | first {f : Faults} {fs : FileSystem SessionFile} {cwd cmd : String} {rows cols : Option ℕ}
      (hsound : f.Sound) (haccepts : lib.Accepts name cmd)
      (hfresh : logFiles fs = ⟨none, none, none, none⟩) :
      History lib name [] (initialized lib f name (.text cwd) cmd rows cols fs).2
  | next {f : Faults} {fs fs' : FileSystem SessionFile} {cwd cmd : String} {rows cols : Option ℕ}
      {runs : List (List (List UInt8))} (h : History lib name runs fs) (chunks : List (List UInt8))
      (hother : logFiles fs' = logFiles (captureOutput fs chunks)) (hsound : f.Sound)
      (haccepts : lib.Accepts name cmd) :
      History lib name (runs ++ [chunks]) (initialized lib f name (.text cwd) cmd rows cols fs').2

/-- The most recent run for which a log holds anything. -/
def lastWith (log : List (List UInt8) → List UInt8) (runs : List (List (List UInt8))) :
    Option (List (List UInt8)) :=
  (runs.filter fun run => log run ≠ []).getLast?

/-- The `.prev` logs that are there are those of the most recent run that printed anything. -/
def Paired (runs : List (List (List UInt8))) (fs : FileSystem SessionFile) : Prop :=
  (∀ bytes, fs.read .rawPrev = some bytes → (lastWith printed runs).map printed = some bytes) ∧
    ∀ bytes, fs.read .cleanPrev = some bytes → (lastWith printed runs).map cleaned = some bytes

/-- What rotation keeps of a log is that log of the last run for which it was not empty. -/
theorem kept_lastWith (log : List (List UInt8) → List UInt8) (runs : List (List (List UInt8)))
    (run : List (List UInt8)) :
    kept (some (log run)) ((lastWith log runs).map log) =
      (lastWith log (runs ++ [run])).map log := by
  unfold lastWith
  rw [List.filter_append]
  cases hlog : log run with
  | nil =>
    have hnone : [run].filter (fun run => log run ≠ []) = [] := by simp [hlog]
    rw [hnone, List.append_nil]
    rfl
  | cons byte bytes =>
    have hone : [run].filter (fun run => log run ≠ []) = [run] := by simp [hlog]
    rw [hone, List.getLast?_append, List.getLast?_singleton, Option.some_or, Option.map_some, hlog]
    rfl

/-- Each `.prev` log is that of the most recent run that left something in the log. -/
theorem History.logFiles_eq {lib : Library} {name : String} {runs : List (List (List UInt8))}
    {fs : FileSystem SessionFile} (h : History lib name runs fs) :
    logFiles fs = ⟨some [], some [], (lastWith printed runs).map printed,
      (lastWith cleaned runs).map cleaned⟩ := by
  induction h with
  | first hsound haccepts hfresh =>
    rw [logFiles_initialized hsound haccepts, hfresh]
    rfl
  | @next f fs fs' _ _ _ _ runs _ chunks hother hsound haccepts ih =>
    have hraw : fs.read .rawLog = some [] := congrArg LogFiles.raw ih
    have hclean : fs.read .cleanLog = some [] := congrArg LogFiles.clean ih
    rw [logFiles_initialized hsound haccepts, hother, logFiles_captureOutput hraw hclean, ih]
    simp only [LogFiles.restarted, List.nil_append, kept_lastWith]

/-- A run that printed nothing has nothing to clean. -/
theorem printed_ne_nil_of_cleaned {run : List (List UInt8)} (h : cleaned run ≠ []) :
    printed run ≠ [] := by
  intro hnothing
  apply h
  rw [cleaned, cleanChunks_eq_clean, show run.flatten = [] from hnothing]
  rfl

/-- The run that is kept is one of the runs, and its log was not empty. -/
theorem mem_of_lastWith {log : List (List UInt8) → List UInt8} {runs : List (List (List UInt8))}
    {run : List (List UInt8)} (h : lastWith log runs = some run) : run ∈ runs ∧ log run ≠ [] := by
  have hmem := List.mem_filter.mp (List.mem_of_getLast? h)
  exact ⟨hmem.1, by simpa using hmem.2⟩

/-- If the last run to print anything printed something visible, it is the last to do that too. -/
theorem lastWith_cleaned_of_visible {runs : List (List (List UInt8))} {run : List (List UInt8)}
    (hlast : lastWith printed runs = some run) (hvisible : cleaned run ≠ []) :
    lastWith cleaned runs = some run := by
  have hfilter : (runs.filter fun run => printed run ≠ []).filter (fun run => cleaned run ≠ []) =
      runs.filter fun run => cleaned run ≠ [] := by
    rw [List.filter_filter]
    apply List.filter_congr
    intro r _
    have hprinted : cleaned r ≠ [] → printed r ≠ [] := printed_ne_nil_of_cleaned
    by_cases hr : cleaned r = []
    · simp [hr]
    · simp [hr, hprinted hr]
  obtain ⟨front, hfront⟩ := List.getLast?_eq_some_iff.mp hlast
  have hone : [run].filter (fun run => cleaned run ≠ []) = [run] := by simp [hvisible]
  rw [lastWith, ← hfilter, hfront, List.filter_append, hone]
  exact List.getLast?_concat ..

/-- **Log pairs stay together.** After a restart the `.prev` logs belong to the most recent
run that printed anything, exactly if that run printed something that the cleaner keeps, or
no run before the restart ever did. -/
theorem History.paired_iff {lib : Library} {name : String} {runs : List (List (List UInt8))}
    {fs : FileSystem SessionFile} (h : History lib name runs fs) :
    Paired runs fs ↔
      ∀ run, lastWith printed runs = some run → cleaned run = [] → ∀ r ∈ runs, cleaned r = [] := by
  have hlogs := h.logFiles_eq
  have hraw : fs.read .rawPrev = (lastWith printed runs).map printed :=
    congrArg LogFiles.rawPrev hlogs
  have hclean : fs.read .cleanPrev = (lastWith cleaned runs).map cleaned :=
    congrArg LogFiles.cleanPrev hlogs
  constructor
  · rintro ⟨-, hpaired⟩ run hlast hinvisible r hr
    by_contra hvisible
    cases hfound : lastWith cleaned runs with
    | none =>
      have hempty := List.getLast?_eq_none_iff.mp hfound
      have hmem : r ∈ runs.filter fun run => cleaned run ≠ [] :=
        List.mem_filter.mpr ⟨hr, by simpa using hvisible⟩
      rw [hempty] at hmem
      cases hmem
    | some earlier =>
      rw [hfound] at hclean
      have hsame := hpaired (cleaned earlier) hclean
      rw [hlast, Option.map_some, hinvisible] at hsame
      exact (mem_of_lastWith hfound).2 (Option.some.inj hsame).symm
  · intro hcondition
    refine ⟨fun bytes hbytes => hraw.symm.trans hbytes, fun bytes hbytes => ?_⟩
    rw [hclean] at hbytes
    obtain ⟨earlier, hfound, rfl⟩ := Option.map_eq_some_iff.mp hbytes
    obtain ⟨hmem, hvisible⟩ := mem_of_lastWith hfound
    cases hlast : lastWith printed runs with
    | none =>
      have hempty := List.getLast?_eq_none_iff.mp hlast
      have hin : earlier ∈ runs.filter fun run => printed run ≠ [] :=
        List.mem_filter.mpr ⟨hmem, by simpa using printed_ne_nil_of_cleaned hvisible⟩
      rw [hempty] at hin
      cases hin
    | some run =>
      have hkeeps : cleaned run ≠ [] := fun hinvisible =>
        hvisible (hcondition run hlast hinvisible earlier hmem)
      have hsame := lastWith_cleaned_of_visible hlast hkeeps
      rw [hfound] at hsame
      rw [Option.some.inj hsame, Option.map_some]

/-- A start of the session `demo`. -/
def restartDemo (fs : FileSystem SessionFile) : FileSystem SessionFile :=
  (initialized plainLibrary {} "demo" (.text "/tmp") "cat" none none fs).2

/-- A new directory, after a first start and these runs with their restarts. -/
def demoAfter (runs : List (List (List UInt8))) : FileSystem SessionFile :=
  runs.foldl (fun fs run => restartDemo (captureOutput fs run)) (restartDemo .empty)

/-- The example's files are those of its runs. -/
theorem history_demoAfter (runs : List (List (List UInt8))) :
    History plainLibrary "demo" runs (demoAfter runs) := by
  have hsound : ({} : Faults).Sound := fun _ => rfl
  have haccepts : plainLibrary.Accepts "demo" "cat" := ⟨⟨_, rfl⟩, _, rfl⟩
  induction runs using List.reverseRecOn with
  | nil => exact .first hsound haccepts rfl
  | append_singleton runs run ih =>
    rw [demoAfter, List.foldl_append]
    exact ih.next run rfl hsound haccepts

/-- A run that printed text, and one that printed nothing. -/
theorem paired_text_then_nothing :
    Paired [[[0x68, 0x69]], []] (demoAfter [[[0x68, 0x69]], []]) := by
  refine (history_demoAfter [[[0x68, 0x69]], []]).paired_iff.mpr ?_
  intro run hlast hinvisible
  have hrun : lastWith printed [[[0x68, 0x69]], []] = some [[0x68, 0x69]] := by decide
  rw [hrun] at hlast
  obtain rfl := Option.some.inj hlast
  exact absurd hinvisible (by decide)

/-- A run that printed text, and one that only set a color: the raw log of the second stands
beside the clean log of the first. -/
theorem paired_text_then_color :
    History plainLibrary "demo" [[[0x68, 0x69]], [[0x1b, 0x5b, 0x6d]]]
        (demoAfter [[[0x68, 0x69]], [[0x1b, 0x5b, 0x6d]]]) ∧
      (demoAfter [[[0x68, 0x69]], [[0x1b, 0x5b, 0x6d]]]).read .rawPrev = some [0x1b, 0x5b, 0x6d] ∧
      (demoAfter [[[0x68, 0x69]], [[0x1b, 0x5b, 0x6d]]]).read .cleanPrev = some [0x68, 0x69] ∧
      ¬Paired [[[0x68, 0x69]], [[0x1b, 0x5b, 0x6d]]]
        (demoAfter [[[0x68, 0x69]], [[0x1b, 0x5b, 0x6d]]]) := by
  have hhistory := history_demoAfter [[[0x68, 0x69]], [[0x1b, 0x5b, 0x6d]]]
  have hlogs := hhistory.logFiles_eq
  have hclean := congrArg LogFiles.cleanPrev hlogs
  refine ⟨hhistory, (congrArg LogFiles.rawPrev hlogs).trans (by decide), hclean.trans (by decide),
    fun hpaired => ?_⟩
  have hsame := hpaired.2 [0x68, 0x69] (hclean.trans (by decide))
  exact absurd hsame (by decide)

end IgnibyteBridge.Initialize
