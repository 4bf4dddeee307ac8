import IgnibyteBridge.Storage.Replacement

/-!
# The versions of a replaced file

The file always has the contents of the call that replaced it last, and every file
that once had its name keeps its contents.
-/

namespace IgnibyteBridge

open Concurrency Storage Function

/-- What a job writes. -/
def Job.contents : Job → List UInt8
  | .write _ contents => contents
  | .read _ => []

section Invariant

variable (target : Target) (job : ℕ → Job) (fs : FileSystem FileName)

/-- The contents that the file should have: those of the call that replaced it last. -/
def latest (replaced : List ℕ) : Option (List UInt8) :=
  match replaced.getLast? with
  | none => fs.read target.fileName
  | some i => some (job i).contents

/-- The initial contents, or all that some call wrote that replaced the file. -/
def Version (m : Machine) (bytes : List UInt8) : Prop :=
  fs.read target.fileName = some bytes ∨ ∃ i ∈ m.replaced, ∃ process, job i = .write process bytes

/-- A file that has been, or is, the replaced one: it has no other name. -/
structure Settled (m : Machine) (file : ℕ) : Prop where
  name : ∀ name, m.fs.entry name = some file → name = target.fileName
  old : file < m.fs.nextFile
  version : Version target job fs m (m.fs.contents file)

/-- The PID that a thread has read is that of its process, until the process is gone. -/
def HasPid (m : Machine) (process pid : ℕ) : Prop :=
  m.process process = .running pid ∨ m.process process = .gone

/-- What a thread may rely on at each stage. -/
def Holds (m : Machine) (i : ℕ) : Stage → Prop
  | .counted unique => unique < m.counted (job i).process
  | .named unique pid => unique < m.counted (job i).process ∧ HasPid m (job i).process pid
  | .writing unique pid file written =>
    unique < m.counted (job i).process ∧ HasPid m (job i).process pid ∧
      (m.runs (job i).process = true →
        m.fs.entry (target.temp unique pid) = some file ∧ m.fs.contents file = written)
  | .replaced => ∃ process contents, job i = .write process contents
  | .reading file got => Settled target job fs m file ∧ got <+: m.fs.contents file
  | .read got => Version target job fs m got
  | _ => True

/-- The invariant of all threads. -/
structure Consistent (m : Machine) (γ : ℕ → Duty) : Prop where
  duty : ∀ i, (γ i).job = job i
  holds : ∀ i, Holds target job fs m i (γ i).stage
  /-- A process counts no number twice. -/
  distinct : ∀ i j, i ≠ j → (job i).process = (job j).process →
    ∀ unique, (γ i).stage.unique = some unique → (γ j).stage.unique ≠ some unique
  /-- A PID has one process. -/
  holder : ∀ process pid, m.process process = .running pid → m.holder pid = some process
  current : m.fs.read target.fileName = latest target job fs m.replaced
  replaced : ∀ i, i ∈ m.replaced ↔ (γ i).stage = .replaced

end Invariant

variable {target : Target} {job : ℕ → Job} {fs : FileSystem FileName} {m m' : Machine}
  {γ : ℕ → Duty} {i : ℕ}

/-- A process with a PID that runs is running under it. -/
theorem HasPid.running {process pid : ℕ} (h : HasPid m process pid)
    (hruns : m.runs process = true) : m.process process = .running pid := by
  refine h.resolve_right fun hgone => ?_
  rw [Machine.runs, hgone] at hruns
  cases hruns

/-- A file that can be found holds a version. -/
theorem Consistent.version (h : Consistent target job fs m γ) {bytes : List UInt8}
    (hread : m.fs.read target.fileName = some bytes) : Version target job fs m bytes := by
  rw [h.current, latest] at hread
  cases hlast : m.replaced.getLast? with
  | none =>
    rw [hlast] at hread
    exact .inl hread
  | some i =>
    rw [hlast] at hread
    have hmem : i ∈ m.replaced := List.mem_of_getLast? hlast
    have hholds := h.holds i
    rw [(h.replaced i).mp hmem] at hholds
    obtain ⟨process, contents, hjob⟩ := hholds
    have hbytes : (job i).contents = bytes := Option.some.inj hread
    refine .inr ⟨i, hmem, process, ?_⟩
    rw [← hbytes, hjob]
    rfl

/-- The replaced file is settled. -/
theorem Consistent.settled (h : Consistent target job fs m γ) {file : ℕ}
    (hentry : m.fs.entry target.fileName = some file) : Settled target job fs m file where
  name _ hname := m.fs.separate hname hentry
  old := m.fs.bounded hentry
  version := h.version (by rw [FileSystem.read, hentry]; rfl)

/-- Two calls in flight have different temp files. -/
theorem Consistent.temp_ne (h : Consistent target job fs m γ) {j unique unique' pid pid' : ℕ}
    (hij : i ≠ j) (hi : (γ i).stage.unique = some unique) (hj : (γ j).stage.unique = some unique')
    (hpid : m.process (job i).process = .running pid)
    (hpid' : m.process (job j).process = .running pid') :
    target.temp unique pid ≠ target.temp unique' pid' := by
  intro heq
  obtain ⟨rfl, rfl⟩ := Target.temp_inj heq
  have hprocess := (h.holder _ _ hpid).symm.trans (h.holder _ _ hpid')
  exact h.distinct i j hij (Option.some.inj hprocess) unique hi hj

/-! ## Steps -/

/-- What a step of thread `i` keeps for the others: the processes, the files that have
or had the replaced file's name, and the temp files of other calls. -/
structure Keeps (target : Target) (job : ℕ → Job) (fs : FileSystem FileName) (m m' : Machine)
    (γ : ℕ → Duty) (i : ℕ) : Prop where
  process : m'.process = m.process
  holder : m'.holder = m.holder
  counted : ∀ process, m.counted process ≤ m'.counted process
  replaced : ∀ j, j ∈ m.replaced → j ∈ m'.replaced
  nextFile : m.fs.nextFile ≤ m'.fs.nextFile
  settled : ∀ file, Settled target job fs m file → m'.fs.contents file = m.fs.contents file ∧
    ∀ name, m'.fs.entry name = some file → name = target.fileName
  temp : ∀ j, j ≠ i → ∀ unique pid file written, (γ j).stage = .writing unique pid file written →
    m.process (job j).process = .running pid → m.fs.entry (target.temp unique pid) = some file →
    m'.fs.entry (target.temp unique pid) = some file ∧ m'.fs.contents file = m.fs.contents file

/-- What was a version of the target stays one. -/
theorem Version.mono {bytes : List UInt8} (h : Version target job fs m bytes)
    (hreplaced : ∀ j, j ∈ m.replaced → j ∈ m'.replaced) : Version target job fs m' bytes := by
  rcases h with h | ⟨j, hj, hjob⟩
  · exact .inl h
  · exact .inr ⟨j, hreplaced j hj, hjob⟩

/-- A settled file stays settled, with its contents. -/
theorem Keeps.settle (h : Keeps target job fs m m' γ i) {file : ℕ}
    (hsettled : Settled target job fs m file) : Settled target job fs m' file where
  name := (h.settled file hsettled).2
  old := Nat.lt_of_lt_of_le hsettled.old h.nextFile
  version := by
    rw [(h.settled file hsettled).1]
    exact hsettled.version.mono h.replaced

/-- What another thread relies on survives the step. -/
theorem Keeps.holds (h : Keeps target job fs m m' γ i) {j : ℕ} (hj : j ≠ i)
    (hholds : Holds target job fs m j (γ j).stage) : Holds target job fs m' j (γ j).stage := by
  have hcounted := h.counted (job j).process
  have hpid : ∀ {pid}, HasPid m (job j).process pid → HasPid m' (job j).process pid := by
    intro pid hpid
    rwa [HasPid, h.process]
  cases hstage : (γ j).stage with
  | counted unique =>
    rw [hstage] at hholds
    exact Nat.lt_of_lt_of_le hholds hcounted
  | named unique pid =>
    rw [hstage] at hholds
    exact ⟨Nat.lt_of_lt_of_le hholds.1 hcounted, hpid hholds.2⟩
  | writing unique pid file written =>
    rw [hstage] at hholds
    obtain ⟨hunique, hhas, htemp⟩ := hholds
    refine ⟨Nat.lt_of_lt_of_le hunique hcounted, hpid hhas, fun hruns => ?_⟩
    rw [Machine.runs, h.process] at hruns
    obtain ⟨hentry, hcontents⟩ := htemp hruns
    obtain ⟨hentry', hcontents'⟩ :=
      h.temp j hj unique pid file written hstage (hhas.running hruns) hentry
    exact ⟨hentry', hcontents'.trans hcontents⟩
  | reading file got =>
    rw [hstage] at hholds
    obtain ⟨hsettled, hprefix⟩ := hholds
    refine ⟨h.settle hsettled, ?_⟩
    rwa [(h.settled file hsettled).1]
  | read got =>
    rw [hstage] at hholds
    exact Version.mono hholds h.replaced
  | replaced =>
    rw [hstage] at hholds
    exact hholds
  | idle => trivial
  | failed => trivial

/-- A step that keeps what the others rely on keeps the invariant, if it does so for its
own thread and for the replaced file. -/
theorem Consistent.step (h : Consistent target job fs m γ) (hkeeps : Keeps target job fs m m' γ i)
    (stage : Stage) (hholds : Holds target job fs m' i stage)
    (hunique : ∀ unique, stage.unique = some unique → (γ i).stage.unique = some unique ∨
      unique = m.counted (job i).process)
    (hcurrent : m'.fs.read target.fileName = latest target job fs m'.replaced)
    (hreplaced : ∀ j, j ∈ m'.replaced ↔ (update γ i ⟨(γ i).job, stage⟩ j).stage = .replaced) :
    Consistent target job fs m' (update γ i ⟨(γ i).job, stage⟩) where
  duty j := by
    by_cases hj : j = i
    · rw [hj, update_self]
      exact h.duty i
    · rw [update_of_ne hj]
      exact h.duty j
  holds j := by
    by_cases hj : j = i
    · rw [hj, update_self]
      exact hholds
    · rw [update_of_ne hj]
      exact hkeeps.holds hj (h.holds j)
  distinct := by
    -- A number is one that the thread had, or one that its process had not counted yet.
    have hfresh : ∀ {j unique}, (job j).process = (job i).process →
        (γ j).stage.unique = some unique → unique ≠ m.counted (job i).process := by
      intro j unique hprocess hj
      have hholds := h.holds j
      rw [← hprocess]
      cases hstage : (γ j).stage <;> rw [hstage] at hj hholds <;> cases hj
      · exact Nat.ne_of_lt hholds
      · exact Nat.ne_of_lt hholds.1
      · exact Nat.ne_of_lt hholds.1
    have hother : ∀ {j unique}, j ≠ i → (job j).process = (job i).process →
        (γ j).stage.unique = some unique → stage.unique ≠ some unique := by
      intro j unique hj hprocess hju hiu
      rcases hunique unique hiu with hi | hi
      · exact h.distinct j i hj hprocess unique hju hi
      · exact hfresh hprocess hju hi
    intro j k hjk hprocess unique hj hk
    by_cases hji : j = i
    · rw [hji, update_self] at hj
      have hki : k ≠ i := fun hki => hjk (hji.trans hki.symm)
      rw [update_of_ne hki] at hk
      rw [hji] at hprocess
      exact hother hki hprocess.symm hk hj
    · rw [update_of_ne hji] at hj
      by_cases hki : k = i
      · rw [hki, update_self] at hk
        rw [hki] at hprocess
        exact hother hji hprocess hj hk
      · rw [update_of_ne hki] at hk
        exact h.distinct j k hjk hprocess unique hj hk
  holder := by
    rw [hkeeps.process, hkeeps.holder]
    exact h.holder
  current := hcurrent
  replaced := hreplaced

/-- A thread that neither was nor is done replacing leaves the order of replacements alone. -/
theorem Consistent.replaced_update (h : Consistent target job fs m γ) (stage : Stage)
    (hold : (γ i).stage ≠ .replaced) (hnew : stage ≠ .replaced) (j : ℕ) :
    j ∈ m.replaced ↔ (update γ i ⟨(γ i).job, stage⟩ j).stage = .replaced := by
  by_cases hj : j = i
  · rw [hj, update_self]
    exact iff_of_false (fun hmem => hold ((h.replaced i).mp hmem)) hnew
  · rw [update_of_ne hj]
    exact h.replaced j

/-- A step that changes no file and no process. -/
theorem keeps_of_fs (hfs : m'.fs = m.fs) (hprocess : m'.process = m.process)
    (hholder : m'.holder = m.holder) (hcounted : ∀ process, m.counted process ≤ m'.counted process)
    (hreplaced : m'.replaced = m.replaced) : Keeps target job fs m m' γ i where
  process := hprocess
  holder := hholder
  counted := hcounted
  replaced _ hj := hreplaced ▸ hj
  nextFile := Nat.le_of_eq (by rw [hfs])
  settled file hsettled := by
    rw [hfs]
    exact ⟨rfl, hsettled.name⟩
  temp j _ unique pid file written _ _ hentry := by
    rw [hfs]
    exact ⟨hentry, rfl⟩

/-- A thread goes on to another stage, and nothing shared changes. -/
theorem Consistent.goOn (h : Consistent target job fs m γ) (stage : Stage)
    (hholds : Holds target job fs m i stage)
    (hunique : ∀ unique, stage.unique = some unique → (γ i).stage.unique = some unique)
    (hold : (γ i).stage ≠ .replaced) (hnew : stage ≠ .replaced) :
    Consistent target job fs m (update γ i ⟨(γ i).job, stage⟩) :=
  h.step (keeps_of_fs rfl rfl rfl (fun _ => Nat.le_refl _) rfl) stage hholds
    (fun unique hstage => .inl (hunique unique hstage)) h.current (h.replaced_update stage hold hnew)

/-- A thread takes a number that its process has not counted before. -/
theorem Consistent.fetchAdd (h : Consistent target job fs m γ) (hstage : (γ i).stage = .idle)
    (hfew : m.counted (job i).process < 2 ^ 64) :
    Consistent target job fs
      { m with counted := update m.counted (job i).process (m.counted (job i).process + 1) }
      (update γ i ⟨(γ i).job, .counted (m.counted (job i).process % 2 ^ 64)⟩) := by
  have hwrap : m.counted (job i).process % 2 ^ 64 = m.counted (job i).process :=
    Nat.mod_eq_of_lt hfew
  have hold : (γ i).stage ≠ .replaced := by
    rw [hstage]
    nofun
  refine h.step ?_ (.counted (m.counted (job i).process % 2 ^ 64)) ?_ ?_ h.current
    (h.replaced_update _ hold nofun)
  · refine keeps_of_fs rfl rfl rfl (fun process => ?_) rfl
    change m.counted process ≤ update m.counted _ _ process
    by_cases hprocess : process = (job i).process
    · rw [hprocess, update_self]
      exact Nat.le_succ _
    · exact Nat.le_of_eq (update_of_ne hprocess _ _).symm
  · rw [hwrap]
    simp [Holds]
  · intro unique hunique
    exact .inr ((Option.some.inj hunique).symm.trans hwrap)

/-- The process that runs a thread in flight has the PID of its temp file. -/
theorem Consistent.running (h : Consistent target job fs m γ) {unique pid : ℕ}
    (hstage : (γ i).stage = .named unique pid ∨
      ∃ file written, (γ i).stage = .writing unique pid file written)
    (hruns : m.runs (job i).process = true) : m.process (job i).process = .running pid := by
  have hholds := h.holds i
  rcases hstage with hstage | ⟨file, written, hstage⟩ <;> rw [hstage] at hholds
  · exact hholds.2.running hruns
  · exact hholds.2.1.running hruns

/-- A thread in flight holds its number, and no other thread its temp file's name. -/
theorem Consistent.temp_apart (h : Consistent target job fs m γ) {unique pid : ℕ}
    (hstage : (γ i).stage = .named unique pid ∨
      ∃ file written, (γ i).stage = .writing unique pid file written)
    (hruns : m.runs (job i).process = true) {j unique' pid' file' : ℕ} {written' : List UInt8}
    (hj : j ≠ i) (hstage' : (γ j).stage = .writing unique' pid' file' written')
    (hpid' : m.process (job j).process = .running pid') :
    target.temp unique' pid' ≠ target.temp unique pid := by
  have hi : (γ i).stage.unique = some unique := by
    rcases hstage with hstage | ⟨file, written, hstage⟩ <;> rw [hstage] <;> rfl
  have hju : (γ j).stage.unique = some unique' := by
    rw [hstage']
    rfl
  exact h.temp_ne hj hju hi hpid' (h.running hstage hruns)

/-- A thread opens its temp file, new or left over from a process that is gone. -/
theorem Consistent.create (h : Consistent target job fs m γ) {unique pid : ℕ}
    (hstage : (γ i).stage = .named unique pid) (hruns : m.runs (job i).process = true) :
    Consistent target job fs { m with fs := m.fs.create (target.temp unique pid) }
      (update γ i ⟨(γ i).job,
        .writing unique pid (m.fs.created (target.temp unique pid)) []⟩) := by
  have hdestination : target.fileName ≠ target.temp unique pid := (target.temp_ne unique pid).symm
  have hsettled : ∀ file, Settled target job fs m file →
      file ≠ m.fs.created (target.temp unique pid) := by
    rintro file hfile rfl
    rcases m.fs.created_cases (target.temp unique pid) with hentry | ⟨-, hnew⟩
    · exact hdestination (hfile.name _ hentry).symm
    · exact absurd hfile.old (by rw [hnew]; exact Nat.lt_irrefl _)
  have hholds := h.holds i
  rw [hstage] at hholds
  have hold : (γ i).stage ≠ .replaced := by
    rw [hstage]
    nofun
  refine h.step ?_ _ ⟨hholds.1, hholds.2,
    fun _ => ⟨FileSystem.entry_create_self, FileSystem.contents_create_self⟩⟩ ?_ ?_
    (h.replaced_update _ hold nofun)
  · refine ⟨rfl, rfl, fun _ => Nat.le_refl _, fun _ => id, Nat.le_succ _, fun file hfile => ?_, ?_⟩
    · refine ⟨FileSystem.contents_create_of_ne (hsettled file hfile), fun name hname => ?_⟩
      by_cases hsame : name = target.temp unique pid
      · rw [hsame, FileSystem.entry_create_self] at hname
        exact absurd (Option.some.inj hname).symm (hsettled file hfile)
      · rw [FileSystem.entry_create_of_ne hsame] at hname
        exact hfile.name name hname
    · intro j hj unique' pid' file written hstage' hpid' hentry
      have hapart := h.temp_apart (.inl hstage) hruns hj hstage' hpid'
      exact ⟨(FileSystem.entry_create_of_ne hapart).trans hentry,
        FileSystem.contents_create_of_ne (FileSystem.ne_created hentry hapart)⟩
  · intro unique' hunique
    rw [hstage]
    exact .inl hunique
  · rw [← h.current]
    simp only [FileSystem.read, FileSystem.entry_create_of_ne hdestination]
    cases hfile : m.fs.entry target.fileName with
    | none => rfl
    | some file =>
      exact congrArg some (FileSystem.contents_create_of_ne (hsettled file (h.settled hfile)))

/-- A thread writes at the end of its temp file. -/
theorem Consistent.write (h : Consistent target job fs m γ) {unique pid file : ℕ}
    {written : List UInt8} (hstage : (γ i).stage = .writing unique pid file written)
    (hruns : m.runs (job i).process = true) (bytes : List UInt8) :
    Consistent target job fs { m with fs := m.fs.write file written.length bytes }
      (update γ i ⟨(γ i).job, .writing unique pid file (written ++ bytes)⟩) := by
  have hholds := h.holds i
  rw [hstage] at hholds
  obtain ⟨hunique, hpid, htemp⟩ := hholds
  obtain ⟨hentry, hcontents⟩ := htemp hruns
  have hsettled : ∀ other, Settled target job fs m other → other ≠ file := by
    rintro other hother rfl
    exact target.temp_ne unique pid (hother.name _ hentry)
  have hold : (γ i).stage ≠ .replaced := by
    rw [hstage]
    nofun
  refine h.step ?_ (.writing unique pid file (written ++ bytes)) ⟨hunique, hpid, fun _ => ⟨hentry, ?_⟩⟩
    ?_ ?_ (h.replaced_update _ hold nofun)
  · refine ⟨rfl, rfl, fun _ => Nat.le_refl _, fun _ => id, Nat.le_refl _, fun other hother => ?_, ?_⟩
    · exact ⟨FileSystem.contents_write_of_ne (hsettled other hother), hother.name⟩
    · intro j hj unique' pid' file' written' hstage' hpid' hentry'
      have hapart := h.temp_apart (.inr ⟨file, written, hstage⟩) hruns hj hstage' hpid'
      exact ⟨hentry',
        FileSystem.contents_write_of_ne (FileSystem.ne_of_entry hentry' hentry hapart)⟩
  · rw [← hcontents]
    exact FileSystem.contents_write_append rfl
  · intro unique' hunique'
    rw [hstage]
    exact .inl hunique'
  · rw [← h.current]
    change (m.fs.entry target.fileName).map (m.fs.write file written.length bytes).contents = _
    rw [FileSystem.read]
    cases hfile : m.fs.entry target.fileName with
    | none => rfl
    | some other =>
      exact congrArg some (FileSystem.contents_write_of_ne (hsettled other (h.settled hfile)))

/-- A thread replaces the file by its complete temp file. -/
theorem Consistent.rename (h : Consistent target job fs m γ) {unique pid file process : ℕ}
    {written : List UInt8} (hstage : (γ i).stage = .writing unique pid file written)
    (hjob : (γ i).job = .write process written) (hruns : m.runs (job i).process = true) :
    Consistent target job fs
      { m with
        fs := m.fs.rename (target.temp unique pid) target.fileName
        replaced := m.replaced ++ [i] }
      (update γ i ⟨(γ i).job, .replaced⟩) := by
  have hholds := h.holds i
  rw [hstage] at hholds
  obtain ⟨hunique, hpid, htemp⟩ := hholds
  obtain ⟨hentry, hcontents⟩ := htemp hruns
  have hwrites : job i = .write process written := by rw [← h.duty, hjob]
  refine h.step ?_ .replaced ⟨process, written, hwrites⟩ nofun ?_ ?_
  · refine ⟨rfl, rfl, fun _ => Nat.le_refl _, fun _ => List.mem_append_left _, Nat.le_refl _,
      fun other hother => ⟨rfl, fun name hname => ?_⟩, ?_⟩
    · by_contra hne
      by_cases hsource : name = target.temp unique pid
      · rw [hsource] at hname
        cases (FileSystem.entry_rename_source (target.temp_ne unique pid)).symm.trans hname
      · exact hne (hother.name name ((FileSystem.entry_rename_of_ne hsource hne).symm.trans hname))
    · intro j hj unique' pid' file' written' hstage' hpid' hentry'
      have hapart := h.temp_apart (.inr ⟨file, written, hstage⟩) hruns hj hstage' hpid'
      exact ⟨(FileSystem.entry_rename_of_ne hapart (target.temp_ne unique' pid')).trans hentry', rfl⟩
  · have hlatest : latest target job fs (m.replaced ++ [i]) = some written := by
      rw [latest, List.getLast?_concat]
      exact congrArg (fun job => some job.contents) hwrites
    rw [hlatest, ← hcontents]
    change ((m.fs.rename _ _).entry target.fileName).map m.fs.contents = _
    rw [FileSystem.entry_rename_target, hentry]
    rfl
  · intro j
    by_cases hj : j = i
    · rw [hj, update_self]
      exact iff_of_true (List.mem_append_right _ List.mem_cons_self) rfl
    · rw [update_of_ne hj, List.mem_append, List.mem_singleton]
      exact ⟨fun hmem => (h.replaced j).mp (hmem.resolve_right hj),
        fun hdone => .inl ((h.replaced j).mpr hdone)⟩

/-- A thread that failed removes its temp file. -/
theorem Consistent.remove (h : Consistent target job fs m γ) {unique pid : ℕ}
    (hstage : (γ i).stage = .named unique pid ∨
      ∃ file written, (γ i).stage = .writing unique pid file written)
    (hruns : m.runs (job i).process = true) :
    Consistent target job fs { m with fs := m.fs.remove (target.temp unique pid) }
      (update γ i ⟨(γ i).job, .failed⟩) := by
  have hdestination : target.fileName ≠ target.temp unique pid := (target.temp_ne unique pid).symm
  have hold : (γ i).stage ≠ .replaced := by
    rcases hstage with hstage | ⟨file, written, hstage⟩ <;> rw [hstage] <;> nofun
  refine h.step ?_ .failed trivial nofun ?_ (h.replaced_update _ hold nofun)
  · refine ⟨rfl, rfl, fun _ => Nat.le_refl _, fun _ => id, Nat.le_refl _,
      fun other hother => ⟨rfl, fun name hname => ?_⟩, ?_⟩
    · by_cases hsame : name = target.temp unique pid
      · rw [hsame, FileSystem.entry_remove_self] at hname
        cases hname
      · exact hother.name name ((FileSystem.entry_remove_of_ne hsame).symm.trans hname)
    · intro j hj unique' pid' file' written' hstage' hpid' hentry'
      have hapart := h.temp_apart hstage hruns hj hstage' hpid'
      exact ⟨(FileSystem.entry_remove_of_ne hapart).trans hentry', rfl⟩
  · rw [← h.current]
    simp only [FileSystem.read, FileSystem.entry_remove_of_ne hdestination]
    rfl

/-- A reader gets more of the file it has open, or all of it. -/
theorem Consistent.readAt (h : Consistent target job fs m γ) {file : ℕ} {got : List UInt8}
    (hstage : (γ i).stage = .reading file got) (count : ℕ) :
    Consistent target job fs m (update γ i ⟨(γ i).job, (γ i).stage.after (.readAt file got.length)
      (some (((m.fs.contents file).drop got.length).take (max 1 count)))⟩) := by
  have hholds := h.holds i
  rw [hstage] at hholds
  obtain ⟨hsettled, rest, hrest⟩ := hholds
  have hold : (γ i).stage ≠ .replaced := by
    rw [hstage]
    nofun
  rw [hstage]
  have hdrop : (m.fs.contents file).drop got.length = rest := by rw [← hrest, List.drop_left]
  rw [hdrop]
  cases hbytes : rest.take (max 1 count) with
  | nil =>
    have hempty : rest = [] := by
      have hlength := congrArg List.length hbytes
      rw [List.length_take, List.length_nil] at hlength
      exact List.length_eq_zero_iff.mp (by omega)
    refine h.goOn (.read got) ?_ nofun hold nofun
    rw [hempty, List.append_nil] at hrest
    rw [hrest]
    exact hsettled.version
  | cons byte bytes =>
    refine h.goOn (.reading file (got ++ byte :: bytes)) ⟨hsettled, ?_⟩ nofun hold nofun
    rw [← hrest, ← hbytes]
    exact ⟨rest.drop (max 1 count), by rw [List.append_assoc, List.take_append_drop]⟩

/-! ## Runs -/

/-- The counter of a process has not wrapped around. -/
def NumbersLeft (job : ℕ → Job) (m : Machine) (i : ℕ) (a : StoreAct) (_ : StoreChoice) : Prop :=
  a = .fetchAdd → m.counted (job i).process < 2 ^ 64

/-- Every allowed system call of a thread at its stage keeps the invariant. -/
theorem Consistent.act (h : Consistent target job fs m γ) {a : StoreAct} {c : StoreChoice}
    {r : a.Response} (hruns : m.runs (job i).process = true) (hleft : NumbersLeft job m i a c)
    (hmay : (γ i).May target a) (hperform : Machine.perform target job i a c m = some (r, m')) :
    (orderly target).fact a (γ i) r ∧
      Consistent target job fs m' (update γ i ⟨(γ i).job, (γ i).stage.after a r⟩) := by
  have hsame : ∀ stage, stage = (γ i).stage →
      Consistent target job fs m (update γ i ⟨(γ i).job, stage⟩) := by
    rintro stage rfl
    rwa [update_eq_self]
  cases a with
  | fetchAdd =>
    cases hperform
    exact ⟨trivial, h.fetchAdd hmay (hleft rfl)⟩
  | processId =>
    obtain ⟨unique, hstage⟩ := hmay
    have hholds := h.holds i
    have hold : (γ i).stage ≠ .replaced := by
      rw [hstage]
      nofun
    simp only [Machine.perform] at hperform
    split at hperform
    · rename_i hpid
      cases hperform
      rw [hstage] at hholds
      have hunique : ∀ number, some unique = some number → (γ i).stage.unique = some number := by
        rw [hstage]
        exact fun _ => id
      have hnext := h.goOn (.named unique _) ⟨hholds, .inl hpid⟩ hunique hold nofun
      rw [hstage]
      exact ⟨trivial, hnext⟩
    · cases hperform
  | create name =>
    obtain ⟨unique, pid, hstage, rfl⟩ := hmay
    simp only [Machine.perform] at hperform
    split at hperform <;> cases hperform
    · rw [hstage]
      exact ⟨trivial, h.create hstage hruns⟩
    · refine ⟨trivial, hsame _ ?_⟩
      rw [hstage]
      rfl
  | looseMode file =>
    cases hperform
    exact ⟨trivial, hsame _ rfl⟩
  | setPermissions file =>
    cases hperform
    exact ⟨trivial, hsame _ rfl⟩
  | write file offset bytes =>
    obtain ⟨unique, pid, written, hstage, rfl⟩ := hmay
    simp only [Machine.perform] at hperform
    split at hperform <;> cases hperform
    · rw [hstage]
      refine ⟨fun count hcount => ?_, h.write hstage hruns _⟩
      rw [← Option.some.inj hcount]
      exact Nat.min_le_right _ _
    · refine ⟨nofun, hsame _ ?_⟩
      rw [hstage]
      rfl
  | flush file =>
    cases hperform
    exact ⟨trivial, hsame _ rfl⟩
  | close file =>
    cases hperform
    exact ⟨trivial, hsame _ rfl⟩
  | rename source new =>
    obtain ⟨unique, pid, file, written, process, hstage, hjob, rfl, rfl⟩ := hmay
    simp only [Machine.perform] at hperform
    split at hperform <;> cases hperform
    · rw [if_pos trivial, hstage]
      exact ⟨trivial, h.rename hstage hjob hruns⟩
    · exact ⟨trivial, hsame _ rfl⟩
  | removeFile name =>
    obtain ⟨unique, pid, rfl, hstage⟩ := hmay
    have hold : (γ i).stage ≠ .replaced := by
      rcases hstage with hstage | ⟨file, written, hstage⟩ <;> rw [hstage] <;> nofun
    simp only [Machine.perform] at hperform
    split at hperform <;> cases hperform
    · exact ⟨trivial, h.remove hstage hruns⟩
    · exact ⟨trivial, h.goOn .failed trivial nofun hold nofun⟩
  | openRead name =>
    obtain ⟨hstage, rfl⟩ := hmay
    have hold : (γ i).stage ≠ .replaced := by
      rw [hstage]
      nofun
    cases hperform
    cases hfile : if c.ok then m.fs.entry target.fileName else none with
    | none => exact ⟨trivial, hsame _ rfl⟩
    | some file =>
      have hentry : m.fs.entry target.fileName = some file := by
        split at hfile
        · exact hfile
        · cases hfile
      exact ⟨trivial, h.goOn (.reading file []) ⟨h.settled hentry, List.nil_prefix⟩ nofun hold nofun⟩
  | readAt file offset =>
    obtain ⟨got, hstage, rfl⟩ := hmay
    cases hperform
    refine ⟨trivial, ?_⟩
    split
    · exact h.readAt hstage c.count
    · refine hsame _ ?_
      rw [hstage]
      rfl

/-- What a thread relies on when processes start or end. -/
theorem Holds.events {i : ℕ} {stage : Stage} (h : Holds target job fs m i stage)
    (hfs : m'.fs = m.fs) (hcounted : m'.counted = m.counted) (hreplaced : m'.replaced = m.replaced)
    (hpid : ∀ pid, HasPid m (job i).process pid → HasPid m' (job i).process pid ∧
      (m'.runs (job i).process = true → m.runs (job i).process = true)) :
    Holds target job fs m' i stage := by
  cases stage with
  | counted unique => rwa [Holds, hcounted]
  | named unique pid =>
    rw [Holds, hcounted]
    exact ⟨h.1, (hpid pid h.2).1⟩
  | writing unique pid file written =>
    rw [Holds, hcounted, hfs]
    exact ⟨h.1, (hpid pid h.2.1).1, fun hruns => h.2.2 ((hpid pid h.2.1).2 hruns)⟩
  | reading file got =>
    obtain ⟨⟨hname, hbound, hversion⟩, hprefix⟩ := h
    rw [Holds, hfs]
    exact ⟨⟨hfs ▸ hname, hfs ▸ hbound, hfs ▸ hversion.mono fun _ => hreplaced ▸ id⟩, hprefix⟩
  | read got => exact Version.mono h fun _ => hreplaced ▸ id
  | replaced => exact h
  | idle => trivial
  | failed => trivial

/-- The start or the end of a process keeps the invariant. -/
theorem Consistent.disturb (h : Consistent target job fs m γ) {e : ProcessEvent}
    (hdisturb : m.disturb e = some m') : Consistent target job fs m' γ := by
  cases e with
  | start process pid =>
    simp only [Machine.disturb] at hdisturb
    split at hdisturb
    · rename_i hfree
      obtain ⟨hunborn, hnone⟩ := hfree
      cases hdisturb
      refine ⟨h.duty, fun i => (h.holds i).events rfl rfl rfl fun pid' hpid' => ?_, h.distinct,
        fun q pid' hq => ?_, h.current, h.replaced⟩
      · have hother : (job i).process ≠ process := by
          rintro heq
          rw [heq] at hpid'
          rcases hpid' with hrunning | hgone
          · cases hunborn.symm.trans hrunning
          · cases hunborn.symm.trans hgone
        simp only [HasPid, Machine.runs, update_of_ne hother]
        exact ⟨hpid', id⟩
      · change update m.process process _ q = _ at hq
        change update m.holder pid _ pid' = _
        by_cases hq' : q = process
        · subst hq'
          rw [update_self] at hq
          cases hq
          exact update_self ..
        · rw [update_of_ne hq'] at hq
          have hholder := h.holder q pid' hq
          have hpid : pid' ≠ pid := by
            rintro rfl
            cases hnone.symm.trans hholder
          exact (update_of_ne hpid ..).trans hholder
    · cases hdisturb
  | kill process =>
    simp only [Machine.disturb] at hdisturb
    split at hdisturb
    · rename_i pid hrunning
      cases hdisturb
      refine ⟨h.duty, fun i => (h.holds i).events rfl rfl rfl fun pid' hpid' => ?_, h.distinct,
        fun q pid' hq => ?_, h.current, h.replaced⟩
      · by_cases hsame : (job i).process = process
        · simp only [HasPid, Machine.runs, hsame, update_self]
          exact ⟨.inr trivial, nofun⟩
        · simp only [HasPid, Machine.runs, update_of_ne hsame]
          exact ⟨hpid', id⟩
      · change update m.process process _ q = _ at hq
        change update m.holder pid _ pid' = _
        by_cases hq' : q = process
        · rw [hq', update_self] at hq
          cases hq
        · rw [update_of_ne hq'] at hq
          have hholder := h.holder q pid' hq
          have hpid : pid' ≠ pid := by
            rintro rfl
            exact hq' (Option.some.inj (hholder.symm.trans (h.holder process pid' hrunning)))
          exact (update_of_ne hpid ..).trans hholder
    · cases hdisturb

/-- **Whole versions.** As long as no process has counted `2 ^ 64` calls, whatever the
interleaving and whoever is killed: a read gets the initial contents or all that one call
wrote, and the file has the contents of the call that replaced it last. A call that
returns an error did not replace it. -/
theorem writeAtomic_versions (target : Target) (job : ℕ → Job) (fs : FileSystem FileName)
    {s : Config StoreAct StoreAct.Response StoreResult Machine}
    (h : (storage target job).Reaches (NumbersLeft job) (storageStart target job fs) s) :
    (∀ i bytes, s.thread i = .done (.read bytes) → Version target job fs s.world bytes) ∧
      s.world.fs.read target.fileName = latest target job fs s.world.replaced ∧
      (∀ i, s.thread i = .done (.wrote (.ok ())) → i ∈ s.world.replaced) ∧
      ∀ i e, s.thread i = .done (.wrote (.error e)) → i ∉ s.world.replaced := by
  have hcovers : Covers (storage target job) (orderly target) (fun x d => d.Ends x)
      (fun _ d _ => d) := by
    refine ⟨nofun, fun {x d p} hends hagain => ?_⟩
    cases x with
    | reading file got =>
      cases hagain
      obtain ⟨job, stage⟩ := d
      obtain rfl : stage = .reading file got := hends
      exact follows_readMore
    | _ => cases hagain
  have hpreserves : Preserves (storage target job) (orderly target) (fun _ d _ => d)
      (NumbersLeft job) (Consistent target job fs) :=
    ⟨fun hJ halive hok hpre hperform => hJ.act halive hok hpre hperform,
      fun hJ hdisturb => hJ.disturb hdisturb⟩
  have hstart : Outlined (orderly target) (fun x d => d.Ends x) (Consistent target job fs)
      (storageStart target job fs) :=
    ⟨fun i => ⟨job i, .idle⟩, ⟨fun _ => rfl, fun _ => trivial, fun _ _ _ _ _ => nofun,
      fun _ _ => nofun, rfl, fun _ => ⟨nofun, nofun⟩⟩, fun i => follows_program target (job i)⟩
  obtain ⟨γ, hconsistent, hfollows⟩ := h.outline hcovers hpreserves hstart
  have hends : ∀ {i x}, s.thread i = .done x → (γ i).Ends x := by
    intro i x hdone
    have hthread := hfollows i
    rwa [hdone] at hthread
  refine ⟨fun i bytes hdone => ?_, hconsistent.current, fun i hdone => ?_, fun i e hdone hmem => ?_⟩
  · have hholds := hconsistent.holds i
    rw [show (γ i).stage = .read bytes from hends hdone] at hholds
    exact hholds
  · exact (hconsistent.replaced i).mpr (hends hdone)
  · exact hends hdone ((hconsistent.replaced i).mp hmem)

/-- The record of a session. -/
def demoTarget : Target := ⟨some "demo", .text "metadata.json", "demo/metadata.json"⟩

/-- A directory without files. -/
def emptyDirectory : FileSystem FileName := ⟨fun _ => none, fun _ => [], 0, nofun, nofun⟩

/-- `NumbersLeft`, as a test. -/
def numbersLeft (job : ℕ → Job) (m : Machine) (i : ℕ) : StoreAct → StoreChoice → Bool
  | .fetchAdd, _ => m.counted (job i).process < 2 ^ 64
  | _, _ => true

/-- The test decides that numbers are left. -/
theorem numbersLeft_sound (job : ℕ → Job) (m : Machine) (i : ℕ) (a : StoreAct) (c : StoreChoice)
    (h : numbersLeft job m i a c = true) : NumbersLeft job m i a c := by
  rintro rfl
  exact of_decide_eq_true h

/-- Whether a thread has read this. -/
def hasRead (i : ℕ) (bytes : List UInt8)
    (s : Config StoreAct StoreAct.Response StoreResult Machine) : Bool :=
  match s.thread i with
  | .done (.read got) => got == bytes
  | _ => false

/-- The test finds a thread that has read the bytes. -/
theorem eq_of_hasRead {i : ℕ} {bytes : List UInt8}
    {s : Config StoreAct StoreAct.Response StoreResult Machine} (h : hasRead i bytes s = true) :
    s.thread i = .done (.read bytes) := by
  unfold hasRead at h
  split at h
  · rename_i got hdone
    rw [hdone, eq_of_beq h]
  · cases h

/-- A thread takes some steps, all with the same choice. -/
def storeSteps (i n : ℕ) (c : StoreChoice) : List (Move StoreChoice ProcessEvent) :=
  List.replicate n (.run i c)

/-- A writer in one process, another one in a second process, and a reader. -/
def threeJobs : ℕ → Job
  | 0 => .write 0 [0x61, 0x62]
  | 1 => .write 1 [0x63, 0x64]
  | _ => .read 2

/-- The first writer is killed in the middle of a write. Its PID goes to the process of
the second one, which finds the temp file of the first; then the file is read. -/
def threeSteps : List (Move StoreChoice ProcessEvent) :=
  .disturb (.start 0 7) :: storeSteps 0 5 { count := 1 } ++ [.disturb (.kill 0)] ++
    .disturb (.start 1 7) :: storeSteps 1 8 { count := 9 } ++
    .disturb (.start 2 8) :: storeSteps 2 2 { count := 9 } ++ [.loop 2] ++ storeSteps 2 1 {}

/-- A read after a kill and the reuse of a PID. -/
theorem writeAtomic_versions_reused :
    ∃ s, (storage demoTarget threeJobs).Reaches (NumbersLeft threeJobs)
      (storageStart demoTarget threeJobs emptyDirectory) s ∧
      s.thread 2 = .done (.read [0x63, 0x64]) ∧
      Version demoTarget threeJobs emptyDirectory s.world [0x63, 0x64] := by
  obtain ⟨s, hreach, hcheck⟩ := System.exists_reaches_of_exec (storage demoTarget threeJobs)
    (numbersLeft threeJobs) threeSteps (storageStart demoTarget threeJobs emptyDirectory)
    (hasRead 2 [0x63, 0x64]) (numbersLeft_sound threeJobs) (by decide +kernel)
  have hread := eq_of_hasRead hcheck
  exact ⟨s, hreach, hread,
    (writeAtomic_versions demoTarget threeJobs emptyDirectory hreach).1 2 _ hread⟩

/-! ## A counter that wraps around -/

/-- `2 ^ 64` writers of one text, one writer of another, and a reader, in one process. -/
def manyJobs (i : ℕ) : Job :=
  if i < 2 ^ 64 then .write 0 [0x61, 0x62]
  else if i = 2 ^ 64 then .write 0 [0x63, 0x64]
  else .read 0

/-- A writer of the first text that has its number. -/
def numbered (unique : ℕ) : Program StoreAct StoreAct.Response StoreResult := do
  let result ← (writeNumbered demoTarget "demo" "metadata.json" [0x61, 0x62] unique).run
  pure (.wrote result)

/-- The first `n` threads have their numbers, and nothing else has happened. -/
def counting (n : ℕ) : Config StoreAct StoreAct.Response StoreResult Machine where
  world :=
    { fs := emptyDirectory
      process := update (fun _ => .unborn) 0 (.running 7)
      holder := update (fun _ => none) 7 (some 0)
      counted := fun process => if process = 0 then n else 0
      replaced := [] }
  thread i := if i < n then numbered i else (manyJobs i).program demoTarget

/-- The next thread takes its number. -/
theorem counting_step {n : ℕ} (hn : n < 2 ^ 64) :
    (storage demoTarget manyJobs).Step (fun _ _ _ _ => True) (counting n) (counting (n + 1)) := by
  have hjob : manyJobs n = .write 0 [0x61, 0x62] := if_pos hn
  have hthread : (counting n).thread n = (Job.write 0 [0x61, 0x62]).program demoTarget := by
    rw [← hjob]
    exact if_neg (Nat.lt_irrefl n)
  have hruns : (storage demoTarget manyJobs).alive (counting n).world n = true := by
    simp [storage, hjob, Job.process, Machine.runs, counting]
  have hcounted : update (counting n).world.counted (manyJobs n).process
      ((counting n).world.counted (manyJobs n).process + 1) = (counting (n + 1)).world.counted := by
    funext process
    rw [hjob]
    by_cases hprocess : process = 0
    · simp [hprocess, Job.process, counting]
    · simp [hprocess, Job.process, counting]
  have hnumber : (counting n).world.counted (manyJobs n).process % 2 ^ 64 = n := by
    rw [hjob]
    exact Nat.mod_eq_of_lt hn
  have hperform : (storage demoTarget manyJobs).perform n .fetchAdd {} (counting n).world =
      some (n, (counting (n + 1)).world) := by
    simp only [storage, Machine.perform, hnumber, hcounted]
    rfl
  have hthreads : update (counting n).thread n (numbered n) = (counting (n + 1)).thread := by
    funext j
    by_cases hj : j = n
    · rw [hj, update_self]
      exact (if_pos (Nat.lt_succ_self n)).symm
    · rw [update_of_ne hj]
      have hlt : j < n + 1 ↔ j < n := by omega
      simp only [counting, hlt]
  have hstep : (storage demoTarget manyJobs).Step (fun _ _ _ _ => True) (counting n)
      ⟨(counting (n + 1)).world, update (counting n).thread n (numbered n)⟩ :=
    .act hthread hruns trivial hperform
  rwa [hthreads] at hstep

/-- The counter can be brought to any number up to the wrap. -/
theorem counting_reaches {n : ℕ} (hn : n ≤ 2 ^ 64) :
    (storage demoTarget manyJobs).Reaches (fun _ _ _ _ => True) (counting 0) (counting n) := by
  induction n with
  | zero => exact .refl
  | succ n ih => exact (ih (Nat.le_of_succ_le hn)).tail (counting_step hn)

/-- The last writer gets the number of the first one, and replaces the file while the
first one has its first byte left to write. -/
def collision : List (Move StoreChoice ProcessEvent) :=
  storeSteps 0 4 { count := 1 } ++ storeSteps (2 ^ 64) 8 { count := 2 } ++
    storeSteps 0 1 { count := 1 } ++ storeSteps (2 ^ 64 + 1) 2 { count := 9 } ++
    [.loop (2 ^ 64 + 1)] ++ storeSteps (2 ^ 64 + 1) 1 {}

/-- After `2 ^ 64` calls in one process a reader sees the end of one text in the other. -/
theorem writeAtomic_mixed :
    ∃ s, (storage demoTarget manyJobs).Reaches (fun _ _ _ _ => True)
      (storageStart demoTarget manyJobs emptyDirectory) s ∧
      s.thread (2 ^ 64 + 1) = .done (.read [0x63, 0x62]) ∧
      ¬Version demoTarget manyJobs emptyDirectory s.world [0x63, 0x62] := by
  have hborn : (storage demoTarget manyJobs).Reaches (fun _ _ _ _ => True)
      (storageStart demoTarget manyJobs emptyDirectory) (counting 0) := by
    have hworld : (storage demoTarget manyJobs).disturb (.start 0 7)
        (storageStart demoTarget manyJobs emptyDirectory).world = some (counting 0).world := by
      simp [storage, Machine.disturb, storageStart, counting]
    have hthread : (counting 0).thread =
        (storageStart demoTarget manyJobs emptyDirectory).thread := by
      funext i
      simp [counting, storageStart]
    have hstep : (storage demoTarget manyJobs).Step (fun _ _ _ _ => True)
        (storageStart demoTarget manyJobs emptyDirectory)
        ⟨(counting 0).world, (storageStart demoTarget manyJobs emptyDirectory).thread⟩ :=
      .disturb hworld
    rw [← hthread] at hstep
    exact .single hstep
  obtain ⟨s, hreach, hcheck⟩ := System.exists_reaches_of_exec (storage demoTarget manyJobs)
    System.unrestricted collision (counting (2 ^ 64)) (hasRead (2 ^ 64 + 1) [0x63, 0x62])
    (fun _ _ _ _ _ => trivial) (by decide +kernel)
  refine ⟨s, (hborn.trans (counting_reaches (Nat.le_refl _))).trans hreach, eq_of_hasRead hcheck, ?_⟩
  rintro (hread | ⟨i, -, process, hjob⟩)
  · cases hread
  · unfold manyJobs at hjob
    split at hjob
    · cases hjob
    · split at hjob <;> cases hjob

end IgnibyteBridge
