import IgnibyteBridge.Storage.Versions

/-!
# One order of replacements and reads

The calls that replace the file take effect one after another, each between its start
and its end, and a read gets what the file held at one moment between its start and its
end. So a read that starts after another one has ended gets the same or a later version.
-/

namespace IgnibyteBridge

open Concurrency Storage Function

section Invariant

variable (target : Target) (job : ℕ → Job) (fs : FileSystem FileName)

/-- What the file held after some number of replacements that is no less than `first`. -/
def WasLatest (first : ℕ) (m : Machine) (bytes : List UInt8) : Prop :=
  ∃ n, first ≤ n ∧ n ≤ m.replaced.length ∧ latest target job fs (m.replaced.take n) = some bytes

/-- What a reader gets that started after `first` replacements. -/
def ReadsSince (first : ℕ) (m : Machine) : Stage → Prop
  | .reading file _ => WasLatest target job fs first m (m.fs.contents file)
  | .read got => WasLatest target job fs first m got
  | _ => True

/-- The invariant since these calls had replaced the file, where thread `k` started after
the first ones of them. -/
structure Ordered (before : List ℕ) (first k : ℕ) (m : Machine) (γ : ℕ → Duty) : Prop where
  consistent : Consistent target job fs m γ
  grows : before <+: m.replaced
  once : m.replaced.Nodup
  started : first ≤ m.replaced.length
  reads : ∀ process, job k = .read process → ReadsSince target job fs first m (γ k).stage

end Invariant

variable {target : Target} {job : ℕ → Job} {fs : FileSystem FileName} {m m' : Machine}
  {γ : ℕ → Duty} {i k first : ℕ} {before : List ℕ} {a : StoreAct} {c : StoreChoice}
  {r : a.Response}

/-! ## What one step does -/

/-- What was the latest content at some moment was so in every longer run. -/
theorem WasLatest.mono {bytes : List UInt8} (h : WasLatest target job fs first m bytes)
    (hgrows : m.replaced <+: m'.replaced) : WasLatest target job fs first m' bytes := by
  obtain ⟨n, hfirst, hn, hlatest⟩ := h
  obtain ⟨rest, hrest⟩ := hgrows
  have hlength := congrArg List.length hrest
  rw [List.length_append] at hlength
  refine ⟨n, hfirst, by omega, ?_⟩
  rw [← hrest, List.take_append_of_le_length hn]
  exact hlatest

/-- What a reader has begun to read it still reads after more writes. -/
theorem ReadsSince.mono {stage : Stage} (h : ReadsSince target job fs first m stage)
    (hgrows : m.replaced <+: m'.replaced)
    (hcontents : ∀ file got, stage = .reading file got → m'.fs.contents file = m.fs.contents file) :
    ReadsSince target job fs first m' stage := by
  cases stage with
  | reading file got =>
    have hmoment := WasLatest.mono h hgrows
    rw [← hcontents file got rfl] at hmoment
    exact hmoment
  | read got => exact WasLatest.mono h hgrows
  | _ => trivial

/-- A system call puts its thread last in the order of replacements, for the first time,
or leaves the order as it is. -/
theorem Consistent.replaced_cases (h : Consistent target job fs m γ) (hmay : (γ i).May target a)
    (hperform : Machine.perform target job i a c m = some (r, m')) :
    m'.replaced = m.replaced ∨ m'.replaced = m.replaced ++ [i] ∧ i ∉ m.replaced := by
  cases a with
  | rename source new =>
    obtain ⟨unique, pid, file, written, process, hstage, -, -, rfl⟩ := hmay
    simp only [Machine.perform] at hperform
    split at hperform <;> cases hperform
    · right
      refine ⟨by simp, fun hmem => ?_⟩
      rw [(h.replaced i).mp hmem] at hstage
      cases hstage
    · exact .inl rfl
  | _ =>
    left
    simp only [Machine.perform] at hperform
    (try split at hperform) <;> cases hperform <;> rfl

/-- No system call changes what a settled file holds. -/
theorem Consistent.contents_settled (h : Consistent target job fs m γ)
    (hruns : m.runs (job i).process = true) (hmay : (γ i).May target a)
    (hperform : Machine.perform target job i a c m = some (r, m')) {file : ℕ}
    (hsettled : Settled target job fs m file) : m'.fs.contents file = m.fs.contents file := by
  cases a with
  | create name =>
    obtain ⟨unique, pid, -, rfl⟩ := hmay
    simp only [Machine.perform] at hperform
    split at hperform <;> cases hperform
    · refine FileSystem.contents_create_of_ne ?_
      rintro rfl
      rcases m.fs.created_cases (target.temp unique pid) with hentry | ⟨-, hnew⟩
      · exact target.temp_ne unique pid (hsettled.name _ hentry)
      · have hold := hsettled.old
        omega
    · rfl
  | write other offset bytes =>
    obtain ⟨unique, pid, written, hstage, -⟩ := hmay
    simp only [Machine.perform] at hperform
    split at hperform <;> cases hperform
    · refine FileSystem.contents_write_of_ne ?_
      rintro rfl
      -- The temp file has its name as long as its process runs.
      have hholds := h.holds i
      rw [hstage] at hholds
      exact target.temp_ne unique pid (hsettled.name _ (hholds.2.2 hruns).1)
    · rfl
  | rename source new =>
    simp only [Machine.perform] at hperform
    split at hperform <;> cases hperform <;> rfl
  | removeFile name =>
    simp only [Machine.perform] at hperform
    split at hperform <;> cases hperform <;> rfl
  | _ =>
    simp only [Machine.perform] at hperform
    (try split at hperform) <;> cases hperform <;> rfl

/-- A reader opens the file that is there, and has read all of it when nothing is left. -/
theorem Consistent.reads_own (h : Consistent target job fs m γ) (hmay : (γ i).May target a)
    (hperform : Machine.perform target job i a c m = some (r, m'))
    (hfirst : first ≤ m.replaced.length)
    (hreads : ReadsSince target job fs first m (γ i).stage) :
    ReadsSince target job fs first m ((γ i).stage.after a r) := by
  cases a with
  | openRead name =>
    obtain ⟨hstage, rfl⟩ := hmay
    cases hperform
    rw [hstage]
    cases hfile : if c.ok then m.fs.entry target.fileName else none with
    | none => trivial
    | some file =>
      have hentry : m.fs.entry target.fileName = some file := by
        split at hfile
        · exact hfile
        · cases hfile
      refine ⟨m.replaced.length, hfirst, Nat.le_refl _, ?_⟩
      rw [List.take_length, ← h.current, FileSystem.read, hentry]
      rfl
  | readAt file offset =>
    obtain ⟨got, hstage, rfl⟩ := hmay
    cases hperform
    have hholds := h.holds i
    rw [hstage] at hholds hreads ⊢
    obtain ⟨-, rest, hrest⟩ := hholds
    have hdrop : (m.fs.contents file).drop got.length = rest := by rw [← hrest, List.drop_left]
    rw [hdrop]
    split
    · cases hbytes : rest.take (max 1 c.count) with
      | nil =>
        have hempty : rest = [] := by
          have hlength := congrArg List.length hbytes
          rw [List.length_take, List.length_nil] at hlength
          exact List.length_eq_zero_iff.mp (by omega)
        rw [hempty, List.append_nil] at hrest
        rw [ReadsSince, hrest] at *
        exact hreads
      | cons byte bytes => exact hreads
    · exact hreads
  | fetchAdd => trivial
  | processId =>
    obtain ⟨unique, hstage⟩ := hmay
    rw [hstage]
    trivial
  | create name =>
    obtain ⟨unique, pid, hstage, -⟩ := hmay
    rw [hstage]
    cases r <;> trivial
  | write file offset bytes =>
    obtain ⟨unique, pid, written, hstage, -⟩ := hmay
    rw [hstage]
    cases r <;> trivial
  | rename source new =>
    obtain ⟨unique, pid, file, written, process, hstage, -⟩ := hmay
    rw [hstage]
    cases r <;> trivial
  | removeFile name => trivial
  | _ => exact hreads

/-- No file changes when a process starts or ends. -/
theorem disturb_files {e : ProcessEvent} (h : m.disturb e = some m') :
    m'.fs = m.fs ∧ m'.replaced = m.replaced := by
  cases e with
  | start process pid =>
    simp only [Machine.disturb] at h
    split at h <;> cases h
    exact ⟨rfl, rfl⟩
  | kill process =>
    simp only [Machine.disturb] at h
    split at h <;> cases h
    exact ⟨rfl, rfl⟩

/-- A thread that reads has read before, or has opened the file. -/
theorem Stage.of_after_reading {stage : Stage} {file : ℕ} {got : List UInt8}
    (h : stage.after a r = .reading file got) :
    (∃ got', stage = .reading file got') ∨ ∃ name, a = .openRead name := by
  unfold Stage.after at h
  split at h
  case h_7 => exact .inr ⟨_, rfl⟩
  case h_9 =>
    cases h
    exact .inl ⟨_, rfl⟩
  case h_10 => exact .inl ⟨_, h⟩
  all_goals cases h

/-! ## Runs -/

/-- Every allowed system call of a thread at its stage keeps the order. -/
theorem Ordered.act (h : Ordered target job fs before first k m γ)
    (hruns : m.runs (job i).process = true) (hleft : NumbersLeft job m i a c)
    (hmay : (γ i).May target a) (hperform : Machine.perform target job i a c m = some (r, m')) :
    (orderly target).fact a (γ i) r ∧
      Ordered target job fs before first k m' (update γ i ⟨(γ i).job, (γ i).stage.after a r⟩) := by
  obtain ⟨hfact, hconsistent⟩ := h.consistent.act hruns hleft hmay hperform
  have hreplaced := h.consistent.replaced_cases hmay hperform
  have hgrows : m.replaced <+: m'.replaced := by
    rcases hreplaced with heq | ⟨heq, -⟩
    · exact heq ▸ List.prefix_rfl
    · exact heq ▸ List.prefix_append ..
  have honce : m'.replaced.Nodup := by
    rcases hreplaced with heq | ⟨heq, hnew⟩
    · rw [heq]
      exact h.once
    · rw [heq]
      refine List.nodup_append.mpr ⟨h.once, by simp, fun j hj j' hj' hsame => ?_⟩
      rw [List.mem_singleton.mp hj'] at hsame
      exact hnew (hsame ▸ hj)
  have hcontents : ∀ j file got, (γ j).stage = .reading file got →
      m'.fs.contents file = m.fs.contents file := by
    intro j file got hstage
    have hholds := h.consistent.holds j
    rw [hstage] at hholds
    exact h.consistent.contents_settled hruns hmay hperform hholds.1
  refine ⟨hfact, hconsistent, h.grows.trans hgrows, honce, Nat.le_trans h.started hgrows.length_le,
    fun process hjob => ?_⟩
  have hsince := h.reads process hjob
  by_cases hk : k = i
  · subst hk
    rw [update_self]
    have hreads := h.consistent.reads_own hmay hperform h.started hsince
    refine hreads.mono hgrows fun file got hafter => ?_
    rcases Stage.of_after_reading hafter with ⟨got', hstage⟩ | ⟨name, rfl⟩
    · exact hcontents k file got' hstage
    · cases hperform
      rfl
  · rw [update_of_ne hk]
    exact hsince.mono hgrows (hcontents k)

/-- A thread whose program has not begun has not replaced the file, and a reader is idle. -/
theorem not_begun {job : Job} {d : Duty}
    (h : (job.program target).Follows (orderly target) (fun x d => d.Ends x) d) :
    d.stage ≠ .replaced ∧ ∀ process, job = .read process → d.stage = .idle := by
  cases job with
  | read process =>
    have hidle : d.stage = .idle := h.1.1
    exact ⟨by rw [hidle]; nofun, fun _ _ => hidle⟩
  | write process contents =>
    refine ⟨?_, nofun⟩
    cases hparent : target.parent with
    | none =>
      simp only [Job.program, writeAtomic, hparent] at h
      exact h
    | some parent =>
      cases hname : target.fileName.toStr with
      | none =>
        simp only [Job.program, writeAtomic, hparent, hname] at h
        exact h
      | some fileName =>
        simp only [Job.program, writeAtomic, hparent, hname] at h
        have hidle : d.stage = .idle := h.1
        rw [hidle]
        nofun

/-- The programs of the threads keep the order from any state on. -/
theorem Ordered.reaches {s t : Config StoreAct StoreAct.Response StoreResult Machine}
    (h : (storage target job).Reaches (NumbersLeft job) s t)
    (hstart : Outlined (orderly target) (fun x d => d.Ends x)
      (Ordered target job fs before first k) s) :
    Outlined (orderly target) (fun x d => d.Ends x) (Ordered target job fs before first k) t := by
  have hcovers : Covers (storage target job) (orderly target) (fun x d => d.Ends x)
      (fun _ d _ => d) := by
    refine ⟨nofun, fun {x d p} hends hagain => ?_⟩
    cases x with
    | reading file got =>
      cases hagain
      obtain ⟨job, stage⟩ := d
      obtain rfl : stage = .reading file got := hends
      exact follows_readMore
    | _ => cases hagain
  have hpreserves : Preserves (storage target job) (orderly target) (fun _ d _ => d)
      (NumbersLeft job) (Ordered target job fs before first k) := by
    constructor
    · exact fun hJ halive hok hpre hperform => hJ.act halive hok hpre hperform
    · intro m γ e m' hJ hdisturb
      have hfs : m'.fs = m.fs ∧ m'.replaced = m.replaced := disturb_files hdisturb
      refine ⟨hJ.consistent.disturb hdisturb, hfs.2 ▸ hJ.grows, hfs.2 ▸ hJ.once,
        hfs.2 ▸ hJ.started, fun process hjob =>
          (hJ.reads process hjob).mono (hfs.2 ▸ List.prefix_rfl) ?_⟩
      intro file got _
      rw [hfs.1]
  exact h.outline hcovers hpreserves hstart

/-- At the start of a run every thread is idle. -/
theorem ordered_start (target : Target) (job : ℕ → Job) (fs : FileSystem FileName) (k : ℕ) :
    Outlined (orderly target) (fun x d => d.Ends x) (Ordered target job fs [] 0 k)
      (storageStart target job fs) := by
  have hconsistent : Consistent target job fs (storageStart target job fs).world
      fun i => ⟨job i, .idle⟩ :=
    ⟨fun _ => rfl, fun _ => trivial, fun _ _ _ _ _ => nofun, fun _ _ => nofun, rfl,
      fun _ => ⟨nofun, nofun⟩⟩
  exact ⟨fun i => ⟨job i, .idle⟩, ⟨hconsistent, List.nil_prefix, List.nodup_nil, Nat.le_refl _,
    fun _ _ => trivial⟩, fun i => follows_program target (job i)⟩

/-- The order of replacements grows at its end. -/
theorem replaced_grows {s t : Config StoreAct StoreAct.Response StoreResult Machine}
    (hs : (storage target job).Reaches (NumbersLeft job) (storageStart target job fs) s)
    (ht : (storage target job).Reaches (NumbersLeft job) s t) :
    s.world.replaced <+: t.world.replaced := by
  obtain ⟨γ, hordered, hfollows⟩ := Ordered.reaches hs (ordered_start target job fs 0)
  have hsince : Ordered target job fs s.world.replaced 0 0 s.world γ :=
    { hordered with grows := List.prefix_rfl }
  obtain ⟨_, hordered', -⟩ := Ordered.reaches ht ⟨γ, hsince, hfollows⟩
  exact hordered'.grows

/-- What the order of replacements says of a call that begins in one state of a run and has
ended in another. -/
structure Linearized (target : Target) (job : ℕ → Job) (fs : FileSystem FileName) (k : ℕ)
    (s t : Config StoreAct StoreAct.Response StoreResult Machine) : Prop where
  /-- The order grows at its end. -/
  grows : s.world.replaced <+: t.world.replaced
  /-- No call is in it twice. -/
  once : t.world.replaced.Nodup
  /-- A read returns what the file held after a number of replacements, of which all that
  ended before it are some, and none that begins after it. -/
  read : ∀ process bytes, job k = .read process → t.thread k = .done (.read bytes) →
    WasLatest target job fs s.world.replaced.length t.world bytes
  /-- The calls in it are writes. -/
  writes : ∀ i ∈ t.world.replaced, ∃ process contents, job i = .write process contents
  /-- A write takes effect while it runs. -/
  wrote : t.thread k = .done (.wrote (.ok ())) →
    ∃ n, s.world.replaced.length ≤ n ∧ t.world.replaced[n]? = some k

/-- The calls of a run are linearized. -/
theorem linearized {s t : Config StoreAct StoreAct.Response StoreResult Machine}
    (hs : (storage target job).Reaches (NumbersLeft job) (storageStart target job fs) s)
    (ht : (storage target job).Reaches (NumbersLeft job) s t)
    (hbegins : s.thread k = (job k).program target) : Linearized target job fs k s t := by
  obtain ⟨γ, hordered, hfollows⟩ := Ordered.reaches hs (ordered_start target job fs k)
  have hthread := hfollows k
  rw [hbegins] at hthread
  obtain ⟨hnew, hidle⟩ := not_begun hthread
  have hsince : Ordered target job fs s.world.replaced s.world.replaced.length k s.world γ := by
    refine ⟨hordered.consistent, List.prefix_rfl, hordered.once, Nat.le_refl _,
      fun process hjob => ?_⟩
    rw [hidle process hjob]
    trivial
  obtain ⟨γ', hordered', hfollows'⟩ := Ordered.reaches ht ⟨γ, hsince, hfollows⟩
  have hends : ∀ {x}, t.thread k = .done x → (γ' k).Ends x := by
    intro x hdone
    have hthread := hfollows' k
    rwa [hdone] at hthread
  refine ⟨hordered'.grows, hordered'.once, fun process bytes hjob hdone => ?_, fun i hmem => ?_,
    fun hdone => ?_⟩
  · have hreads := hordered'.reads process hjob
    rw [show (γ' k).stage = .read bytes from hends hdone] at hreads
    exact hreads
  · have hholds := hordered'.consistent.holds i
    rw [(hordered'.consistent.replaced i).mp hmem] at hholds
    exact hholds
  · have hmem : k ∈ t.world.replaced := (hordered'.consistent.replaced k).mpr (hends hdone)
    obtain ⟨rest, hrest⟩ := hordered'.grows
    rw [← hrest] at hmem ⊢
    have hfresh : k ∉ s.world.replaced := fun hold =>
      hnew ((hordered.consistent.replaced k).mp hold)
    obtain ⟨n, hn⟩ := List.getElem?_of_mem ((List.mem_append.mp hmem).resolve_left hfresh)
    refine ⟨s.world.replaced.length + n, by omega, ?_⟩
    rw [List.getElem?_append_right (by omega), Nat.add_sub_cancel_left]
    exact hn

/-- **Linearizability.** As long as no process has counted `2 ^ 64` calls, whatever the
interleaving and whoever is killed: a write that returned replaced the file once, while it
ran; and a read returns the version that the file had at one moment while it ran. -/
theorem writeAtomic_linearizable (target : Target) (job : ℕ → Job) (fs : FileSystem FileName)
    {s t : Config StoreAct StoreAct.Response StoreResult Machine}
    (hs : (storage target job).Reaches (NumbersLeft job) (storageStart target job fs) s)
    (ht : (storage target job).Reaches (NumbersLeft job) s t) :
    ∀ k, s.thread k = (job k).program target → Linearized target job fs k s t :=
  fun _ hbegins => linearized hs ht hbegins

/-- The file is replaced between the `open` and the `read` of a reader. -/
def overtakenSteps : List (Move StoreChoice ProcessEvent) :=
  .disturb (.start 0 7) :: storeSteps 0 8 { count := 9 } ++
    .disturb (.start 1 8) :: .disturb (.start 2 9) :: storeSteps 2 1 {} ++
    storeSteps 1 8 { count := 9 } ++ storeSteps 2 1 { count := 9 } ++ [.loop 2] ++ storeSteps 2 1 {}

/-- The reader gets the version that it opened. -/
theorem writeAtomic_linearizable_overtaken :
    ∃ t, (storage demoTarget threeJobs).Reaches (NumbersLeft threeJobs)
      (storageStart demoTarget threeJobs emptyDirectory) t ∧
      t.thread 2 = .done (.read [0x61, 0x62]) ∧
      WasLatest demoTarget threeJobs emptyDirectory 0 t.world [0x61, 0x62] := by
  obtain ⟨t, hreach, hcheck⟩ := System.exists_reaches_of_exec (storage demoTarget threeJobs)
    (numbersLeft threeJobs) overtakenSteps (storageStart demoTarget threeJobs emptyDirectory)
    (hasRead 2 [0x61, 0x62]) (numbersLeft_sound threeJobs) (by decide +kernel)
  have hread := eq_of_hasRead hcheck
  have hlinearized := writeAtomic_linearizable demoTarget threeJobs emptyDirectory .refl hreach 2 rfl
  exact ⟨t, hreach, hread, hlinearized.read 2 _ rfl hread⟩

end IgnibyteBridge
