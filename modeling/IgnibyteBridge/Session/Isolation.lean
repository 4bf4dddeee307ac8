import IgnibyteBridge.Session.Capturing
import IgnibyteBridge.Session.Sections

/-!
# Output isolation

A capture thread outlives its child by up to two seconds, and its sinks are not
guarded by the generation. Its chunks stay out of a later run's logs and screen
only when it finishes them before that run starts and reads no more.
-/

namespace IgnibyteBridge

open Concurrency World

namespace World

/-- When an initial record is saved, no capture thread of the session has a chunk
in hand. -/
def NoChunk (w : World) (a : Act) (c : Choice) : Prop :=
  ∀ x ∈ a.saves, x.1 = .initial → c.ok = true → ∀ j ∈ w.files.holding, w.alive j = true →
    ∀ cap ∈ w.files.capture j, cap.name ≠ x.2.name

/-- A capture thread reads output only of the run that was initialized last. -/
def ReadsLast (w : World) (i : ℕ) (a : Act) (c : Choice) : Prop :=
  ∀ pty ∈ a.reads, c.ok = true → w.files.ptyOutput pty ≠ [] →
    ∀ cap ∈ w.files.capture i, (w.inits cap.name).getLast? = some cap.start

/-- Capture threads are done with a run's output when another run starts. -/
def Drained (w : World) (i : ℕ) (a : Act) (c : Choice) : Prop :=
  w.NoChunk a c ∧ w.ReadsLast i a c

instance (w : World) (a : Act) (c : Choice) : Decidable (w.NoChunk a c) :=
  inferInstanceAs (Decidable (∀ x ∈ a.saves, _))

instance (w : World) (i : ℕ) (a : Act) (c : Choice) : Decidable (w.ReadsLast i a c) :=
  inferInstanceAs (Decidable (∀ pty ∈ a.reads, _))

instance (w : World) (i : ℕ) (a : Act) (c : Choice) : Decidable (w.Drained i a c) :=
  inferInstanceAs (Decidable (_ ∧ _))

/-- A thread captures the output of the run of the session that was initialized last. -/
def CapturesLast (w : World) (i : ℕ) (n : String) : Prop :=
  ∃ cap, w.files.capture i = some cap ∧ cap.name = n ∧ (w.inits n).getLast? = some cap.start

instance (w : World) (i : ℕ) (n : String) : Decidable (w.CapturesLast i n) :=
  decidable_of_iff ((w.files.capture i).any (fun cap =>
    cap.name = n ∧ (w.inits n).getLast? = some cap.start) = true) <| by
    simp only [Option.any_eq_true, decide_eq_true_eq, CapturesLast]

/-- A log file lies at one session's path only, and a file that is yet to be made at none. -/
structure Filing (f : Files) : Prop where
  made : ∀ l n x, f.log l n = some x → x < f.nextInode
  apart : ∀ l l' n n' x, f.log l n = some x → f.log l' n' = some x → n = n'

/-- What a thread knows about the output of a session is true. -/
structure Sinks (w : World) (k : ℕ) (g : Sink) : Prop where
  own : g.own = true → w.owner k ≠ none
  capture : ∀ n, g.name = some n → ∃ cap, w.files.capture k = some cap ∧ cap.name = n
  files : ∀ x ∈ g.files, x < w.files.nextInode ∧ ∀ l n, w.files.log l n = some x → g.name = some n
  holding : g.holding = true → k ∈ w.files.holding ∧
    ∀ cap, w.files.capture k = some cap → (w.inits cap.name).getLast? = some cap.start

/-- Log files are where they belong, and threads know what they know. -/
structure Captured (w : World) (γ : ℕ → Sink) : Prop where
  sound : w.Sound
  filing : Filing w.files
  threads : Threads Sinks w γ

/-- A log file comes to one path, and only when it is made. -/
structure Grows (f f' : Files) : Prop where
  inode : f.nextInode ≤ f'.nextInode
  log : ∃ l₀ n₀, ∀ l n x, f'.log l n = some x →
    f.log l n = some x ∨ (x = f.nextInode ∧ f.nextInode < f'.nextInode ∧ l = l₀ ∧ n = n₀)

variable {w w' : World} {i : ℕ} {a : Act} {c : Choice} {r : a.Response}

/-- What does not change has grown. -/
theorem Grows.of_same {f f' : Files} (hlog : f'.log = f.log) (hinode : f.nextInode ≤ f'.nextInode) :
    Grows f f' :=
  ⟨hinode, .raw, "", fun _ _ _ hx => .inl (hlog ▸ hx)⟩

/-- Making a log gives it a new file, or keeps the one it has. -/
theorem grows_createLog (f : Files) (l : Log) (name : String) : Grows f (createLog f l name) := by
  unfold createLog
  split
  · exact .of_same rfl (Nat.le_refl _)
  · refine ⟨Nat.le_succ _, l, name, fun l' n x hx => ?_⟩
    by_cases hl : l' = l
    · subst hl
      by_cases hn : n = name
      · subst hn
        simp only [Function.update_self, Option.some.injEq] at hx
        exact .inr ⟨hx.symm, Nat.lt_succ_self _, rfl, rfl⟩
      · simp only [Function.update_self, Function.update_of_ne hn] at hx
        exact .inl hx
    · simp only [Function.update_of_ne hl] at hx
      exact .inl hx

/-- What an action on files does to the logs. -/
theorem performFile_grows {i : ℕ} {a : FileAct} {c : Choice} {f f' : Files} {r : a.Response}
    (h : performFile i w a c f = some (r, f')) : Grows f f' := by
  cases a
  case renameLog l name =>
    simp only [performFile] at h
    split at h <;> cases h
    · refine ⟨Nat.le_refl _, l, name, fun l' n x hx => .inl ?_⟩
      by_cases hl : l' = l
      · subst hl
        by_cases hn : n = name
        · subst hn
          simp [Function.update_self] at hx
        · simpa only [Function.update_self, Function.update_of_ne hn] using hx
      · simpa only [Function.update_of_ne hl] using hx
    · exact .of_same rfl (Nat.le_refl _)
  case createPrivateLog l name =>
    simp only [performFile] at h
    split at h <;> cases h
    · exact grows_createLog f l name
    · exact .of_same rfl (Nat.le_refl _)
  case openAppend l name =>
    simp only [performFile] at h
    split at h
    · split at h <;> cases h
      · exact .of_same rfl (Nat.le_refl _)
      · exact grows_createLog f l name
    · cases h
      exact .of_same rfl (Nat.le_refl _)
  all_goals
    simp only [performFile] at h
    (try split at h) <;> (try split at h) <;> cases h <;>
      first
      | exact .of_same rfl (Nat.le_refl _)
      | exact .of_same rfl (Nat.le_succ _)

/-- Actions on processes change no log and no chunk in hand. -/
theorem performProcess_log {i : ℕ} {a : ProcessAct} {c : Choice} {r : a.Response}
    (h : performProcess i a c w = some (r, w')) :
    w'.files.log = w.files.log ∧ w'.files.nextInode = w.files.nextInode ∧
      w'.files.holding = w.files.holding := by
  cases a <;> simp only [performProcess] at h <;> (try split at h) <;> (try split at h) <;>
    cases h <;> exact ⟨rfl, rfl, rfl⟩

/-- What any action does to the logs. -/
theorem perform_grows (h : perform i a c w = some (r, w')) : Grows w.files w'.files := by
  cases a with
  | disk a =>
    rw [performDisk_files h]
    exact .of_same rfl (Nat.le_refl _)
  | process a =>
    obtain ⟨hlog, hinode, -⟩ := performProcess_log h
    exact .of_same hlog hinode.ge
  | file a =>
    obtain ⟨f, hperform, rfl⟩ := perform_file h
    exact performFile_grows hperform

/-- Two logs never share a file. -/
theorem Filing.act {f f' : Files} (hJ : Filing f) (hgrows : Grows f f') : Filing f' := by
  obtain ⟨hinode, l₀, n₀, hlog⟩ := hgrows
  refine ⟨fun l n x hx => ?_, fun l l' n n' x hx hx' => ?_⟩
  · rcases hlog l n x hx with hold | ⟨rfl, hlt, -⟩
    · exact Nat.lt_of_lt_of_le (hJ.made l n x hold) hinode
    · exact hlt
  · rcases hlog l n x hx, hlog l' n' x hx' with ⟨hold | ⟨hnew, -, -, hn⟩, hold' | ⟨hnew', -, -, hn'⟩⟩
    · exact hJ.apart l l' n n' x hold hold'
    · exact absurd (hJ.made l n x hold) (by omega)
    · exact absurd (hJ.made l' n' x hold') (by omega)
    · rw [hn, hn']

/-- A thread that was started captures what it captured before. -/
theorem perform_capture (h : perform i a c w = some (r, w')) {k : ℕ} (hk : w.life k ≠ .unborn) :
    w'.files.capture k = w.files.capture k := by
  cases a with
  | disk a => rw [performDisk_files h]
  | file a =>
    obtain ⟨f, hperform, rfl⟩ := perform_file h
    cases a <;> simp only [performFile] at hperform <;> (try split at hperform) <;>
      (try split at hperform) <;> cases hperform <;>
      first | rfl | (unfold createLog; split <;> rfl)
  | process a =>
    cases a
    case spawnCapture name pty rows cols =>
      simp only [perform, performProcess] at h
      split at h <;> cases h
      next hunborn =>
      refine Function.update_of_ne ?_ ..
      rintro rfl
      exact hk hunborn
    all_goals
      simp only [perform, performProcess] at h
      (try split at h) <;> (try split at h) <;> cases h <;> rfl

/-- A chunk is in hand until the thread that read it rewrites the screen. -/
theorem perform_holding (h : perform i a c w = some (r, w')) {k : ℕ} (hk : k ∈ w.files.holding)
    (hkeep : k ≠ i ∨ ∀ n text, a ≠ .file (.writeScreen n text)) : k ∈ w'.files.holding := by
  cases a with
  | disk a => rwa [performDisk_files h]
  | process a => rwa [(performProcess_log h).2.2]
  | file a =>
    obtain ⟨f, hperform, rfl⟩ := perform_file h
    cases a
    case writeScreen n text =>
      cases hperform
      exact List.mem_filter.mpr ⟨hk, by simpa using hkeep⟩
    case readPty pty =>
      simp only [performFile] at hperform
      split at hperform <;> cases hperform
      · dsimp only
        split
        · exact hk
        · exact List.mem_cons_of_mem _ hk
      · exact hk
    all_goals
      simp only [performFile] at hperform
      (try split at hperform) <;> (try split at hperform) <;> cases hperform <;>
        first | exact hk | (unfold createLog; split <;> exact hk)

/-- No run of the session starts while a capture thread has a chunk in hand. -/
theorem NoChunk.inits (hok : w.NoChunk a c) (h : perform i a c w = some (r, w')) {k : ℕ}
    {cap : Capture} (halive : w.alive k = true) (hk : k ∈ w.files.holding)
    (hcap : w.files.capture k = some cap) : w'.inits cap.name = w.inits cap.name := by
  rcases records_cases h with ⟨-, -, hinits⟩ | ⟨site, m, rfl, hc, rfl⟩
  · rw [hinits]
  · cases site
    case initial =>
      exact Function.update_of_ne (hok _ rfl rfl hc k hk halive cap hcap) ..
    all_goals rfl

/-- What a thread knows stays true, whoever acts. -/
theorem Sinks.act {k : ℕ} {g : Sink} (hT : Sinks w k g) (hk : w.alive k = true)
    (hok : w.NoChunk a c) (hsound : w.Sound) (h : perform i a c w = some (r, w'))
    (hkeep : g.holding = true → k ≠ i ∨ ∀ n text, a ≠ .file (.writeScreen n text)) :
    Sinks w' k g := by
  have hcapture := perform_capture h (alive_ne_unborn hk)
  obtain ⟨hinode, l₀, n₀, hlog⟩ := perform_grows h
  refine ⟨fun hown => ?_, fun n hn => ?_, fun x hx => ?_, fun hholding => ?_⟩
  · obtain ⟨o, ho⟩ := Option.ne_none_iff_exists'.mp (hT.own hown)
    obtain ⟨o', ho', -⟩ := (perform_ages hsound h).owner k o ho
    simp [ho']
  · rw [hcapture]
    exact hT.capture n hn
  · obtain ⟨hlt, hpath⟩ := hT.files x hx
    refine ⟨Nat.lt_of_lt_of_le hlt hinode, fun l n hn => ?_⟩
    rcases hlog l n x hn with hold | ⟨rfl, -⟩
    · exact hpath l n hold
    · exact absurd hlt (Nat.lt_irrefl _)
  · obtain ⟨hmem, hlast⟩ := hT.holding hholding
    refine ⟨perform_holding h hmem (hkeep hholding), fun cap hcap => ?_⟩
    rw [hcapture] at hcap
    rw [hok.inits h hk hmem hcap]
    exact hlast cap hcap

/-- A log that is opened is the file that the call returns. -/
theorem openAppend_log {l : Log} {name : String} {file : ℕ} {f f' : Files}
    (h : performFile i w (.openAppend l name) c f = some (some file, f')) :
    f'.log l name = some file := by
  simp only [performFile] at h
  split at h
  · split at h <;> cases h
    · assumption
    · next hnone => simp [createLog, hnone]
  · cases h

/-- A capture thread opens a log file of its own session. -/
theorem openAppend_files {g : Sink} {l : Log} {name : String} {file : ℕ} {f : Files}
    (hfiling : Filing w.files) (hname : g.name = some name)
    (h : performFile i w (.openAppend l name) c w.files = some (some file, f)) :
    file < f.nextInode ∧ ∀ l n, f.log l n = some file → g.name = some n := by
  have hfiled : Filing f := hfiling.act (performFile_grows h)
  have hfile := openAppend_log h
  refine ⟨hfiled.made l name file hfile, fun l' n hn => ?_⟩
  rw [hname, hfiled.apart l l' name n file hfile hn]

/-- A chunk that a capture thread reads is of the run that was initialized last. -/
theorem readPty_last {pty : ℕ} {byte : UInt8} {bytes : List UInt8} {f : Files}
    (hok : w.ReadsLast i (.file (.readPty pty)) c)
    (h : performFile i w (.readPty pty) c w.files = some (some (byte :: bytes), f)) :
    i ∈ f.holding ∧
      ∀ cap, w.files.capture i = some cap → (w.inits cap.name).getLast? = some cap.start := by
  simp only [performFile] at h
  split at h
  · next hc =>
    simp only [Option.some.injEq, Prod.mk.injEq] at h
    obtain ⟨hbytes, rfl⟩ := h
    constructor
    · rw [hbytes]
      exact List.mem_cons_self
    · refine hok pty rfl hc fun hempty => ?_
      simp [hempty] at hbytes
  · cases h

/-- The thread that acted knows what is true afterwards. -/
theorem Sinks.post {g : Sink} (hT : Sinks w i g) (hi : w.alive i = true) (hfiling : Filing w.files)
    (hok : w.Drained i a c) (hsound : w.Sound) (hpre : Sink.pre a g)
    (h : perform i a c w = some (r, w')) : Sinks w' i (Sink.post a g r) := by
  have hkeep := hT.act hi hok.1 hsound h
  cases a with
  | disk a => exact hkeep fun _ => .inr fun _ _ ha => by cases ha
  | process a => exact hkeep fun _ => .inr fun _ _ ha => by cases ha
  | file a =>
    cases a
    case openAppend l name =>
      have hkeep := hkeep fun _ => .inr fun _ _ ha => by cases ha
      cases r with
      | none => exact hkeep
      | some file =>
        obtain ⟨f, hperform, rfl⟩ := perform_file h
        refine ⟨hkeep.own, hkeep.capture, fun x hx => ?_, hkeep.holding⟩
        rcases List.mem_cons.mp hx with rfl | hx
        · exact openAppend_files hfiling hpre hperform
        · exact hkeep.files x hx
    case readPty pty =>
      have hkeep := hkeep fun _ => .inr fun _ _ ha => by cases ha
      match r with
      | none => exact hkeep
      | some [] => exact hkeep
      | some (byte :: bytes) =>
        have hcapture := perform_capture h (alive_ne_unborn hi)
        obtain ⟨f, hperform, rfl⟩ := perform_file h
        obtain ⟨hmem, hlast⟩ := readPty_last hok.2 hperform
        exact ⟨hkeep.own, hkeep.capture, hkeep.files,
          fun _ => ⟨hmem, fun cap hcap => hlast cap (hcapture.symm.trans hcap)⟩⟩
    case writeScreen n text =>
      have hdone : Sinks w i { g with holding := false } :=
        ⟨hT.own, hT.capture, hT.files, fun hholding => by cases hholding⟩
      exact hdone.act hi hok.1 hsound h fun hholding => by cases hholding
    all_goals exact hkeep fun _ => .inr fun _ _ ha => by cases ha

/-- An owner has a run, and the capture thread that it starts captures it. -/
theorem sinks_fresh {k : ℕ} {g : Sink} {env : Env} {p : Prog ThreadResult} (hT : Sinks w i g)
    (hpre : Sink.pre a g) (h : perform i a c w = some (r, w'))
    (hlaunched : launched env a r = some (k, p)) : Sinks w' k (Sink.fresh a g r) := by
  have hsink : ∀ g' : Sink, g'.files = [] → g'.holding = false →
      (g'.own = true → w'.owner k ≠ none) →
      (∀ n, g'.name = some n → ∃ cap, w'.files.capture k = some cap ∧ cap.name = n) →
      Sinks w' k g' := by
    intro g' hfiles hholding hown hname
    refine ⟨hown, hname, fun x hx => ?_, fun hh => ?_⟩
    · rw [hfiles] at hx
      cases hx
    · rw [hholding] at hh
      cases hh
  unfold launched at hlaunched
  split at hlaunched <;> cases hlaunched
  · refine hsink _ rfl rfl (fun _ => ?_) fun n hn => by cases hn
    simp only [perform, performProcess] at h
    split at h
    · split at h <;> cases h
      simp
    · cases h
  · refine hsink _ rfl rfl (fun _ => ?_) fun n hn => by cases hn
    simp only [perform, performProcess] at h
    split at h <;> cases h
    simp
  · refine hsink _ rfl rfl (fun hown => by cases hown) fun n hn => ?_
    cases hn
    obtain ⟨o, ho⟩ := Option.ne_none_iff_exists'.mp (hT.own hpre)
    simp only [perform, performProcess] at h
    split at h <;> cases h
    exact ⟨⟨_, o.start⟩, (Function.update_self ..).trans (by rw [ho]; rfl), rfl⟩
  · exact hsink _ rfl rfl (fun hown => by cases hown) fun n hn => by cases hn

/-- A thread that holds a chunk captures the last run. -/
theorem Captured.act (env : Env) {γ : ℕ → Sink} (hJ : Captured w γ) (hok : w.Drained i a c)
    (hi : w.alive i = true) (hpre : Sink.pre a (γ i))
    (h : perform i a c w = some (r, w')) :
    Captured w' (ghosts (bridge env) Sink.discipline Sink.fresh γ i a r) where
  sound := perform_sound hJ.sound h
  filing := hJ.filing.act (perform_grows h)
  threads := threads_step env hJ.sound hi h hJ.threads
    (fun hT => hT.post hi hJ.filing hok hJ.sound hpre h)
    (fun _ hki hk hT => hT.act hk hok.1 hJ.sound h fun _ => .inl hki)
    fun _ _ hlaunched => sinks_fresh (hJ.threads i hi) hpre h hlaunched

/-- No disturbance changes that. -/
theorem Captured.disturb {γ : ℕ → Sink} {e : Disturbance} (hJ : Captured w γ)
    (h : w.disturb e = some w') : Captured w' γ := by
  obtain ⟨hdisk, howner⟩ := disturb_sameDisk h
  have hfiles : w'.files.log = w.files.log ∧ w'.files.nextInode = w.files.nextInode ∧
      w'.files.capture = w.files.capture ∧ w'.files.holding = w.files.holding := by
    cases e <;> simp only [World.disturb] at h <;> (try split at h) <;> cases h <;>
      exact ⟨rfl, rfl, rfl, rfl⟩
  obtain ⟨hlog, hinode, hcapture, hholding⟩ := hfiles
  refine ⟨disturb_sound hJ.sound h, ?_, ?_⟩
  · exact hJ.filing.act (.of_same hlog hinode.ge)
  · refine threads_disturb h hJ.threads fun k _ hT => ⟨?_, ?_, ?_, ?_⟩
    · rw [howner]
      exact hT.own
    · rw [hcapture]
      exact hT.capture
    · rw [hlog, hinode]
      exact hT.files
    · rw [hholding, hcapture, hdisk.inits]
      exact hT.holding

/-- At the beginning nobody captures anything. -/
theorem captured_fresh (requests : ℕ → Option Request) :
    Captured (World.fresh requests) fun _ => {} where
  sound := (excluded_fresh requests).sound
  filing := ⟨fun l n x hx => (by cases hx), fun l l' n n' x hx => by cases hx⟩
  threads k _ := ⟨fun h => (by cases h), fun n h => (by cases h), fun x h => (by cases h),
    fun h => by cases h⟩

end World

/-- **Output isolation.** When capture threads are done with a run's output before
another run of the session starts, whoever appends to the file at a session's log
path, or replaces its screen, captures the run that was initialized last. -/
theorem output_isolated (env : Env) (requests : ℕ → Option Request)
    {s : Config Act Act.Response ThreadResult World}
    (hreach : (bridge env).Reaches Drained (boot env requests) s) {i : ℕ}
    (hi : s.world.alive i = true) :
    (∀ l n file bytes, (s.thread i).head = some (.file (.append file bytes)) →
      s.world.files.log l n = some file → s.world.CapturesLast i n) ∧
    ∀ n text, (s.thread i).head = some (.file (.writeScreen n text)) →
      s.world.CapturesLast i n := by
  obtain ⟨γ, hJ, hfollows⟩ := System.Reaches.outline (Sink.covers env)
    ⟨fun hJ halive hok hpre hperform => ⟨trivial, hJ.act env hok halive hpre hperform⟩,
      fun hJ hdisturb => hJ.disturb hdisturb⟩
    hreach ⟨_, captured_fresh requests, Sink.follows_boot env requests⟩
  have hT := hJ.threads i hi
  -- A thread with a chunk in hand captures the last run of its own session.
  have hlast : ∀ n, (γ i).holding = true → (γ i).name = some n → s.world.CapturesLast i n := by
    intro n hholding hname
    obtain ⟨cap, hcap, rfl⟩ := hT.capture n hname
    exact ⟨cap, hcap, rfl, (hT.holding hholding).2 cap hcap⟩
  constructor
  · intro l n file bytes hhead hfile
    obtain ⟨hholding, hmem⟩ := (hfollows i).pre_head hhead
    exact hlast n hholding ((hT.files file hmem).2 l n hfile)
  · intro n text hhead
    obtain ⟨hholding, hname⟩ := (hfollows i).pre_head hhead
    exact hlast n hholding hname

/-- A thread that is about to append to the raw log of the session "demo". -/
def appendsRaw (s : Config Act Act.Response ThreadResult World) (i : ℕ) : Bool :=
  match (s.thread i).head with
  | some (.file (.append file bytes)) =>
    bytes ≠ [] && s.world.files.log .raw "demo" = some file
  | _ => false

/-- The test finds an append to the raw log. -/
theorem head_of_appendsRaw {s : Config Act Act.Response ThreadResult World} {i : ℕ}
    (h : appendsRaw s i = true) : ∃ file bytes,
      (s.thread i).head = some (.file (.append file bytes)) ∧ bytes ≠ [] ∧
      s.world.files.log .raw "demo" = some file := by
  unfold appendsRaw at h
  split at h
  · next file bytes hhead =>
    obtain ⟨hbytes, hfile⟩ := (Bool.and_eq_true _ _).mp h
    exact ⟨file, bytes, hhead, of_decide_eq_true hbytes, of_decide_eq_true hfile⟩
  · cases h

/-- A run prints and ends, the session is started again, and the first chunk of the new
run's output goes to its raw log. -/
theorem output_isolated_restarted :
    ∃ s : Config Act Act.Response ThreadResult World,
      s.world.inits "demo" = [0, 1] ∧ s.world.files.capture 3 = some ⟨"demo", 0⟩ ∧
      appendsRaw s 6 = true ∧ s.world.CapturesLast 6 "demo" := by
  obtain ⟨s, hreach, hs⟩ := System.exists_reaches_of_exec (bridge plainEnv)
    (fun w i a c => Drained w i a c)
    (steps 0 13 ++ [.run 0 { thread := 2 }] ++ steps 2 2 ++
      [.run 2 { pid := 7, startTime := 100 }] ++ steps 2 12 ++
      [.run 2 { thread := 3 }, .run 2 { thread := 4 }] ++ steps 0 3 ++ steps 3 2 ++
      [.disturb (.print 2 [97]), .loop 3] ++ steps 3 6 ++
      [.disturb (.processDies 7), .run 2 { error := "exited" }] ++ steps 2 1 ++ [.loop 4] ++
      steps 4 4 ++ steps 2 3 ++ [.loop 3] ++ steps 3 2 ++ steps 2 6 ++
      steps 1 16 ++ [.run 1 { thread := 5 }] ++ steps 5 2 ++
      [.run 5 { pid := 8, startTime := 101 }] ++ steps 5 12 ++ [.run 5 { thread := 6 }] ++
      steps 6 2 ++ [.disturb (.print 5 [98]), .loop 6] ++ steps 6 3)
    (boot plainEnv (served [startDemo true, startDemo true]))
    (fun s => s.world.inits "demo" = [0, 1] && s.world.files.capture 3 = some ⟨"demo", 0⟩ &&
      s.world.alive 6 && appendsRaw s 6)
    (fun _ _ _ _ h => of_decide_eq_true h) (by decide +kernel)
  simp only [Bool.and_eq_true, decide_eq_true_eq] at hs
  obtain ⟨⟨⟨hinits, hcapture⟩, halive⟩, happends⟩ := hs
  obtain ⟨file, bytes, hhead, -, hfile⟩ := head_of_appendsRaw happends
  exact ⟨s, hinits, hcapture, happends,
    (output_isolated plainEnv _ hreach halive).1 .raw "demo" file bytes hhead hfile⟩

/-- The child of a run exits, the session is started again with its logs still
empty, a descendant of the child prints, and the capture thread of the first run
writes that to the raw log of the second. -/
theorem output_strays :
    ∃ (s : Config Act Act.Response ThreadResult World) (file : ℕ) (bytes : List UInt8),
      (bridge plainEnv).Reaches (fun _ _ _ _ => True)
        (boot plainEnv (served [startDemo true, startDemo true])) s ∧
      s.world.alive 4 = true ∧ (s.thread 4).head = some (.file (.append file bytes)) ∧
      bytes ≠ [] ∧ s.world.files.log .raw "demo" = some file ∧ s.world.inits "demo" = [0, 1] ∧
      s.world.files.capture 4 = some ⟨"demo", 0⟩ ∧ ¬s.world.CapturesLast 4 "demo" := by
  obtain ⟨s, hreach, hs⟩ := System.exists_reaches_of_exec (bridge plainEnv) System.unrestricted
    (steps 0 13 ++ [.run 0 { thread := 2 }] ++ steps 2 2 ++
      [.run 2 { pid := 7, startTime := 100 }] ++ steps 2 12 ++ [.run 2 { thread := 4 }] ++
      steps 4 2 ++ steps 0 3 ++ [.disturb (.processDies 7)] ++ steps 1 16 ++
      [.disturb (.print 2 [97]), .loop 4] ++ steps 4 3)
    (boot plainEnv (served [startDemo true, startDemo true]))
    (fun s => s.world.alive 4 && appendsRaw s 4 && s.world.inits "demo" = [0, 1] &&
      s.world.files.capture 4 = some ⟨"demo", 0⟩ && !s.world.CapturesLast 4 "demo")
    (fun _ _ _ _ _ => trivial) (by decide +kernel)
  simp only [Bool.and_eq_true, Bool.not_eq_true', decide_eq_false_iff_not] at hs
  obtain ⟨⟨⟨⟨halive, happends⟩, hinits⟩, hcapture⟩, hstrays⟩ := hs
  obtain ⟨file, bytes, hhead, hbytes, hfile⟩ := head_of_appendsRaw happends
  exact ⟨s, file, bytes, hreach, halive, hhead, hbytes, hfile, of_decide_eq_true hinits,
    of_decide_eq_true hcapture, hstrays⟩

end IgnibyteBridge
