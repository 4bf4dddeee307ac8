import IgnibyteBridge.Session.Generations
import IgnibyteBridge.Session.Plumbing

/-!
# FIFOs through a run

Only a start replaces the FIFO of a session. So in a session that one call starts,
everyone who opens the FIFO opens the same one, and its owner is the only one.
-/

namespace IgnibyteBridge

open Concurrency

namespace World

/-- A session is started by one call. -/
def StartedBy (n : String) (start : ℕ) (i : ℕ) (a : Act) : Prop := a.startLocks = some n → i = start

/-- Every start of a session is the same thread's. -/
def Sole (n : String) (start : ℕ) (γ : ℕ → Knowledge) : Prop :=
  ∀ k st, (γ k).start = some st → st.name = n → k = start

/-- One thread owns the runs of a session. -/
def OneOwner (n : String) (w : World) : Prop :=
  ∀ k k' o o', w.owner k = some o → w.owner k' = some o' → o.name = n → o'.name = n → k = k'

/-- What a step of a session that one call starts can rely on. -/
structure Alone (n : String) (w : World) (a : Act) : Prop where
  inits : ∀ m, w.metadata m = none ↔ w.inits m = []
  resets : a.resets = some n → w.inits n = []
  owner : OneOwner n w

variable {w w' : World} {n : String} {start i : ℕ} {a : Act} {c : Choice} {r : a.Response}

section Sole

variable {γ : ℕ → Knowledge}

/-- Another start of the session would break the assumption. -/
theorem Sole.act (env : Env) (hJ : Sole n start γ) (hregistered : Registered w γ)
    (hi : w.alive i = true) (hok : StartedBy n start i a) (h : perform i a c w = some (r, w')) :
    Sole n start (ghosts (bridge env) Knowledge.protocol Knowledge.fresh γ i a r) := by
  intro k st hst hname
  by_cases hk : k = i
  · subst hk
    rw [ghosts_self env γ hi h] at hst
    cases hload : a.loads with
    | some m =>
      obtain rfl := eq_of_loads hload
      obtain ⟨st₀, hst₀, hname₀, -⟩ := start_load_keeps hst
      exact hJ k st₀ hst₀ (hname₀.symm.trans hname)
    | none =>
      rcases post_start_unread hload hst with ⟨hlock, -⟩ | ⟨st₀, hst₀, hname₀, -⟩
      · exact hok (hname ▸ hlock)
      · exact hJ k st₀ hst₀ (hname₀.symm.trans hname)
  · rw [hregistered.ghosts_start h hk] at hst
    exact hJ k st hst hname

/-- A session that is started by one call has one owner at most. -/
theorem Sole.oneOwner (hJ : Sole n start γ) (hregistered : Registered w γ) : OneOwner n w := by
  intro k k' o o' ho ho' hname hname'
  obtain ⟨st, hst, hst', -⟩ := hregistered.owner k o ho
  obtain ⟨st₁, hst₁, hst₁', -⟩ := hregistered.owner k' o' ho'
  refine hregistered.unique k k' o o' ho ho' ?_
  rw [hJ o.start st hst (hst'.trans hname), hJ o'.start st₁ hst₁ (hst₁'.trans hname')]

/-- A start replaces files only before it saves its initial record. -/
theorem Sole.alone (hJ : Sole n start γ) (hexcluded : Excluded w γ) (hregistered : Registered w γ)
    (hpre : Knowledge.pre a (γ i)) : w.Alone n a where
  inits := hexcluded.filed.inits
  owner := hJ.oneOwner hregistered
  resets hreset := by
    obtain ⟨st, loaded, hst, -, hname, -, huninitialized, -⟩ :=
      Knowledge.mayReset_of_resets hpre hreset
    refine List.eq_nil_iff_forall_not_mem.mpr fun j hj => ?_
    obtain ⟨st', hst', hname', hinitialized⟩ := (hregistered.inits n j).mp hj
    rw [hJ j st' hst' hname', ← hJ i st hst hname, hst] at hst'
    cases hst'
    exact hinitialized huninitialized

/-- In every run a start replaces files only before it saves its initial record. -/
theorem outlined_sole {env : Env} {requests : ℕ → Option Request}
    {s : Config Act Act.Response ThreadResult World}
    (h : (bridge env).Reaches (fun _ i a _ => StartedBy n start i a) (boot env requests) s) :
    Outlined Knowledge.protocol Knowledge.Finished
      (fun w γ => Excluded w γ ∧ Registered w γ ∧ Sole n start γ) s :=
  registered_of_reaches (X := fun _ γ => Sole n start γ)
    (fun _ hregistered hJ hi hok _ hperform => hJ.act env hregistered hi hok hperform)
    (fun hJ _ => hJ) (fun k st hst => by cases hst) h

/-- Every step of a session that one call starts can rely on being alone. -/
theorem alone_of_reaches {env : Env} {requests : ℕ → Option Request}
    {s : Config Act Act.Response ThreadResult World}
    (h : (bridge env).Reaches (fun _ i a _ => StartedBy n start i a) (boot env requests) s) :
    (bridge env).Reaches (fun w _ a _ => w.Alone n a) (boot env requests) s ∧
      OneOwner n s.world := by
  constructor
  · refine (h.licensed fun _ => outlined_sole).mono ?_
    rintro w i a c ⟨-, γ, ⟨hexcluded, hregistered, hsole⟩, hpre⟩
    exact hsole.alone hexcluded hregistered hpre
  · obtain ⟨γ, ⟨-, hregistered, hsole⟩, -⟩ := outlined_sole h
    exact hsole.oneOwner hregistered

end Sole

/-! ## What a step does to FIFOs -/

/-- Paths that lead to FIFOs before and after an action. -/
structure Relinks (f : Files) (a : Act) (f' : Files) : Prop where
  inode : f.nextInode ≤ f'.nextInode
  kept : ∀ m, a.resets ≠ some m → f'.fifo m = f.fifo m
  made : ∀ m x, f'.fifo m = some x →
    f.fifo m = some x ∨ (x = f.nextInode ∧ f.nextInode < f'.nextInode ∧ a.resets = some m)

/-- Nothing is linked anew. -/
theorem Relinks.of_same {f f' : Files} (hinode : f.nextInode ≤ f'.nextInode)
    (hfifo : f'.fifo = f.fifo) : Relinks f a f' :=
  ⟨hinode, fun _ _ => by rw [hfifo], fun m x hx => .inl (hfifo ▸ hx)⟩

/-- Making a log links no FIFO. -/
theorem createLog_fifo (f : Files) (l : Log) (name : String) :
    (createLog f l name).fifo = f.fifo := by
  unfold createLog
  split <;> rfl

/-- Making a log uses inodes up, if any. -/
theorem createLog_inode (f : Files) (l : Log) (name : String) :
    f.nextInode ≤ (createLog f l name).nextInode := by
  unfold createLog
  split
  · exact Nat.le_refl _
  · exact Nat.le_succ _

/-- What an action on files does to the paths of FIFOs. -/
theorem performFile_relinks {i : ℕ} {a : FileAct} {c : Choice} {f f' : Files} {r : a.Response}
    (h : performFile i w a c f = some (r, f')) : Relinks f (.file a) f' := by
  cases a
  case removeFifo name =>
    simp only [performFile] at h
    split at h <;> cases h
    · refine ⟨Nat.le_refl _, fun m hm => Function.update_of_ne ?_ .., fun m x hx => .inl ?_⟩
      · rintro rfl
        exact hm rfl
      · by_cases hm : m = name
        · subst hm
          simp at hx
        · simpa only [Function.update_of_ne hm] using hx
    · exact .of_same (Nat.le_refl _) rfl
  case mkfifo name =>
    simp only [performFile] at h
    split at h <;> cases h
    · refine ⟨Nat.le_succ _, fun m hm => Function.update_of_ne ?_ .., fun m x hx => ?_⟩
      · rintro rfl
        exact hm rfl
      · by_cases hm : m = name
        · subst hm
          simp only [Function.update_self, Option.some.injEq] at hx
          exact .inr ⟨hx.symm, Nat.lt_succ_self _, rfl⟩
        · simp only [Function.update_of_ne hm] at hx
          exact .inl hx
    · exact .of_same (Nat.le_refl _) rfl
  case createPrivateLog l name =>
    simp only [performFile] at h
    split at h <;> cases h
    · exact .of_same (createLog_inode f l name) (createLog_fifo f l name)
    · exact .of_same (Nat.le_refl _) rfl
  case openAppend l name =>
    simp only [performFile] at h
    split at h
    · split at h <;> cases h
      · exact .of_same (Nat.le_refl _) rfl
      · exact .of_same (createLog_inode f l name) (createLog_fifo f l name)
    · cases h
      exact .of_same (Nat.le_refl _) rfl
  all_goals
    simp only [performFile] at h
    (try split at h) <;> (try split at h) <;> cases h <;> exact .of_same (Nat.le_refl _) rfl

/-- Two stages of the files between which nothing was forwarded. -/
structure SameFlow (f f' : Files) : Prop where
  pipe : f'.pipe = f.pipe
  pieces : f'.pieces = f.pieces
  inHand : f'.inHand = f.inHand
  ptyInput : f'.ptyInput = f.ptyInput

/-- What does not change is as it was. -/
theorem SameFlow.refl (f : Files) : SameFlow f f := ⟨rfl, rfl, rfl, rfl⟩

/-- Actions that move input. -/
def moves : Act → Bool
  | .file (.writeFifo ..) | .file (.readFifo _) | .file (.writePty ..) => true
  | .file (.dropWriter ..) => true
  | _ => false

/-- Actions on processes move no bytes. -/
theorem performProcess_flow {i : ℕ} {a : ProcessAct} {c : Choice} {r : a.Response}
    (h : performProcess i a c w = some (r, w')) :
    w'.files.nextInode = w.files.nextInode ∧ w'.files.fifo = w.files.fifo ∧
      SameFlow w.files w'.files := by
  cases a <;> simp only [performProcess] at h <;> (try split at h) <;> (try split at h) <;>
    cases h <;> exact ⟨rfl, rfl, rfl, rfl, rfl, rfl⟩

/-- What any action does to the paths of FIFOs. -/
theorem perform_relinks (h : perform i a c w = some (r, w')) : Relinks w.files a w'.files := by
  cases a with
  | disk a =>
    rw [performDisk_files h]
    exact .of_same (Nat.le_refl _) rfl
  | process a =>
    obtain ⟨hinode, hfifo, -⟩ := performProcess_flow h
    exact .of_same hinode.ge hfifo
  | file a =>
    obtain ⟨f, hperform, rfl⟩ := perform_file h
    exact performFile_relinks hperform

/-- Most actions move no bytes. -/
theorem perform_sameFlow (h : perform i a c w = some (r, w')) (ha : moves a = false) :
    SameFlow w.files w'.files := by
  cases a with
  | disk a =>
    rw [performDisk_files h]
    exact .refl _
  | process a => exact (performProcess_flow h).2.2
  | file a =>
    obtain ⟨f, hperform, rfl⟩ := perform_file h
    cases a
    case writeFifo fifo bytes => cases ha
    case readFifo fifo => cases ha
    case writePty pty bytes => cases ha
    case dropWriter pty farewell => cases ha
    all_goals
      simp only [performFile] at hperform
      (try split at hperform) <;> (try split at hperform) <;> cases hperform <;>
        first
        | exact ⟨rfl, rfl, rfl, rfl⟩
        | (unfold createLog; split <;> exact ⟨rfl, rfl, rfl, rfl⟩)

/-- A piece of a message goes to the end of a FIFO. -/
theorem performFile_write {fifo : ℕ} {bytes : List UInt8} {count : ℕ} {f f' : Files}
    (h : performFile i w (.writeFifo fifo bytes) c f = some (some count, f')) :
    (bytes.length ≤ pipeBuf → count = bytes.length) ∧
      f' = { f with
        pipe := Function.update f.pipe fifo (f.pipe fifo ++ bytes.take count)
        pieces := f.pieces ++ [⟨fifo, i, bytes.take count⟩] } := by
  simp only [performFile] at h
  split at h
  · split at h
    · simp only [Option.some.injEq, Prod.mk.injEq] at h
      obtain ⟨rfl, rfl⟩ := h
      exact ⟨fun hsmall => if_pos hsmall, rfl⟩
    · cases h
  · cases h

/-- A FIFO that is written to has a live reader. -/
theorem performFile_write_reader {fifo : ℕ} {bytes : List UInt8} {count : ℕ} {f f' : Files}
    (h : performFile i w (.writeFifo fifo bytes) c f = some (some count, f')) :
    w.hasReader fifo = true := by
  simp only [performFile] at h
  split at h
  · split at h
    · assumption
    · cases h
  · cases h

/-- A write that fails moves no bytes. -/
theorem performFile_write_none {fifo : ℕ} {bytes : List UInt8} {f f' : Files}
    (h : performFile i w (.writeFifo fifo bytes) c f = some (none, f')) : f' = f := by
  simp only [performFile] at h
  split at h
  · split at h <;> cases h
  · cases h
    rfl

/-- A forwarder takes bytes from the front of a FIFO. -/
theorem performFile_read {fifo : ℕ} {bytes : List UInt8} {f f' : Files}
    (h : performFile i w (.readFifo fifo) c f = some (some bytes, f')) :
    ∃ left, f.pipe fifo = bytes ++ left ∧ f' = { f with
      pipe := Function.update f.pipe fifo left
      inHand := Function.update f.inHand i bytes } := by
  simp only [performFile] at h
  split at h
  · simp only [Option.some.injEq, Prod.mk.injEq] at h
    obtain ⟨rfl, rfl⟩ := h
    exact ⟨_, (List.take_append_drop _ _).symm, rfl⟩
  · cases h

/-- A read that fails takes nothing from a FIFO. -/
theorem performFile_read_none {fifo : ℕ} {f f' : Files}
    (h : performFile i w (.readFifo fifo) c f = some (none, f')) : f' = f := by
  simp only [performFile] at h
  split at h
  · cases h
  · cases h
    rfl

/-- A forwarder writes bytes to a PTY, and keeps what it could not write. -/
theorem performFile_writePty {pty : ℕ} {bytes : List UInt8} {ok : Bool} {f f' : Files}
    (h : performFile i w (.writePty pty bytes) c f = some (ok, f')) :
    ∃ done left, bytes = done ++ left ∧ (ok = true → left = []) ∧ f' = { f with
      ptyInput := Function.update f.ptyInput pty (f.ptyInput pty ++ done)
      inHand := Function.update f.inHand i left } := by
  simp only [performFile, Option.some.injEq, Prod.mk.injEq] at h
  obtain ⟨rfl, rfl⟩ := h
  exact ⟨_, _, (List.take_append_drop _ _).symm, fun hok => by simp [hok], rfl⟩

/-- A PTY writer that is dropped writes some of its farewell. -/
theorem performFile_dropWriter {pty : ℕ} {farewell : UInt8 → List UInt8} {r : Unit} {f f' : Files}
    (h : performFile i w (.dropWriter pty farewell) c f = some (r, f')) :
    ∃ eof tail, tail <+: farewell eof ∧ f' = { f with
      ptyInput := Function.update f.ptyInput pty (f.ptyInput pty ++ tail) } := by
  simp only [performFile, Option.some.injEq, Prod.mk.injEq] at h
  obtain ⟨-, rfl⟩ := h
  exact ⟨_, _, List.take_prefix _ _, rfl⟩

/-- A thread goes on forwarding what it forwarded. -/
theorem perform_forward (h : perform i a c w = some (r, w')) {k : ℕ}
    (hk : w.life k = .unborn → w'.life k = .unborn) :
    w'.files.forward k = w.files.forward k := by
  cases a with
  | disk a => rw [performDisk_files h]
  | file a =>
    obtain ⟨f, hperform, rfl⟩ := perform_file h
    cases a <;> simp only [performFile] at hperform <;> (try split at hperform) <;>
      (try split at hperform) <;> cases hperform <;>
      first | rfl | (unfold createLog; split <;> rfl)
  | process a =>
    cases a
    case spawnForward fifo pty =>
      simp only [perform, performProcess] at h
      split at h <;> cases h
      next hunborn =>
      refine Function.update_of_ne ?_ ..
      rintro rfl
      have hborn := hk hunborn
      simp [spawnThread] at hborn
    all_goals
      simp only [perform, performProcess] at h
      (try split at h) <;> (try split at h) <;> cases h <;> rfl

/-- A session stays initialized. -/
theorem perform_initialized (h : perform i a c w = some (r, w')) {m : String}
    (hm : w.inits m ≠ []) :
    w'.inits m ≠ [] := by
  rcases records_cases h with ⟨-, -, hinits⟩ | ⟨site, record, rfl, -, rfl⟩
  · rwa [hinits]
  · cases site
    case initial =>
      by_cases hname : m = record.name
      · subst hname
        simp [World.save, initsAfter]
      · simpa only [World.save, initsAfter, Function.update_of_ne hname] using hm
    all_goals exact hm

/-! ## What threads know about FIFOs -/

/-- A FIFO lies at one session's path, and a file that is yet to be made at none. -/
structure Linked (f : Files) : Prop where
  made : ∀ m x, f.fifo m = some x → x < f.nextInode
  apart : ∀ m m' x, f.fifo m = some x → f.fifo m' = some x → m = m'

/-- A FIFO was opened at the path of a session `m`, where it still is if `m` is `n`. -/
structure Leads (n : String) (w : World) (m : String) (fifo : ℕ) : Prop where
  inits : w.inits m ≠ []
  made : fifo < w.files.nextInode
  apart : ∀ m', w.files.fifo m' = some fifo → m' = m
  here : m = n → w.files.fifo n = some fifo

/-- What a thread knows about the input of a session is true. -/
structure Plumbed (requests : ℕ → Option Request) (n : String) (w : World) (k : ℕ)
    (g : Plumbing) : Prop where
  unborn : w.life k = .unborn → requests k = none ∧ g = {}
  session : g.session = addressee (requests k)
  parts : g.parts = messageParts (requests k)
  written : w.files.writtenBy k = g.pieces
  progress : ∃ rest, Written g.parts g.pieces rest
  seen : ∀ m ∈ g.seen, w.inits m ≠ []
  own : ∀ m, g.own = some m → ∃ o, w.owner k = some o ∧ o.name = m
  pty : ∀ p, g.pty = some p → p = k
  aim : ∀ x, g.aim = some x → ∃ m, g.session = some m ∧ Leads n w m x
  fifo : ∀ x, g.fifo = some x → ∃ m, g.own = some m ∧ Leads n w m x
  sent : ∀ x ∈ w.files.pieces, x.writer = k → ∃ m, g.session = some m ∧ Leads n w m x.fifo
  hand : ∀ b, g.hand = some b → w.files.inHand k = b
  forward : w.files.forward k = g.forwards.map (·.2)

/-- Two sessions never share a FIFO. -/
theorem Linked.act {f f' : Files} (hJ : Linked f) (hrelinks : Relinks f a f') : Linked f' := by
  obtain ⟨hinode, -, hmade⟩ := hrelinks
  refine ⟨fun m x hx => ?_, fun m m' x hx hx' => ?_⟩
  · rcases hmade m x hx with hold | ⟨rfl, hlt, -⟩
    · exact Nat.lt_of_lt_of_le (hJ.made m x hold) hinode
    · exact hlt
  · rcases hmade m x hx, hmade m' x hx' with ⟨hold | ⟨hnew, -, hm⟩, hold' | ⟨hnew', -, hm'⟩⟩
    · exact hJ.apart m m' x hold hold'
    · exact absurd (hJ.made m x hold) (by omega)
    · exact absurd (hJ.made m' x hold') (by omega)
    · rw [hm] at hm'
      exact Option.some.inj hm'

/-- A path leads to the session's FIFO until a start replaces it. -/
theorem Leads.act {m : String} {x : ℕ} (hleads : Leads n w m x) (halone : w.Alone n a)
    (h : perform i a c w = some (r, w')) : Leads n w' m x := by
  obtain ⟨hinode, hkept, hmade⟩ := perform_relinks h
  refine ⟨perform_initialized h hleads.inits, Nat.lt_of_lt_of_le hleads.made hinode, fun m' hm' => ?_,
    fun hmn => ?_⟩
  · rcases hmade m' x hm' with hold | ⟨rfl, -⟩
    · exact hleads.apart m' hold
    · exact absurd hleads.made (Nat.lt_irrefl _)
  · rw [hkept n fun hreset => hleads.inits (hmn ▸ halone.resets hreset)]
    exact hleads.here hmn

/-- What is known about where a FIFO leads stays true. -/
theorem Leads.carry {P : String → Prop} {x : ℕ} (hknown : ∃ m, P m ∧ Leads n w m x)
    (halone : w.Alone n a) (h : perform i a c w = some (r, w')) : ∃ m, P m ∧ Leads n w' m x := by
  obtain ⟨m, hm, hleads⟩ := hknown
  exact ⟨m, hm, hleads.act halone h⟩

/-- What is at a path leads to the session. -/
theorem leads_of_fifo {m : String} {x : ℕ} (hlinked : Linked w.files) (hinits : w.inits m ≠ [])
    (hx : w.files.fifo m = some x) : Leads n w m x where
  inits := hinits
  made := hlinked.made m x hx
  apart m' hm' := hlinked.apart m' m x hm' hx
  here hmn := hmn ▸ hx

/-- The pieces that a thread wrote are those that it wrote before, or one more of its own. -/
theorem perform_pieces (h : perform i a c w = some (r, w')) :
    w'.files.pieces = w.files.pieces ∨
      ∃ fifo bytes, w'.files.pieces = w.files.pieces ++ [⟨fifo, i, bytes⟩] := by
  by_cases hmoves : moves a = false
  · exact .inl (perform_sameFlow h hmoves).pieces
  · unfold moves at hmoves
    split at hmoves
    · next fifo bytes =>
      obtain ⟨f, hperform, rfl⟩ := perform_file h
      cases r with
      | none => exact .inl (by rw [performFile_write_none hperform])
      | some count =>
        obtain ⟨-, rfl⟩ := performFile_write hperform
        exact .inr ⟨_, _, rfl⟩
    · next fifo =>
      obtain ⟨f, hperform, rfl⟩ := perform_file h
      cases r with
      | none => exact .inl (by rw [performFile_read_none hperform])
      | some bytes =>
        obtain ⟨left, -, rfl⟩ := performFile_read hperform
        exact .inl rfl
    · next pty bytes =>
      obtain ⟨f, hperform, rfl⟩ := perform_file h
      obtain ⟨done, left, -, -, rfl⟩ := performFile_writePty hperform
      exact .inl rfl
    · next pty farewell =>
      obtain ⟨f, hperform, rfl⟩ := perform_file h
      obtain ⟨eof, tail, -, rfl⟩ := performFile_dropWriter hperform
      exact .inl rfl
    · exact absurd rfl hmoves

/-- Only a forwarder changes what it has in hand. -/
theorem perform_inHand (h : perform i a c w = some (r, w')) {k : ℕ} (hk : k ≠ i) :
    w'.files.inHand k = w.files.inHand k := by
  by_cases hmoves : moves a = false
  · rw [(perform_sameFlow h hmoves).inHand]
  · unfold moves at hmoves
    split at hmoves
    · obtain ⟨f, hperform, rfl⟩ := perform_file h
      cases r with
      | none => rw [performFile_write_none hperform]
      | some count =>
        obtain ⟨-, rfl⟩ := performFile_write hperform
        rfl
    · obtain ⟨f, hperform, rfl⟩ := perform_file h
      cases r with
      | none => rw [performFile_read_none hperform]
      | some bytes =>
        obtain ⟨left, -, rfl⟩ := performFile_read hperform
        exact Function.update_of_ne hk ..
    · obtain ⟨f, hperform, rfl⟩ := perform_file h
      obtain ⟨done, left, -, -, rfl⟩ := performFile_writePty hperform
      exact Function.update_of_ne hk ..
    · obtain ⟨f, hperform, rfl⟩ := perform_file h
      obtain ⟨eof, tail, -, rfl⟩ := performFile_dropWriter hperform
      rfl
    · exact absurd rfl hmoves

/-- A piece is one more of the call that wrote it. -/
theorem writtenBy_append (f : Files) (x : Piece) (k : ℕ) :
    { f with pieces := f.pieces ++ [x] }.writtenBy k =
      f.writtenBy k ++ if x.writer = k then [x.bytes] else [] := by
  by_cases hx : x.writer = k <;> simp [Files.writtenBy, List.filter_append, hx]

/-- A piece is one more of the FIFO that it went to. -/
theorem writtenTo_append (f : Files) (x : Piece) (fifo : ℕ) :
    { f with pieces := f.pieces ++ [x] }.writtenTo fifo =
      f.writtenTo fifo ++ if x.fifo = fifo then x.bytes else [] := by
  by_cases hx : x.fifo = fifo <;> simp [Files.writtenTo, List.filter_append, hx]

variable {env : Env} {requests : ℕ → Option Request} {g : Plumbing}

/-- What a thread knows stays true while it moves nothing itself. -/
theorem Plumbed.act {k : ℕ} (hT : Plumbed requests n w k g) (hsound : w.Sound)
    (halone : w.Alone n a) (h : perform i a c w = some (r, w'))
    (hk : w.life k = .unborn → w'.life k = .unborn) (hmoves : k ≠ i ∨ moves a = false) :
    Plumbed requests n w' k g where
  unborn hunborn := by
    refine hT.unborn ?_
    by_contra hborn
    exact (perform_ages hsound h).born k hborn hunborn
  session := hT.session
  parts := hT.parts
  written := by
    rw [← hT.written]
    rcases hmoves with hki | hmoves
    · rcases perform_pieces h with hsame | ⟨fifo, bytes, hpieces⟩
      · simp only [Files.writtenBy, hsame]
      · simp [Files.writtenBy, hpieces, List.filter_append, Ne.symm hki]
    · simp only [Files.writtenBy, (perform_sameFlow h hmoves).pieces]
  progress := hT.progress
  seen m hm := perform_initialized h (hT.seen m hm)
  own m hm := by
    obtain ⟨o, ho, hname⟩ := hT.own m hm
    obtain ⟨o', ho', hname', -⟩ := (perform_ages hsound h).owner k o ho
    exact ⟨o', ho', hname'.trans hname⟩
  pty := hT.pty
  aim x hx := by
    exact Leads.carry (hT.aim x hx) halone h
  fifo x hx := by
    exact Leads.carry (hT.fifo x hx) halone h
  sent x hx hwriter := by
    have hbefore : x ∈ w.files.pieces := by
      rcases hmoves with hki | hmoves
      · rcases perform_pieces h with hsame | ⟨fifo, bytes, hpieces⟩
        · rwa [hsame] at hx
        · rw [hpieces] at hx
          rcases List.mem_append.mp hx with hx | hx
          · exact hx
          · rw [List.mem_singleton.mp hx] at hwriter
            exact absurd hwriter.symm hki
      · rwa [(perform_sameFlow h hmoves).pieces] at hx
    exact Leads.carry (hT.sent x hbefore hwriter) halone h
  hand b hb := by
    rw [← hT.hand b hb]
    rcases hmoves with hki | hmoves
    · exact perform_inHand h hki
    · rw [(perform_sameFlow h hmoves).inHand]
  forward := by rw [perform_forward h hk, hT.forward]

/-- A record that was read was saved. -/
theorem inits_of_load (halone : w.Alone n a) {name : String} {m : SessionMetadata}
    (h : performDisk i (.loadMetadata name) c w = some (.ok m, w')) : w'.inits name ≠ [] := by
  obtain ⟨rfl, hr⟩ := performDisk_load h
  rcases hr with ⟨-, e, he⟩ | ⟨m', hm', -⟩
  · cases he
  · intro hnone
    rw [(halone.inits name).mpr hnone] at hm'
    cases hm'

/-- A thread that opens a FIFO at a session's path opens the one that is there. -/
theorem performFile_openFifo {name : String} {x : ℕ} {f f' : Files}
    (h : performFile i w (.openFifo name) c f = some (some x, f')) : f.fifo name = some x := by
  simp only [performFile] at h
  split at h <;> cases h
  assumption

/-- A sender opens what is at the session's path. -/
theorem performFile_openFifoWriter {name : String} {x : ℕ} {f f' : Files}
    (h : performFile i w (.openFifoWriter name) c f = some (.opened x, f')) :
    f.fifo name = some x := by
  simp only [performFile] at h
  split at h
  · split at h <;> cases h
    assumption
  · cases h

/-- The thread that acted knows what is true afterwards. -/
theorem Plumbed.post (hT : Plumbed requests n w i g) (hsound : w.Sound) (hlinked : Linked w.files)
    (halone : w.Alone n a) (hi : w.alive i = true) (hpre : Plumbing.pre env a g)
    (h : perform i a c w = some (r, w')) :
    Plumbing.fact a g r ∧ Plumbed requests n w' i (Plumbing.post a g r) := by
  have hborn := alive_ne_unborn hi
  have hborn' := (perform_ages hsound h).born i hborn
  have hkeep := hT.act hsound halone h (fun hunborn => absurd hunborn hborn)
  by_cases haside : Plumbing.aside a = true
  · have hmoves : moves a = false := by
      unfold moves
      split <;> first | rfl | cases haside
    have hkept := hkeep (.inr hmoves)
    have hold := hkept.seen
    have hsees := Plumbing.sees_post (g := g) haside r
    have hseen : ∀ m ∈ (Plumbing.post a g r).seen, w'.inits m ≠ [] := by
      intro m hm
      unfold Plumbing.post at hm
      split at hm
      case h_1 =>
        rcases List.mem_cons.mp hm with rfl | hm
        · exact inits_of_load halone h
        · exact hold m hm
      all_goals exact hold m hm
    refine ⟨?_, ?_⟩
    · unfold Plumbing.fact
      split <;> trivial
    · rw [hsees.same]
      exact ⟨fun hunborn => absurd hunborn hborn', hkept.session, hkept.parts, hkept.written,
        hkept.progress, hseen, hkept.own, hkept.pty, hkept.aim, hkept.fifo, hkept.sent, hkept.hand,
        hkept.forward⟩
  · unfold Plumbing.aside at haside
    split at haside
    · -- An owner opens a PTY.
      refine ⟨trivial, ?_⟩
      have hkeep := hkeep (.inr rfl)
      refine ⟨fun hunborn => absurd hunborn hborn', hkeep.session, hkeep.parts, hkeep.written,
        hkeep.progress, hkeep.seen, hkeep.own, fun p hp => ?_, hkeep.aim, hkeep.fifo, hkeep.sent,
        hkeep.hand, hkeep.forward⟩
      simp only [perform, performProcess] at h
      cases h
      dsimp only [Plumbing.post] at hp
      split at hp <;> cases hp
      rfl
    · -- An owner starts its forwarder.
      have hkeep := hkeep (.inr rfl)
      exact ⟨trivial, fun hunborn => absurd hunborn hborn', hkeep.session, hkeep.parts,
        hkeep.written, hkeep.progress, hkeep.seen, hkeep.own, hkeep.pty, hkeep.aim, hkeep.fifo,
        hkeep.sent, hkeep.hand, hkeep.forward⟩
    · -- An owner opens the FIFO of its session.
      next name =>
      have hkeep := hkeep (.inr rfl)
      obtain ⟨hunopened, hseen⟩ := hpre
      refine ⟨trivial, fun hunborn => absurd hunborn hborn', hkeep.session, hkeep.parts,
        hkeep.written, hkeep.progress, hkeep.seen, hkeep.own, hkeep.pty, hkeep.aim, fun x hx => ?_,
        hkeep.sent, hkeep.hand, hkeep.forward⟩
      obtain rfl : r = some x := hx
      obtain ⟨f, hperform, -⟩ := perform_file h
      exact ⟨name, hunopened.own, (leads_of_fifo hlinked (hT.seen name hseen)
        (performFile_openFifo hperform)).act halone h⟩
    · -- A thread closes its FIFO.
      have hkeep := hkeep (.inr rfl)
      exact ⟨trivial, fun hunborn => absurd hunborn hborn', hkeep.session, hkeep.parts,
        hkeep.written, hkeep.progress, hkeep.seen, hkeep.own, hkeep.pty, hkeep.aim, hkeep.fifo,
        hkeep.sent, hkeep.hand, hkeep.forward⟩
    · -- A call opens the FIFO of its session.
      next name =>
      have hkeep := hkeep (.inr rfl)
      obtain ⟨hsession, hseen⟩ := hpre
      refine ⟨trivial, ?_⟩
      cases r with
      | noReader => exact hkeep
      | failed => exact hkeep
      | opened fifo =>
        refine ⟨fun hunborn => absurd hunborn hborn', hkeep.session, hkeep.parts, hkeep.written,
          hkeep.progress, hkeep.seen, hkeep.own, hkeep.pty, fun x hx => ?_, hkeep.fifo, hkeep.sent,
          hkeep.hand, hkeep.forward⟩
        cases hx
        obtain ⟨f, hperform, -⟩ := perform_file h
        exact ⟨name, hsession, (leads_of_fifo hlinked (hT.seen name hseen)
          (performFile_openFifoWriter hperform)).act halone h⟩
    · -- A call writes a piece.
      next fifo bytes =>
      obtain ⟨haim, hnonempty, rest, hrest⟩ := hpre
      obtain ⟨f, hperform, rfl⟩ := perform_file h
      cases r with
      | none =>
        rw [performFile_write_none hperform]
        exact ⟨trivial, hT⟩
      | some count =>
        obtain ⟨hatomic, rfl⟩ := performFile_write hperform
        refine ⟨hatomic, fun hunborn => absurd hunborn hborn', hT.session, hT.parts, ?_,
          ⟨_, .piece count hrest hnonempty hatomic⟩, hT.seen, hT.own, hT.pty, fun x hx => ?_,
          fun x hx => ?_, fun x hx hwriter => ?_, hT.hand, hT.forward⟩
        · have happend := writtenBy_append w.files ⟨fifo, i, bytes.take count⟩ i
          rw [if_pos rfl, hT.written] at happend
          exact happend
        · exact Leads.carry (hT.aim x hx) halone h
        · exact Leads.carry (hT.fifo x hx) halone h
        · rcases List.mem_append.mp hx with hx | hx
          · exact Leads.carry (hT.sent x hx hwriter) halone h
          · rw [List.mem_singleton.mp hx]
            exact Leads.carry (hT.aim fifo haim) halone h
    · -- A forwarder reads.
      next fifo =>
      obtain ⟨f, hperform, rfl⟩ := perform_file h
      cases r with
      | none =>
        rw [performFile_read_none hperform]
        exact ⟨trivial, hT⟩
      | some bytes =>
        obtain ⟨left, -, rfl⟩ := performFile_read hperform
        refine ⟨trivial, fun hunborn => absurd hunborn hborn', hT.session, hT.parts, hT.written,
          hT.progress, hT.seen, hT.own, hT.pty, fun x hx => ?_, fun x hx => ?_,
          fun x hx hwriter => ?_, fun b hb => ?_, hT.forward⟩
        · exact Leads.carry (hT.aim x hx) halone h
        · exact Leads.carry (hT.fifo x hx) halone h
        · exact Leads.carry (hT.sent x hx hwriter) halone h
        · cases hb
          exact Function.update_self ..
    · -- A forwarder writes.
      next pty bytes =>
      obtain ⟨f, hperform, rfl⟩ := perform_file h
      obtain ⟨done, left, -, hleft, rfl⟩ := performFile_writePty hperform
      refine ⟨trivial, fun hunborn => absurd hunborn hborn', hT.session, hT.parts, hT.written,
        hT.progress, hT.seen, hT.own, hT.pty, fun x hx => ?_, fun x hx => ?_,
        fun x hx hwriter => ?_, fun b hb => ?_, hT.forward⟩
      · exact Leads.carry (hT.aim x hx) halone h
      · exact Leads.carry (hT.fifo x hx) halone h
      · exact Leads.carry (hT.sent x hx hwriter) halone h
      · cases r with
        | true =>
          cases hb
          exact (Function.update_self ..).trans (hleft rfl)
        | false => cases hb
    · -- A forwarder drops its PTY writer.
      obtain ⟨f, hperform, rfl⟩ := perform_file h
      obtain ⟨eof, tail, -, rfl⟩ := performFile_dropWriter hperform
      refine ⟨trivial, fun hunborn => absurd hunborn hborn', hT.session, hT.parts, hT.written,
        hT.progress, hT.seen, hT.own, hT.pty, fun x hx => ?_, fun x hx => ?_,
        fun x hx hwriter => ?_, hT.hand, hT.forward⟩
      · exact Leads.carry (hT.aim x hx) halone h
      · exact Leads.carry (hT.fifo x hx) halone h
      · exact Leads.carry (hT.sent x hx hwriter) halone h
    · exact absurd rfl haside

/-- A new thread knows what is true. -/
theorem Plumbed.fresh {env : Env} {k : ℕ} {gk : Plumbing} {p : Prog ThreadResult}
    (hT : Plumbed requests n w k gk) (h : perform i a c w = some (r, w'))
    (hlaunched : launched env a r = some (k, p)) :
    Plumbed requests n w' k (Plumbing.fresh a g r) := by
  obtain ⟨hrequest, rfl⟩ := hT.unborn (launched_unborn h hlaunched)
  have hnew : ∀ g' : Plumbing, w'.life k ≠ .unborn → w'.files.pieces = w.files.pieces →
      w'.files.inHand = w.files.inHand → w'.files.forward k = g'.forwards.map (·.2) →
      (∀ m, g'.own = some m → ∃ o, w'.owner k = some o ∧ o.name = m) →
      g' = { own := g'.own, forwards := g'.forwards, reads := g'.reads } →
        Plumbed requests n w' k g' := by
    intro g' hborn hpieces hinHand hforward hown hg'
    rw [hg'] at hforward hown ⊢
    refine ⟨fun hunborn => absurd hunborn hborn, hT.session, hT.parts, ?_, hT.progress,
      fun m hm => (by cases hm), hown, fun p hp => (by cases hp), fun x hx => (by cases hx),
      fun x hx => (by cases hx), fun x hx hwriter => ?_, fun b hb => ?_, hforward⟩
    · simp only [Files.writtenBy, hpieces]
      exact hT.written
    · obtain ⟨m, hm, -⟩ := hT.sent x (hpieces ▸ hx) hwriter
      cases hm
    · rw [hinHand]
      exact hT.hand b hb
  have hforward : w.files.forward k = none := hT.forward
  unfold launched at hlaunched
  split at hlaunched <;> cases hlaunched
  · simp only [perform, performProcess] at h
    split at h
    · split at h <;> cases h
      exact hnew _ (by simp [spawnThread]) rfl rfl hforward
        (fun m hm => ⟨_, Function.update_self .., by
          cases hm
          rfl⟩) rfl
    · cases h
  · simp only [perform, performProcess] at h
    split at h <;> cases h
    exact hnew _ (by simp [spawnThread]) rfl rfl hforward (fun m hm => ⟨_, Function.update_self .., by
      cases hm
      rfl⟩) rfl
  · simp only [perform, performProcess] at h
    split at h <;> cases h
    exact hnew _ (by simp [spawnThread]) rfl rfl hforward (fun m hm => by cases hm) rfl
  · simp only [perform, performProcess] at h
    split at h <;> cases h
    exact hnew _ (by simp [spawnThread]) rfl rfl (Function.update_self ..)
      (fun m hm => by cases hm) rfl

/-! ## Handles -/

/-- What a disturbance leaves of the files: it may discard what no live thread reads. -/
structure Undisturbed (w w' : World) : Prop where
  pipe : ∀ x, w'.files.pipe x = w.files.pipe x ∨
    (w.hasReader x = false ∧ w'.files.pipe x = [])
  pieces : w'.files.pieces = w.files.pieces
  inHand : w'.files.inHand = w.files.inHand
  ptyInput : w'.files.ptyInput = w.files.ptyInput
  inode : w'.files.nextInode = w.files.nextInode
  fifo : w'.files.fifo = w.files.fifo
  readers : w'.files.readers = w.files.readers
  forward : w'.files.forward = w.files.forward
  unborn : ∀ k, w'.life k = .unborn → w.life k = .unborn

/-- What the environment does to files. -/
theorem disturb_files {e : Disturbance} (h : w.disturb e = some w') : Undisturbed w w' := by
  cases e with
  | clientKilled i =>
    simp only [World.disturb] at h
    split at h <;> cases h
    refine ⟨fun _ => .inl rfl, rfl, rfl, rfl, rfl, rfl, rfl, rfl, fun k hk => ?_⟩
    by_cases hki : k = i
    · subst hki
      simp at hk
    · simpa only [Function.update_of_ne hki] using hk
  | processDies pid =>
    cases h
    exact ⟨fun _ => .inl rfl, rfl, rfl, rfl, rfl, rfl, rfl, rfl, fun _ => id⟩
  | print pty bytes =>
    cases h
    exact ⟨fun _ => .inl rfl, rfl, rfl, rfl, rfl, rfl, rfl, rfl, fun _ => id⟩
  | discard fifo =>
    obtain ⟨hreader, rfl⟩ := disturb_discard h
    refine ⟨fun x => ?_, rfl, rfl, rfl, rfl, rfl, rfl, rfl, fun _ => id⟩
    by_cases hx : x = fifo
    · subst hx
      exact .inr ⟨hreader, Function.update_self ..⟩
    · exact .inl (Function.update_of_ne hx ..)

/-- The FIFO that a thread knows to hold open for reading is the only one that it
holds, and it is an owner's own or the one that it forwards from. -/
structure Grasped (w : World) (k : ℕ) (g : Plumbing) : Prop where
  readers : ∀ x, (w.files.readers x).count k = if g.reads = some x then 1 else 0
  handle : ∀ x, g.reads = some x →
    (g.fifo = some x ∧ g.forwarder = none ∧ g.forwards = none) ∨
      (g.fifo = none ∧ ∃ p, g.forwards = some (x, p))

/-- A thread reads the FIFO that it knows of, and no other. -/
theorem Grasped.mem_iff {k : ℕ} (hT : Grasped w k g) (x : ℕ) :
    k ∈ w.files.readers x ↔ g.reads = some x := by
  rw [← List.count_pos_iff, hT.readers x]
  split <;> simp [*]

/-- Actions that change who reads a FIFO. -/
def regrasps : Act → Bool
  | .file (.openFifo _) | .file (.closeFifo _) | .process (.spawnForward ..) => true
  | _ => false

/-- Most actions open and close no FIFO. -/
theorem perform_readers (h : perform i a c w = some (r, w')) (ha : regrasps a = false) :
    w'.files.readers = w.files.readers := by
  cases a with
  | disk a => rw [performDisk_files h]
  | process a =>
    cases a
    case spawnForward fifo pty => cases ha
    all_goals
      simp only [perform, performProcess] at h
      (try split at h) <;> (try split at h) <;> cases h <;> rfl
  | file a =>
    obtain ⟨f, hperform, rfl⟩ := perform_file h
    cases a
    case openFifo name => cases ha
    case closeFifo fifo => cases ha
    all_goals
      simp only [performFile] at hperform
      (try split at hperform) <;> (try split at hperform) <;> cases hperform <;>
        first
        | rfl
        | (unfold createLog; split <;> rfl)

/-- An owner that opens a FIFO is one more reader of it. -/
theorem performFile_openFifo_readers {name : String} {r : Option ℕ} {f f' : Files}
    (h : performFile i w (.openFifo name) c f = some (r, f')) :
    (r = none ∧ f' = f) ∨ ∃ x, r = some x ∧
      f' = { f with readers := Function.update f.readers x (i :: f.readers x) } := by
  simp only [performFile] at h
  split at h <;> cases h
  · exact .inr ⟨_, rfl, rfl⟩
  · exact .inl ⟨rfl, rfl⟩

/-- How often a thread reads a FIFO once another one's readers changed. -/
theorem count_update (readers : ℕ → List ℕ) (fifo k : ℕ) (l : List ℕ) (x : ℕ) :
    (Function.update readers fifo l x).count k =
      if x = fifo then l.count k else (readers x).count k := by
  by_cases hx : x = fifo
  · subst hx
    simp
  · simp [hx]

/-- A thread keeps the handles that another thread does not change. -/
theorem perform_readers_other (h : perform i a c w = some (r, w')) {k : ℕ} (hk : k ≠ i)
    (hborn : w.life k = .unborn → w'.life k = .unborn) (x : ℕ) :
    (w'.files.readers x).count k = (w.files.readers x).count k := by
  by_cases ha : regrasps a = false
  · rw [perform_readers h ha]
  · unfold regrasps at ha
    split at ha
    · obtain ⟨f, hperform, rfl⟩ := perform_file h
      rcases performFile_openFifo_readers hperform with ⟨-, rfl⟩ | ⟨y, -, rfl⟩
      · rfl
      · dsimp only
        rw [count_update, List.count_cons_of_ne (Ne.symm hk)]
        split <;> simp [*]
    · obtain ⟨f, hperform, rfl⟩ := perform_file h
      cases hperform
      dsimp only
      rw [closeReader, count_update, List.count_erase_of_ne hk]
      split <;> simp [*]
    · simp only [perform, performProcess] at h
      split at h <;> cases h
      next hunborn =>
      have hne : k ≠ c.thread := by
        rintro rfl
        have hlife := hborn hunborn
        simp [spawnThread] at hlife
      dsimp only
      rw [Files.passFifo, count_update, List.count_cons_of_ne (Ne.symm hne), List.count_erase_of_ne hk]
      split <;> simp [*]
    · exact absurd rfl ha

/-- A thread keeps its FIFO but where it changes who reads one. -/
theorem post_reads (ha : regrasps a = false) (g : Plumbing) (r : a.Response) :
    (Plumbing.post a g r).reads = g.reads ∧ (Plumbing.post a g r).fifo = g.fifo ∧
      (Plumbing.post a g r).forwarder = g.forwarder ∧
      (Plumbing.post a g r).forwards = g.forwards := by
  unfold Plumbing.post
  split
  case h_3 => cases ha
  case h_4 => cases ha
  case h_5 => cases ha
  all_goals exact ⟨rfl, rfl, rfl, rfl⟩

/-- The thread that acted knows which FIFO it holds afterwards. -/
theorem Grasped.post (hT : Grasped w i g) (hi : w.alive i = true) (hpre : Plumbing.pre env a g)
    (h : perform i a c w = some (r, w')) : Grasped w' i (Plumbing.post a g r) := by
  by_cases ha : regrasps a = false
  · obtain ⟨hreads, hfifo, hforwarder, hforwards⟩ := post_reads ha g r
    refine ⟨fun x => ?_, fun x hx => ?_⟩
    · rw [perform_readers h ha, hreads]
      exact hT.readers x
    · rw [hfifo, hforwarder, hforwards]
      exact hT.handle x (hreads.symm.trans hx)
  · unfold regrasps at ha
    split at ha
    · -- It opens a FIFO, and held none before.
      next name =>
      obtain ⟨hunopened, -⟩ := hpre
      obtain ⟨f, hperform, rfl⟩ := perform_file h
      have hnone : ∀ x, (w.files.readers x).count i = 0 := by
        intro x
        rw [hT.readers x, hunopened.reads]
        rfl
      rcases performFile_openFifo_readers hperform with ⟨rfl, rfl⟩ | ⟨y, rfl, rfl⟩
      · exact ⟨hnone, fun x hx => by cases hx⟩
      · refine ⟨fun x => ?_, fun x hx => .inl ⟨hx, hunopened.forwarder, hunopened.forwards⟩⟩
        dsimp only [Plumbing.post]
        rw [count_update, List.count_cons_self, hnone, hnone]
        simp [eq_comm]
    · -- It closes the FIFO that it held.
      next fifo =>
      obtain ⟨f, hperform, rfl⟩ := perform_file h
      cases hperform
      refine ⟨fun x => ?_, fun x hx => by cases hx⟩
      dsimp only [Plumbing.post]
      rw [closeReader, count_update, List.count_erase_self, hT.readers, hT.readers, hpre]
      by_cases hx : x = fifo
      · simp [hx]
      · simp [hx, Ne.symm hx]
    · -- It passes its FIFO on.
      next fifo pty =>
      obtain ⟨-, -, -, -, hreads⟩ := hpre
      simp only [perform, performProcess] at h
      split at h <;> cases h
      next hunborn =>
      have hne : i ≠ c.thread := by
        rintro hsame
        exact alive_ne_unborn hi (hsame ▸ hunborn)
      refine ⟨fun x => ?_, fun x hx => by cases hx⟩
      dsimp only [Plumbing.post]
      rw [Files.passFifo, count_update, List.count_cons_of_ne (Ne.symm hne), List.count_erase_self,
        hT.readers, hT.readers, hreads]
      by_cases hx : x = fifo
      · simp [hx]
      · simp [hx, Ne.symm hx]
    · exact absurd rfl ha

/-- A new forwarder holds the FIFO that it was passed, any other new thread none. -/
theorem Grasped.fresh {k : ℕ} {p : Prog ThreadResult} {gk : Plumbing} (hT : Grasped w k gk)
    (hnew : gk.reads = none) (hi : w.alive i = true) (h : perform i a c w = some (r, w'))
    (hlaunched : launched env a r = some (k, p)) : Grasped w' k (Plumbing.fresh a g r) := by
  have hnone : ∀ x, (w.files.readers x).count k = 0 := by
    intro x
    rw [hT.readers x, hnew]
    rfl
  have hki : k ≠ i := by
    rintro rfl
    exact alive_ne_unborn hi (launched_unborn h hlaunched)
  unfold launched at hlaunched
  split at hlaunched <;> cases hlaunched
  case h_4 fifo pty =>
    simp only [perform, performProcess] at h
    split at h <;> cases h
    refine ⟨fun x => ?_, fun x hx => .inr ⟨rfl, pty, ?_⟩⟩
    · dsimp only [Plumbing.fresh]
      rw [Files.passFifo, count_update, List.count_cons_self, List.count_erase_of_ne hki, hnone,
        hnone]
      simp [eq_comm]
    · cases hx
      rfl
  all_goals
    refine ⟨fun x => ?_, fun x hx => by cases hx⟩
    rw [perform_readers h rfl, hnone]
    rfl

/-- At the beginning nobody reads a FIFO. -/
theorem grasped_fresh (requests : ℕ → Option Request) (k : ℕ) :
    Grasped (World.fresh requests) k (Plumbing.asked (requests k)) :=
  ⟨fun _ => rfl, fun x hx => by cases hx⟩

/-- No disturbance changes what a live thread reads. -/
theorem Grasped.disturb {k : ℕ} {e : Disturbance} (hT : Grasped w k g)
    (h : w.disturb e = some w') : Grasped w' k g :=
  ⟨by rw [(disturb_files h).readers]; exact hT.readers, hT.handle⟩

/-! ## Fresh machines and disturbances -/

/-- At the beginning there is nothing to know about input. -/
theorem plumbed_fresh (requests : ℕ → Option Request) (n : String) (k : ℕ) :
    Plumbed requests n (World.fresh requests) k (Plumbing.asked (requests k)) where
  unborn hunborn := by
    simp only [World.fresh] at hunborn
    split at hunborn
    · cases hunborn
    · next hnone => exact ⟨hnone, by rw [hnone]; rfl⟩
  session := rfl
  parts := rfl
  written := rfl
  progress := ⟨_, .start⟩
  seen m hm := by cases hm
  own m hm := by cases hm
  pty p hp := by cases hp
  aim x hx := by cases hx
  fifo x hx := by cases hx
  sent x hx := by cases hx
  hand b hb := by
    cases hb
    rfl
  forward := rfl

/-- No disturbance changes what a live thread knows about input. -/
theorem Plumbed.disturb {k : ℕ} {e : Disturbance} (hT : Plumbed requests n w k g)
    (h : w.disturb e = some w') : Plumbed requests n w' k g := by
  obtain ⟨hdisk, howner⟩ := disturb_sameDisk h
  have hfiles := disturb_files h
  have hleads : ∀ {m x}, Leads n w m x → Leads n w' m x := by
    intro m x hx
    exact ⟨by rw [hdisk.inits]; exact hx.inits, by rw [hfiles.inode]; exact hx.made,
      by rw [hfiles.fifo]; exact hx.apart, by rw [hfiles.fifo]; exact hx.here⟩
  refine ⟨fun hunborn => hT.unborn (hfiles.unborn k hunborn), hT.session, hT.parts, ?_, hT.progress,
    by rw [hdisk.inits]; exact hT.seen, by rw [howner]; exact hT.own, hT.pty, fun x hx => ?_,
    fun x hx => ?_, fun x hx hwriter => ?_, by rw [hfiles.inHand]; exact hT.hand,
    by rw [hfiles.forward]; exact hT.forward⟩
  · simp only [Files.writtenBy, hfiles.pieces]
    exact hT.written
  · obtain ⟨m, hm, hx⟩ := hT.aim x hx
    exact ⟨m, hm, hleads hx⟩
  · obtain ⟨m, hm, hx⟩ := hT.fifo x hx
    exact ⟨m, hm, hleads hx⟩
  · rw [hfiles.pieces] at hx
    obtain ⟨m, hm, hx⟩ := hT.sent x hx hwriter
    exact ⟨m, hm, hleads hx⟩

end World

end IgnibyteBridge
