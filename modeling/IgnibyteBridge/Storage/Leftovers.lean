import IgnibyteBridge.Concurrency.Keeping
import IgnibyteBridge.Storage.Versions

/-!
# What a replacement leaves behind

`write_atomic` uses the name of the file and the names of temp files, and nothing else in the
directory. A temp file belongs to a call that has not returned, unless the call failed and
could not remove it. Distinct temp files are not needed for this.
-/

namespace IgnibyteBridge

open Concurrency Storage Function Fallible

open StoreAct (call)

/-- A name of a temp file. -/
def Target.IsTemp (target : Target) (name : FileName) : Prop :=
  ∃ unique pid, name = target.temp unique pid

/-- The names that `write_atomic` uses. -/
def Target.Uses (target : Target) (name : FileName) : Prop :=
  name = target.fileName ∨ target.IsTemp name

/-- Removing a file that exists succeeds. -/
def Removes (ok : Machine → ℕ → StoreAct → StoreChoice → Prop) : Prop :=
  ∀ m i name c, ok m i (.removeFile name) c → c.ok = true

/-- A call may have left this temp file: it has not returned `Ok`, and if removals succeed, it
has not returned at all. -/
structure MayLeave (target : Target) (job : ℕ → Job)
    (ok : Machine → ℕ → StoreAct → StoreChoice → Prop)
    (s : Config StoreAct StoreAct.Response StoreResult Machine) (i : ℕ) (name : FileName) :
    Prop where
  name : target.IsTemp name
  writes : ∃ process contents, job i = .write process contents
  unfinished : s.thread i ≠ .done (.wrote (.ok ()))
  running : Removes ok → ∀ x, s.thread i ≠ .done x

/-- What a call has to clean up. -/
structure Litter where
  job : Job
  /-- The temp file that it may have left in the directory. -/
  temp : Option FileName := none
  /-- The file that it writes. -/
  file : Option ℕ := none

namespace Litter

/-- A call creates its temp file only once, writes only that one, and removes or renames
no other file. -/
def pre (target : Target) : StoreAct → Litter → Prop
  | .create name, g =>
    target.IsTemp name ∧ (∃ process contents, g.job = .write process contents) ∧ g.temp = none
  | .write file _ _, g => g.file = some file
  | .rename source new, g => g.temp = some source ∧ new = target.fileName
  | .removeFile name, g => target.IsTemp name ∧ (g.temp = none ∨ g.temp = some name)
  | _, _ => True

/-- What is left to clean up after a system call. With `removes` no removal fails. -/
def post (removes : Bool) : (a : StoreAct) → Litter → a.Response → Litter
  | .create name, g, some file => { g with temp := some name, file := some file }
  | .rename .., g, true => { g with temp := none }
  | .removeFile _, g, removed => if removed || removes then { g with temp := none } else g
  | _, g, _ => g

/-- The discipline of the temp files. -/
def discipline (removes : Bool) (target : Target) :
    Discipline StoreAct StoreAct.Response Litter where
  pre := pre target
  fact _ _ _ := True
  post := post removes

/-- Nothing is left, unless an error is returned and a removal may have failed. -/
def Ends (removes : Bool) (x : StoreResult) (g : Litter) : Prop :=
  g.temp = none ∨ removes = false ∧ ∃ e, x = .wrote (.error e)

/-- Nothing is left but a temp file with this name. -/
def Only (name : FileName) (g : Litter) : Prop := g.temp = none ∨ g.temp = some name

section Programs

variable {removes : Bool} {target : Target} {name : FileName} {display : String} {job : Job}
  {file : ℕ} {contents : List UInt8}

/-- One call does what the discipline notes of it. -/
theorem meets_call {a : StoreAct} {g : Litter} {Q : a.Response → Litter → Prop}
    {E : String → Litter → Prop} (hpre : pre target a g) (hnext : ∀ r, Q r (post removes a g r)) :
    Meets (discipline removes target) Q E (call a) g :=
  (meets_perform a Q g).mpr ⟨hpre, fun r _ => hnext r⟩

/-- A call that has created its temp file goes on with it. -/
theorem keeps_call {a : StoreAct} {I : Litter → Prop} (hpre : ∀ g, I g → pre target a g)
    (hpost : ∀ g r, I g → I (post removes a g r)) :
    Fallible.Keeps (discipline removes target) I (call a) := by
  constructor
  intro g hg
  exact meets_call (hpre g hg) fun r => hpost g r hg

/-- The temp file of this name is open. -/
def Writing (job : Job) (name : FileName) (file : ℕ) (g : Litter) : Prop :=
  g = ⟨job, some name, some file⟩

/-- A creation that succeeds leaves the process writing its temporary file. -/
theorem meets_createPrivateFile {process : ℕ} (hname : target.IsTemp name) :
    Meets (discipline removes target) (fun file => Writing (.write process contents) name file)
      (fun _ => Only name) (createPrivateFile name display) { job := .write process contents } := by
  unfold createPrivateFile
  rw [meets_bind]
  refine meets_call ⟨hname, ⟨process, contents, rfl⟩, rfl⟩ fun r => ?_
  rw [meets_bind]
  refine Fallible.meets_orThrow (fun file hr => ?_) (fun hr => .inl (by rw [hr]; rfl))
  subst hr
  rw [meets_bind]
  refine meets_call trivial fun loose => ?_
  cases loose with
  | none =>
    rw [meets_bind]
    exact meets_call trivial fun _ => .inr rfl
  | some loose =>
    cases loose with
    | false => exact rfl
    | true =>
      rw [meets_bind]
      refine meets_call trivial fun ok => ?_
      cases ok with
      | true => exact rfl
      | false =>
        rw [if_neg Bool.false_ne_true, meets_bind]
        exact meets_call trivial fun _ => .inr rfl

/-- `write_all` writes to its file and to nothing else. -/
theorem keeps_writeRest (n offset : ℕ) (bytes : List UInt8) :
    Fallible.Keeps (discipline removes target) (Writing job name file)
      (writeRest file display n offset bytes) := by
  induction n generalizing offset bytes with
  | zero =>
    cases bytes with
    | nil => exact keeps_pure ()
    | cons byte bytes => exact keeps_throw _
  | succ n ih =>
    cases bytes with
    | nil => exact keeps_pure ()
    | cons byte bytes =>
      unfold writeRest
      refine (keeps_call ?_ fun _ _ => id).bind fun r => ?_
      · rintro g rfl
        rfl
      · cases r with
        | none => exact keeps_throw _
        | some count =>
          cases count with
          | zero => exact keeps_throw _
          | succ count => exact ih _ _

/-- The closure of `write_atomic` leaves its temp file, or nothing. -/
theorem meets_writeTemp {process : ℕ} (hname : target.IsTemp name) :
    Meets (discipline removes target)
      (fun _ g => ∃ file, Writing (.write process contents) name file g)
      (fun _ => Only name) (writeTemp name display contents)
      { job := .write process contents } := by
  unfold writeTemp
  rw [meets_bind]
  refine Meets.mono (meets_createPrivateFile hname) ?_ fun _ _ => id
  intro file g hg
  rw [meets_bind, meets_outcome, meets_bind]
  refine Meets.mono ((keeps_writeRest _ _ _).meets g hg) ?_ ?_
  · rintro _ _ rfl
    rw [meets_bind]
    refine meets_call trivial fun ok => ?_
    refine Fallible.meets_ensure (fun _ => ?_) fun _ => ?_
    · rw [meets_bind]
      exact meets_call trivial fun _ => ⟨file, rfl⟩
    · rw [meets_bind]
      exact meets_call trivial fun _ => .inr rfl
  · rintro e _ rfl
    rw [meets_bind]
    exact meets_call trivial fun _ => .inr rfl

/-- A failed call removes its temp file. -/
theorem temp_removed {g : Litter} {removed : Bool} (hremoves : removes = true) :
    (post removes (.removeFile name) g removed).temp = none := by
  rw [post, hremoves, Bool.or_true, if_pos rfl]

/-- `write_atomic` under its number leaves nothing that it could remove. -/
theorem meets_writeNumbered {parent fileName : String} {process unique : ℕ}
    (hname : target.fileName.toStr = some fileName) :
    Meets (discipline removes target) (fun _ g => g.temp = none)
      (fun _ g => g.temp = none ∨ removes = false)
      (writeNumbered target parent fileName contents unique)
      { job := .write process contents } := by
  unfold writeNumbered
  rw [meets_bind]
  refine meets_call trivial fun pid => ?_
  have htemp : target.IsTemp (.text (tempName fileName pid unique)) := by
    refine ⟨unique, pid, ?_⟩
    rw [Target.temp, hname]
    rfl
  have hremove : ∀ {g : Litter} {e : String}, Only (.text (tempName fileName pid unique)) g →
      Meets (discipline removes target) (fun _ g => g.temp = none)
        (fun _ g => g.temp = none ∨ removes = false)
        (call (.removeFile (.text (tempName fileName pid unique))) >>= fun _ =>
          (throw e : StoreAct.Result Unit)) g := by
    intro g e hg
    rw [meets_bind]
    refine meets_call ⟨htemp, hg⟩ fun removed => ?_
    cases removes with
    | true => exact .inl (temp_removed rfl)
    | false => exact .inr rfl
  rw [meets_bind, meets_outcome]
  refine Meets.mono (meets_writeTemp htemp) ?_ fun e g => hremove
  rintro _ g ⟨file, rfl⟩
  rw [meets_bind]
  refine meets_call ⟨rfl, rfl⟩ fun replaced => ?_
  cases replaced with
  | true => exact rfl
  | false =>
    rw [if_neg Bool.false_ne_true]
    exact hremove (.inr rfl)

/-- A write that returns has left no temporary file, unless it may not remove one. -/
theorem meets_writeAtomic {process : ℕ} :
    Meets (discipline removes target) (fun _ g => g.temp = none)
      (fun _ g => g.temp = none ∨ removes = false) (writeAtomic target contents)
      { job := .write process contents } := by
  unfold writeAtomic
  rw [meets_bind]
  refine Fallible.meets_orThrow (fun parent _ => ?_) fun _ => .inl rfl
  rw [meets_bind]
  refine Fallible.meets_orThrow (fun fileName hname => ?_) fun _ => .inl rfl
  rw [meets_bind]
  exact meets_call trivial fun unique => meets_writeNumbered hname

/-- A reader leaves nothing. -/
theorem follows_readMore {g : Litter} {got : List UInt8} (hg : g.temp = none) :
    (readMore file got).Follows (discipline removes target) (Ends removes) g := by
  refine ⟨trivial, fun r _ => ?_⟩
  cases r with
  | none => exact .inl hg
  | some bytes =>
    cases bytes with
    | nil => exact .inl hg
    | cons byte bytes => exact .inl hg

/-- Every job follows the discipline to its end. -/
theorem follows_program (removes : Bool) (target : Target) (job : Job) :
    (job.program target).Follows (discipline removes target) (Ends removes) { job } := by
  cases job with
  | write process contents =>
    refine (Program.follows_bind _ _ _ _).mpr ((follows_run _ _ _).mpr ?_)
    refine Meets.mono meets_writeAtomic (fun _ _ => .inl) fun e g hg => ?_
    rcases hg with hnone | hfails
    · exact .inl hnone
    · exact .inr ⟨hfails, e, rfl⟩
  | read process =>
    refine ⟨trivial, fun r _ => ?_⟩
    cases r with
    | none => exact .inl rfl
    | some file => exact follows_readMore rfl

end Programs

/-- What is always true of a thread's litter. -/
structure Sound (target : Target) (fs : FileSystem FileName) (job : Job) (g : Litter) : Prop where
  job : g.job = job
  temp : ∀ name, g.temp = some name →
    target.IsTemp name ∧ ∃ process contents, g.job = .write process contents
  /-- The file that is written has no other name. -/
  file : ∀ file, g.file = some file → ∀ name, ¬target.Uses name → fs.entry name ≠ some file

/-- The invariant of a directory in which every file is accounted for. -/
structure Accounted (target : Target) (job : ℕ → Job) (fs : FileSystem FileName) (m : Machine)
    (γ : ℕ → Litter) : Prop where
  sound : ∀ i, Sound target fs (job i) (γ i)
  entry : ∀ name, ¬target.Uses name → m.fs.entry name = fs.entry name
  contents : ∀ name file, ¬target.Uses name → fs.entry name = some file →
    m.fs.contents file = fs.contents file
  /-- A new file is the replaced one, or some call has to clean it up. -/
  new : ∀ name, m.fs.entry name ≠ none →
    fs.entry name ≠ none ∨ name = target.fileName ∨ ∃ i, (γ i).temp = some name

variable {removes : Bool} {target : Target} {job : ℕ → Job} {fs : FileSystem FileName}
  {m m' : Machine} {γ : ℕ → Litter} {i : ℕ}

/-- A step that changes neither the directory nor what is to clean up. -/
theorem Accounted.same (h : Accounted target job fs m γ) (hfs : m'.fs = m.fs) :
    Accounted target job fs m' γ where
  sound := h.sound
  entry := hfs ▸ h.entry
  contents := hfs ▸ h.contents
  new := hfs ▸ h.new

/-- Once one writer has new notes that are sound, all notes are sound still. -/
theorem Accounted.sound_update (h : Accounted target job fs m γ) {g : Litter}
    (hg : Sound target fs (job i) g) (j : ℕ) : Sound target fs (job j) (update γ i g j) := by
  by_cases hj : j = i
  · rw [hj, update_self]
    exact hg
  · rw [update_of_ne hj]
    exact h.sound j

/-- A file that thread `i` does not have to clean up is still accounted for. -/
theorem Accounted.new_update (h : Accounted target job fs m γ) {name : FileName}
    (hentry : m.fs.entry name ≠ none) (hother : (γ i).temp ≠ some name) (g : Litter) :
    fs.entry name ≠ none ∨ name = target.fileName ∨ ∃ j, (update γ i g j).temp = some name := by
  refine (h.new name hentry).imp_right (Or.imp_right ?_)
  rintro ⟨j, hj⟩
  have hne : j ≠ i := by
    rintro rfl
    exact hother hj
  refine ⟨j, ?_⟩
  rwa [update_of_ne hne]

/-- A call creates its temp file. -/
theorem Accounted.create (h : Accounted target job fs m γ) {name : FileName}
    (hname : target.IsTemp name) (hwrites : ∃ process contents, (γ i).job = .write process contents)
    (hnone : (γ i).temp = none) :
    Accounted target job fs { m with fs := m.fs.create name }
      (update γ i { γ i with temp := some name, file := some (m.fs.created name) }) := by
  have hother : ∀ {other}, ¬target.Uses other → other ≠ name := by
    rintro other huses rfl
    exact huses (.inr hname)
  have hcreated : ∀ other, ¬target.Uses other → fs.entry other ≠ some (m.fs.created name) := by
    intro other huses hentry
    rw [← h.entry other huses] at hentry
    exact FileSystem.ne_created hentry (hother huses) rfl
  constructor
  · refine h.sound_update ⟨(h.sound i).job, fun temp htemp => ?_, fun file hfile => ?_⟩
    · obtain rfl := Option.some.inj htemp
      exact ⟨hname, hwrites⟩
    · obtain rfl := Option.some.inj hfile
      exact hcreated
  · intro other huses
    exact (FileSystem.entry_create_of_ne (hother huses)).trans (h.entry other huses)
  · intro other file huses hentry
    have hne : file ≠ m.fs.created name := fun heq => hcreated other huses (heq ▸ hentry)
    exact (FileSystem.contents_create_of_ne hne).trans (h.contents other file huses hentry)
  · intro other hentry
    by_cases hsame : other = name
    · refine .inr (.inr ⟨i, ?_⟩)
      rw [update_self, hsame]
    · have hentry' : m.fs.entry other ≠ none := by
        rwa [← FileSystem.entry_create_of_ne hsame]
      refine h.new_update hentry' ?_ _
      rw [hnone]
      exact (Option.some_ne_none other).symm

/-- A call writes to its temp file, whatever its name is by now. -/
theorem Accounted.write (h : Accounted target job fs m γ) {file : ℕ}
    (hfile : (γ i).file = some file) (offset : ℕ) (bytes : List UInt8) :
    Accounted target job fs { m with fs := m.fs.write file offset bytes } γ where
  sound := h.sound
  entry := h.entry
  contents name other huses hentry := by
    have hne : other ≠ file := by
      rintro rfl
      exact (h.sound i).file other hfile name huses hentry
    exact (FileSystem.contents_write_of_ne hne).trans (h.contents name other huses hentry)
  new := h.new

/-- A call has cleaned up the only file that it had to clean up. -/
theorem Accounted.clean (h : Accounted target job fs m γ) {name : FileName}
    (honly : Only name (γ i))
    (hentry : ∀ other, ¬target.Uses other → m'.fs.entry other = m.fs.entry other)
    (hcontents : m'.fs.contents = m.fs.contents)
    (hnew : ∀ other, m'.fs.entry other ≠ none → other = target.fileName ∨
      other ≠ name ∧ m.fs.entry other ≠ none) :
    Accounted target job fs m' (update γ i { γ i with temp := none }) := by
  constructor
  · refine h.sound_update ⟨(h.sound i).job, fun temp htemp => ?_, (h.sound i).file⟩
    cases htemp
  · intro other huses
    exact (hentry other huses).trans (h.entry other huses)
  · rw [hcontents]
    exact h.contents
  · intro other hother
    rcases hnew other hother with hreplaced | ⟨hne, hold⟩
    · exact .inr (.inl hreplaced)
    · refine h.new_update hold (fun htemp => ?_) _
      rcases honly with hnone | hsome
      · cases hnone.symm.trans htemp
      · exact hne (Option.some.inj (htemp.symm.trans hsome))

/-- A call gives its temp file the name of the file that it replaces. -/
theorem Accounted.rename (h : Accounted target job fs m γ) {source : FileName}
    (htemp : (γ i).temp = some source) (replaced : List ℕ) :
    Accounted target job fs
      { m with fs := m.fs.rename source target.fileName, replaced }
      (update γ i { γ i with temp := none }) := by
  have hsource : target.IsTemp source := ((h.sound i).temp source htemp).1
  refine h.clean (.inr htemp) (fun other huses => ?_) rfl fun other hother => ?_
  · refine FileSystem.entry_rename_of_ne ?_ ?_
    · rintro rfl
      exact huses (.inr hsource)
    · rintro rfl
      exact huses (.inl rfl)
  · by_cases hreplaced : other = target.fileName
    · exact .inl hreplaced
    · by_cases hsame : other = source
      · obtain ⟨unique, pid, rfl⟩ := hsource
        rw [hsame] at hother
        exact absurd (FileSystem.entry_rename_source (target.temp_ne unique pid)) hother
      · refine .inr ⟨hsame, ?_⟩
        rwa [← FileSystem.entry_rename_of_ne hsame hreplaced]

/-- A call removes its temp file. -/
theorem Accounted.remove (h : Accounted target job fs m γ) {name : FileName}
    (hname : target.IsTemp name) (honly : Only name (γ i)) :
    Accounted target job fs { m with fs := m.fs.remove name }
      (update γ i { γ i with temp := none }) := by
  refine h.clean honly (fun other huses => ?_) rfl fun other hother => ?_
  · refine FileSystem.entry_remove_of_ne ?_
    rintro rfl
    exact huses (.inr hname)
  · by_cases hsame : other = name
    · rw [hsame] at hother
      exact absurd FileSystem.entry_remove_self hother
    · refine .inr ⟨hsame, ?_⟩
      rwa [← FileSystem.entry_remove_of_ne hsame]

/-- Every system call that a call may make keeps the invariant. -/
theorem Accounted.act (h : Accounted target job fs m γ) {a : StoreAct} {c : StoreChoice}
    {r : a.Response} (hremoves : removes = true → ∀ name, a = .removeFile name → c.ok = true)
    (hpre : pre target a (γ i)) (hperform : Machine.perform target job i a c m = some (r, m')) :
    Accounted target job fs m' (update γ i (post removes a (γ i) r)) := by
  have hstays : Accounted target job fs m' γ → Accounted target job fs m' (update γ i (γ i)) := by
    rw [update_eq_self]
    exact id
  cases a with
  | fetchAdd =>
    cases hperform
    exact hstays (h.same rfl)
  | processId =>
    simp only [Machine.perform] at hperform
    split at hperform <;> cases hperform
    exact hstays (h.same rfl)
  | create name =>
    obtain ⟨hname, hwrites, hnone⟩ := hpre
    simp only [Machine.perform] at hperform
    split at hperform <;> cases hperform
    · exact h.create hname hwrites hnone
    · exact hstays (h.same rfl)
  | write file offset bytes =>
    simp only [Machine.perform] at hperform
    split at hperform <;> cases hperform
    · exact hstays (h.write hpre _ _)
    · exact hstays (h.same rfl)
  | rename source new =>
    obtain ⟨htemp, rfl⟩ := hpre
    simp only [Machine.perform] at hperform
    split at hperform <;> cases hperform
    · exact h.rename htemp _
    · exact hstays (h.same rfl)
  | removeFile name =>
    obtain ⟨hname, honly⟩ := hpre
    simp only [Machine.perform] at hperform
    split at hperform <;> cases hperform
    · rw [post, Bool.true_or, if_pos rfl]
      exact h.remove hname honly
    · rename_i hfails
      cases hcertain : removes with
      | false =>
        rw [post, Bool.or_false, if_neg Bool.false_ne_true]
        exact hstays (h.same rfl)
      | true =>
        -- There was nothing to remove.
        have hnone : m.fs.entry name = none := by
          rw [hremoves hcertain name rfl, Bool.true_and] at hfails
          exact Option.not_isSome_iff_eq_none.mp hfails
        rw [post, Bool.or_true, if_pos rfl]
        refine h.clean honly (fun _ _ => rfl) rfl fun other hother => .inr ⟨?_, hother⟩
        rintro rfl
        exact hother hnone
  | looseMode file | setPermissions file | flush file | close file | openRead name
  | readAt file offset =>
    cases hperform
    exact hstays (h.same rfl)

/-- What happens to the processes leaves the file system as it is. -/
theorem disturb_fs {e : ProcessEvent} (h : m.disturb e = some m') : m'.fs = m.fs := by
  cases e with
  | start process pid =>
    simp only [Machine.disturb] at h
    split at h <;> cases h
    rfl
  | kill process =>
    simp only [Machine.disturb] at h
    split at h <;> cases h
    rfl

/-- In every run every file is accounted for. -/
theorem accounted_of_reaches (removes : Bool) {ok : Machine → ℕ → StoreAct → StoreChoice → Prop}
    {s : Config StoreAct StoreAct.Response StoreResult Machine}
    (hremoves : removes = true → ∀ m i name c, ok m i (.removeFile name) c → c.ok = true)
    (h : (storage target job).Reaches ok (storageStart target job fs) s) :
    ∃ γ, Accounted target job fs s.world γ ∧
      ∀ i x, s.thread i = .done x → (γ i).Ends removes x := by
  have hcovers : Covers (storage target job) (discipline removes target)
      (fun x g => g.Ends removes x) (fun _ g _ => g) := by
    refine ⟨nofun, fun {x g p} hends hagain => ?_⟩
    cases x with
    | reading file got =>
      cases hagain
      rcases hends with hnone | ⟨-, e, he⟩
      · exact follows_readMore hnone
      · cases he
    | _ => cases hagain
  have hpreserves : Preserves (storage target job) (discipline removes target) (fun _ g _ => g) ok
      (Accounted target job fs) := by
    refine ⟨fun {m γ i a c r m'} hJ _ hok hpre hperform => ⟨trivial, ?_⟩,
      fun hJ hdisturb => hJ.same (disturb_fs hdisturb)⟩
    refine hJ.act (fun hcertain name ha => ?_) hpre hperform
    subst ha
    exact hremoves hcertain m i name c hok
  have hstart : Accounted target job fs (storageStart target job fs).world
      fun i => { job := job i } :=
    { sound := fun _ => ⟨rfl, fun _ htemp => (by cases htemp), fun _ hfile => (by cases hfile)⟩
      entry := fun _ _ => rfl
      contents := fun _ _ _ _ => rfl
      new := fun _ => .inl }
  obtain ⟨γ, hJ, hfollows⟩ :=
    h.outline hcovers hpreserves ⟨_, hstart, fun i => follows_program removes target (job i)⟩
  refine ⟨γ, hJ, fun i x hdone => ?_⟩
  have hthread := hfollows i
  rwa [hdone] at hthread

/-- Who has something to clean up has not returned, or could not clean up. -/
theorem Accounted.mayLeave {ok : Machine → ℕ → StoreAct → StoreChoice → Prop}
    {s : Config StoreAct StoreAct.Response StoreResult Machine}
    (h : Accounted target job fs s.world γ)
    (hends : ∀ x, s.thread i = .done x → (γ i).Ends removes x)
    (hremoves : Removes ok → removes = true) {name : FileName} (htemp : (γ i).temp = some name) :
    MayLeave target job ok s i name := by
  obtain ⟨hname, process, contents, hjob⟩ := (h.sound i).temp name htemp
  have hfails : ∀ x, s.thread i = .done x → removes = false ∧ ∃ e, x = .wrote (.error e) := by
    intro x hx
    refine (hends x hx).resolve_left fun hnone => ?_
    cases hnone.symm.trans htemp
  refine ⟨hname, ⟨process, contents, (h.sound i).job.symm.trans hjob⟩, fun hx => ?_,
    fun hok x hx => ?_⟩
  · obtain ⟨-, e, he⟩ := hfails _ hx
    cases he
  · have hfalse := (hfails x hx).1
    rw [hremoves hok] at hfalse
    cases hfalse

end Litter

/-- **Nothing is left behind.** In every run of any number of writers and readers, whoever is
killed and whichever system calls fail, even when a counter wraps around: every file of another
name stays as it was. Every new entry of the directory is the replaced file or a temp file, and
each temp file belongs to another call, which has not returned `Ok`, and not returned at all
if removals succeed. -/
theorem writeAtomic_leaves_nothing (target : Target) (job : ℕ → Job) (fs : FileSystem FileName)
    {ok : Machine → ℕ → StoreAct → StoreChoice → Prop}
    {s : Config StoreAct StoreAct.Response StoreResult Machine}
    (h : (storage target job).Reaches ok (storageStart target job fs) s) :
    (∀ name, ¬target.Uses name →
      s.world.fs.entry name = fs.entry name ∧ s.world.fs.read name = fs.read name) ∧
    ∃ temp : ℕ → Option FileName,
      (∀ i name, temp i = some name → MayLeave target job ok s i name) ∧
      ∀ name, s.world.fs.entry name ≠ none →
        fs.entry name ≠ none ∨ name = target.fileName ∨ ∃ i, temp i = some name := by
  -- What a call has to clean up depends on whether a removal may have failed.
  obtain ⟨removes, hcertain, hremoves⟩ :
      ∃ removes, (removes = true → Removes ok) ∧ (Removes ok → removes = true) := by
    by_cases hok : Removes ok
    · exact ⟨true, fun _ => hok, fun _ => rfl⟩
    · exact ⟨false, fun hfalse => (by cases hfalse), fun hcertain => absurd hcertain hok⟩
  obtain ⟨γ, hJ, hends⟩ := Litter.accounted_of_reaches removes hcertain h
  refine ⟨fun name huses => ?_, fun i => (γ i).temp,
    fun i name htemp => hJ.mayLeave (hends i) hremoves htemp, hJ.new⟩
  have hentry := hJ.entry name huses
  refine ⟨hentry, ?_⟩
  rw [FileSystem.read, FileSystem.read, hentry]
  cases hfile : fs.entry name with
  | none => rfl
  | some file => exact congrArg some (hJ.contents name file huses hfile)

/-- Only a removal cannot fail. -/
def sureRemovals (_ : Machine) (_ : ℕ) : StoreAct → StoreChoice → Bool
  | .removeFile _, c => c.ok
  | _, _ => true

/-- The first writer is killed in the middle of a write. The second one cannot rename its temp
file. -/
def litterSteps : List (Move StoreChoice ProcessEvent) :=
  .disturb (.start 0 7) :: storeSteps 0 5 { count := 1 } ++ [.disturb (.kill 0)] ++
    .disturb (.start 1 9) :: storeSteps 1 7 { count := 9 } ++ storeSteps 1 1 { ok := false } ++
    storeSteps 1 1 {}

/-- The killed writer has left its temp file, and the other one nothing. -/
theorem writeAtomic_leaves_nothing_killed :
    ∃ s, (storage demoTarget threeJobs).Reaches (fun m i a c => sureRemovals m i a c = true)
      (storageStart demoTarget threeJobs emptyDirectory) s ∧
      s.world.fs.entry (demoTarget.temp 0 7) ≠ none ∧
      s.world.fs.entry (demoTarget.temp 0 9) = none ∧
      ∃ temp : ℕ → Option FileName,
        (∀ i name, temp i = some name → MayLeave demoTarget threeJobs
          (fun m i a c => sureRemovals m i a c = true) s i name) ∧
        ∀ name, s.world.fs.entry name ≠ none → emptyDirectory.entry name ≠ none ∨
          name = demoTarget.fileName ∨ ∃ i, temp i = some name := by
  obtain ⟨s, hreach, hcheck⟩ := System.exists_reaches_of_exec (storage demoTarget threeJobs)
    sureRemovals litterSteps (storageStart demoTarget threeJobs emptyDirectory)
    (fun s => (s.world.fs.entry (demoTarget.temp 0 7)).isSome &&
      (s.world.fs.entry (demoTarget.temp 0 9)).isNone)
    (fun _ _ _ _ => id) (by decide +kernel)
  obtain ⟨hleft, hremoved⟩ := (Bool.and_eq_true ..).mp hcheck
  exact ⟨s, hreach, Option.isSome_iff_ne_none.mp hleft, Option.isNone_iff_eq_none.mp hremoved,
    (writeAtomic_leaves_nothing demoTarget threeJobs emptyDirectory hreach).2⟩

end IgnibyteBridge
