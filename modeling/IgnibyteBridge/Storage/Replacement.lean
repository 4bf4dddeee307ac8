import IgnibyteBridge.Storage.WriteAtomic

/-!
# Readers see whole versions

A temp file's name holds the PID and the number of its call, so no two calls in
flight share it, and a file that has been renamed into place is written no more.
-/

namespace IgnibyteBridge

open Concurrency Storage Function Fallible

open StoreAct (call)

/-- The temp file of a call with this number in a process with this PID. -/
def Target.temp (target : Target) (unique pid : ℕ) : FileName :=
  .text (tempName (target.fileName.toStr.getD "") pid unique)

/-- The characters of a temporary name. -/
theorem toList_tempName (fileName : String) (pid unique : ℕ) :
    (tempName fileName pid unique).toList =
      '.' :: fileName.toList ++ ".tmp.".toList ++ (pid.repr.toList ++ '.' :: unique.repr.toList) := by
  simp [tempName]

/-- A temporary name tells the PID and the number it was made of. -/
theorem tempName_inj {fileName : String} {pid pid' unique unique' : ℕ}
    (h : tempName fileName pid unique = tempName fileName pid' unique') :
    pid = pid' ∧ unique = unique' := by
  have hdot : ∀ n : ℕ, '.' ∉ n.repr.toList := fun n hmem =>
    absurd (Text.isDigit_of_mem_repr hmem) (by decide)
  have hlist := congrArg String.toList h
  rw [toList_tempName, toList_tempName] at hlist
  obtain ⟨hpid, hunique⟩ :=
    Text.append_separator_inj (hdot pid) (hdot pid') (List.append_cancel_left hlist)
  exact ⟨Text.repr_injective (String.toList_inj.mp hpid),
    Text.repr_injective (String.toList_inj.mp hunique)⟩

/-- A temporary name is never the name of the target. -/
theorem tempName_ne (fileName : String) (pid unique : ℕ) :
    tempName fileName pid unique ≠ fileName := by
  intro h
  have hlength := congrArg (fun name => name.toList.length) h
  simp only [toList_tempName, List.length_append, List.length_cons] at hlength
  omega

/-- Temporary paths of two calls differ where their PIDs or numbers do. -/
theorem Target.temp_inj {target : Target} {pid pid' unique unique' : ℕ}
    (h : target.temp unique pid = target.temp unique' pid') : pid = pid' ∧ unique = unique' :=
  tempName_inj (FileName.text.inj h)

/-- No temp file has the name of the file it replaces. -/
theorem Target.temp_ne (target : Target) (unique pid : ℕ) :
    target.temp unique pid ≠ target.fileName := by
  unfold temp
  cases target.fileName with
  | text name => exact fun h => tempName_ne name pid unique (FileName.text.inj h)
  | bytes name => nofun
  | missing => nofun

/-! ## What a thread must do -/

/-- How far a thread has come. -/
inductive Stage where
  | idle
  | counted (unique : ℕ)
  | named (unique pid : ℕ)
  /-- Its temp file is open or closed, and holds this. -/
  | writing (unique pid file : ℕ) (written : List UInt8)
  | replaced
  | reading (file : ℕ) (got : List UInt8)
  | read (got : List UInt8)
  /-- The call failed. -/
  | failed

/-- The number that a thread uses. -/
def Stage.unique : Stage → Option ℕ
  | .counted unique | .named unique _ | .writing unique .. => some unique
  | _ => none

/-- A thread's job and its progress. -/
structure Duty where
  job : Job
  stage : Stage

/-- The progress that a system call makes. -/
def Stage.after : (a : StoreAct) → Stage → a.Response → Stage
  | .fetchAdd, _, unique => .counted unique
  | .processId, .counted unique, pid => .named unique pid
  | .create _, .named unique pid, some file => .writing unique pid file []
  | .write _ _ bytes, .writing unique pid file written, some count =>
    .writing unique pid file (written ++ bytes.take count)
  | .rename _ _, _, true => .replaced
  | .removeFile _, _, _ => .failed
  | .openRead _, _, some file => .reading file []
  | .readAt _ _, .reading _ got, some [] => .read got
  | .readAt _ _, .reading file got, some (byte :: bytes) => .reading file (got ++ byte :: bytes)
  | _, stage, _ => stage

/-- What a thread may do at each stage. -/
def Duty.May (target : Target) (d : Duty) : StoreAct → Prop
  | .fetchAdd => d.stage = .idle
  | .processId => ∃ unique, d.stage = .counted unique
  | .create name => ∃ unique pid, d.stage = .named unique pid ∧ name = target.temp unique pid
  | .write file offset _ => ∃ unique pid written,
      d.stage = .writing unique pid file written ∧ offset = written.length
  | .rename source new => ∃ unique pid file written process,
      d.stage = .writing unique pid file written ∧ d.job = .write process written ∧
        source = target.temp unique pid ∧ new = target.fileName
  | .removeFile name => ∃ unique pid, name = target.temp unique pid ∧
      (d.stage = .named unique pid ∨ ∃ file written, d.stage = .writing unique pid file written)
  | .openRead name => d.stage = .idle ∧ name = target.fileName
  | .readAt file offset => ∃ got, d.stage = .reading file got ∧ offset = got.length
  | _ => True

/-- The discipline of writers and readers. -/
def orderly (target : Target) : Discipline StoreAct StoreAct.Response Duty where
  pre a d := d.May target a
  fact
    | .write _ _ bytes, _, r => ∀ count, r = some count → count ≤ bytes.length
    | _, _, _ => True
  post a d r := { d with stage := d.stage.after a r }

/-- The stage in which a thread's program ends. -/
def Duty.Ends (d : Duty) : StoreResult → Prop
  | .wrote (.ok _) => d.stage = .replaced
  | .wrote (.error _) => d.stage ≠ .replaced
  | .reading file got => d.stage = .reading file got
  | .read bytes => d.stage = .read bytes
  | .unreadable => True

section Programs

variable {target : Target} {unique pid file : ℕ} {job : Job} {written : List UInt8}
  {name : FileName} {display : String}

/-- A thread may make a system call and goes on at the next stage. -/
theorem meets_call (a : StoreAct) {d : Duty} {Q : a.Response → Duty → Prop}
    {E : String → Duty → Prop} (hmay : d.May target a)
    (hnext : ∀ r, (orderly target).fact a d r → Q r ⟨d.job, d.stage.after a r⟩) :
    Meets (orderly target) Q E (call a) d :=
  (meets_perform a Q d).mpr ⟨hmay, hnext⟩

/-- `create_private_file` opens the temp file, or fails with it open or not. -/
theorem meets_createPrivateFile (hname : name = target.temp unique pid) :
    Meets (orderly target) (fun file d => d = ⟨job, .writing unique pid file []⟩)
      (fun _ d => d = ⟨job, .named unique pid⟩ ∨ ∃ file, d = ⟨job, .writing unique pid file []⟩)
      (createPrivateFile name display) ⟨job, .named unique pid⟩ := by
  unfold createPrivateFile
  rw [meets_bind]
  refine meets_call _ (⟨unique, pid, rfl, hname⟩) fun r _ => ?_
  rw [meets_bind]
  refine Fallible.meets_orThrow (fun file hr => ?_) (fun hr => .inl (by rw [hr]; rfl))
  subst hr
  rw [meets_bind]
  refine meets_call _ trivial fun loose _ => ?_
  match loose with
  | none =>
    rw [meets_bind]
    exact meets_call _ trivial fun _ _ => .inr ⟨file, rfl⟩
  | some false => exact rfl
  | some true =>
    rw [meets_bind]
    refine meets_call _ trivial fun ok _ => ?_
    cases ok with
    | true => exact rfl
    | false =>
      rw [if_neg Bool.false_ne_true, meets_bind]
      exact meets_call _ trivial fun _ _ => .inr ⟨file, rfl⟩

/-- `write_all` appends the rest of the contents, or part of it. -/
theorem meets_writeRest (n : ℕ) (bytes written : List UInt8) (hn : bytes.length ≤ n) :
    Meets (orderly target)
      (fun _ d => d = ⟨job, .writing unique pid file (written ++ bytes)⟩)
      (fun _ d => ∃ some, d = ⟨job, .writing unique pid file some⟩)
      (writeRest file display n written.length bytes) ⟨job, .writing unique pid file written⟩ := by
  induction n generalizing bytes written with
  | zero =>
    obtain rfl := List.length_eq_zero_iff.mp (Nat.le_zero.mp hn)
    simp [writeRest]
  | succ n ih =>
    cases bytes with
    | nil => simp [writeRest]
    | cons byte bytes =>
      unfold writeRest
      rw [meets_bind]
      refine meets_call _ (⟨unique, pid, written, rfl, rfl⟩) fun r hr => ?_
      match r with
      | none => exact ⟨written, rfl⟩
      | some 0 => exact ⟨written ++ [], rfl⟩
      | some (count + 1) =>
        have hcount := hr (count + 1) rfl
        rw [List.length_cons] at hcount hn
        have hrest := ih (bytes.drop count) (written ++ (byte :: bytes).take (count + 1))
          (by rw [List.length_drop]; omega)
        have hlength : (written ++ (byte :: bytes).take (count + 1)).length =
            written.length + (count + 1) := by
          rw [List.length_append, List.length_take, List.length_cons]
          omega
        rw [hlength, List.append_assoc, List.take_succ_cons, List.cons_append,
          List.take_append_drop] at hrest
        exact hrest

/-- The closure of `write_atomic` leaves the whole contents in the temp file, or fails. -/
theorem meets_writeTemp (hname : name = target.temp unique pid) (contents : List UInt8) :
    Meets (orderly target)
      (fun _ d => ∃ file, d = ⟨job, .writing unique pid file contents⟩)
      (fun _ d => d = ⟨job, .named unique pid⟩ ∨
        ∃ file written, d = ⟨job, .writing unique pid file written⟩)
      (writeTemp name display contents) ⟨job, .named unique pid⟩ := by
  unfold writeTemp
  rw [meets_bind]
  refine Meets.mono (meets_createPrivateFile hname) ?_ ?_
  · rintro file d rfl
    rw [meets_bind, meets_outcome, meets_bind]
    refine Meets.mono (meets_writeRest contents.length contents [] (Nat.le_refl _)) ?_ ?_
    · rintro _ d rfl
      rw [meets_bind]
      refine meets_call _ trivial fun ok _ => ?_
      refine Fallible.meets_ensure (fun _ => ?_) (fun _ => ?_)
      · rw [meets_bind]
        exact meets_call _ trivial fun _ _ => ⟨file, rfl⟩
      · rw [meets_bind]
        exact meets_call _ trivial fun _ _ => .inr ⟨file, contents, rfl⟩
    · rintro e d ⟨written, rfl⟩
      rw [meets_bind]
      exact meets_call _ trivial fun _ _ => .inr ⟨file, written, rfl⟩
  · rintro e d (rfl | ⟨file, rfl⟩)
    · exact .inl rfl
    · exact .inr ⟨file, [], rfl⟩

/-- `write_atomic` under its number either replaces the file or fails. -/
theorem meets_writeNumbered {parent fileName : String} {process : ℕ} {contents : List UInt8}
    (hname : target.fileName.toStr = some fileName) :
    Meets (orderly target) (fun _ d => d.stage = .replaced) (fun _ d => d.stage ≠ .replaced)
      (writeNumbered target parent fileName contents unique)
      ⟨.write process contents, .counted unique⟩ := by
  unfold writeNumbered
  rw [meets_bind]
  refine meets_call _ ⟨unique, rfl⟩ fun pid _ => ?_
  have htemp : FileName.text (tempName fileName pid unique) = target.temp unique pid := by
    rw [Target.temp, hname]
    rfl
  rw [meets_bind, meets_outcome, htemp]
  refine Meets.mono (meets_writeTemp rfl contents) ?_ ?_
  · rintro _ d ⟨file, rfl⟩
    rw [meets_bind]
    refine meets_call _ ⟨unique, pid, file, contents, process, rfl, rfl, rfl, rfl⟩
      fun replaced _ => ?_
    cases replaced with
    | true => exact rfl
    | false =>
      rw [if_neg Bool.false_ne_true, meets_bind]
      exact meets_call _ ⟨unique, pid, rfl, .inr ⟨file, contents, rfl⟩⟩ fun _ _ => nofun
  · intro e d hd
    rw [meets_bind]
    have hfound : d.stage = .named unique pid ∨
        ∃ file written, d.stage = .writing unique pid file written := by
      rcases hd with rfl | ⟨file, written, rfl⟩
      · exact .inl rfl
      · exact .inr ⟨file, written, rfl⟩
    exact meets_call _ ⟨unique, pid, rfl, hfound⟩ fun _ _ => nofun

/-- `write_atomic` either replaces the file or fails. -/
theorem meets_writeAtomic {process : ℕ} {contents : List UInt8} :
    Meets (orderly target) (fun _ d => d.stage = .replaced) (fun _ d => d.stage ≠ .replaced)
      (writeAtomic target contents) ⟨.write process contents, .idle⟩ := by
  unfold writeAtomic
  rw [meets_bind]
  refine Fallible.meets_orThrow (fun parent _ => ?_) (fun _ => nofun)
  rw [meets_bind]
  refine Fallible.meets_orThrow (fun fileName hname => ?_) (fun _ => nofun)
  rw [meets_bind]
  exact meets_call _ rfl fun unique _ => meets_writeNumbered hname

/-- A read goes on from where it is, or ends with what it has. -/
theorem follows_readMore {got : List UInt8} :
    (readMore file got).Follows (orderly target) (fun x d => d.Ends x)
      ⟨job, .reading file got⟩ := by
  refine ⟨⟨got, rfl, rfl⟩, fun r _ => ?_⟩
  match r with
  | none => trivial
  | some [] => exact rfl
  | some (byte :: bytes) => exact rfl

/-- Every thread's program follows the discipline. -/
theorem follows_program (target : Target) (job : Job) :
    (job.program target).Follows (orderly target) (fun x d => d.Ends x) ⟨job, .idle⟩ := by
  cases job with
  | write process contents =>
    refine (Program.follows_bind _ _ _ _).mpr ((follows_run _ _ _).mpr ?_)
    exact Meets.mono meets_writeAtomic (fun _ _ => id) (fun _ _ => id)
  | read process =>
    refine ⟨⟨rfl, rfl⟩, fun r _ => ?_⟩
    match r with
    | none => trivial
    | some file => exact follows_readMore

end Programs

end IgnibyteBridge
