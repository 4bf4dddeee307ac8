import IgnibyteBridge.Directories.Ensure

/-!
# What each step of `ensure_private_dir` does

Rules for programs that run alone on a tree, whatever calls the kernel refuses, and from
them what the making and the checking of one private directory can do.
-/

namespace IgnibyteBridge.Directories

open Concurrency Fallible Storage Text
open DirTree (locate_of_walk locate_unslashed made_of_ok made_of_error mkdir_of_locate
  makeAll_parents makeAll_cons_of_locate dirAt_of_makeAll dirAt_above)

/-- A directory of this user. -/
structure Owned (t : DirTree) (uid i : ℕ) : Prop where
  isDir : t.isDir i = true
  uid_eq : (t.inode i).uid = uid

/-- No permission for group or others. -/
def Tight (mode : BitVec 32) : Prop := mode &&& 0o077 = 0

instance (mode : BitVec 32) : Decidable (Tight mode) := inferInstanceAs (Decidable (_ = _))

/-- The mode of a directory that this process makes. -/
def Caller.dirMode (caller : Caller) : BitVec 32 := 0o700 &&& ~~~caller.umask

/-- The tree once the missing directories on the way to a path are made, and the path. -/
def prepared (caller : Caller) (t : DirTree) (p : RawPath) : DirTree :=
  t.makeAll caller.euid caller.dirMode (p :: parents p)

/-- A directory of this user lies at the path itself. -/
def Accepts (caller : Caller) (t : DirTree) (p : RawPath) : Prop :=
  ∃ i, t.locate p = .ok i ∧ Owned t caller.euid i

/-- A tree with an inode that nobody else may use. -/
def secured (t : DirTree) (i : ℕ) : DirTree :=
  if Tight (t.inode i).mode then t else t.setMode i 0o700

/-! ## Runs on a tree -/

/-- The kernel refuses a call. -/
def Faulty (refused : ℕ → Bool) : Prop := ∃ n, refused n = true

/-- The weakest precondition of a program that runs alone on a tree. -/
def Ends {α : Type} (caller : Caller) (refused : ℕ → Bool) (Q : α → DirTree → Prop)
    (E : String → DirTree → Prop) (p : PathAct.Result α) (t : DirTree) : Prop :=
  ∀ calls, Meets (Program.answering (kernel caller refused)) (fun x s => Q x s.tree)
    (fun e s => E e s.tree) p ⟨t, calls⟩

section Rules

variable {α β : Type} {caller : Caller} {refused : ℕ → Bool} {E E' : String → DirTree → Prop}
  {t : DirTree}

/-- Weaker conditions hold at the end. -/
theorem Ends.mono {Q Q' : α → DirTree → Prop} {p : PathAct.Result α}
    (h : Ends caller refused Q E p t) (hQ : ∀ x t, Q x t → Q' x t)
    (hE : ∀ e t, E e t → E' e t) : Ends caller refused Q' E' p t :=
  fun calls => (h calls).mono (fun _ _ => hQ _ _) fun _ _ => hE _ _

/-- A result is returned in the tree as it is. -/
theorem ends_pure {Q : α → DirTree → Prop} {x : α} (h : Q x t) :
    Ends caller refused Q E (pure x) t :=
  fun _ => (meets_pure _ _).mpr h

/-- An error is raised in the tree as it is. -/
theorem ends_throw {Q : α → DirTree → Prop} {e : String} (h : E e t) :
    Ends caller refused Q E (throw e) t :=
  fun _ => (meets_throw _ _).mpr h

/-- A sequence stops at the first error. -/
theorem ends_bind {Q : β → DirTree → Prop} {p : PathAct.Result α} {f : α → PathAct.Result β}
    (h : Ends caller refused (fun x t => Ends caller refused Q E (f x) t) E p t) :
    Ends caller refused Q E (p >>= f) t := by
  intro calls
  refine (meets_bind p f _ _).mpr ((h calls).mono ?_ fun _ _ => id)
  intro x s hx
  exact hx s.calls

/-- A call is answered, or the kernel refuses it. -/
theorem ends_call {a : PathAct} {f : a.Response → PathAct.Result β} {Q : β → DirTree → Prop}
    (hanswer : Ends caller refused Q E (f (a.answer caller t).1) (a.answer caller t).2)
    (hrefusal : Faulty refused → Ends caller refused Q E (f (a.refusal caller)) t) :
    Ends caller refused Q E (PathAct.call a >>= f) t := by
  intro calls
  refine (meets_bind _ f _ _).mpr (meets_answered ?_)
  by_cases hcalls : refused calls = true
  · have hstep : kernel caller refused a ⟨t, calls⟩ = (a.refusal caller, ⟨t, calls + 1⟩) :=
      if_pos hcalls
    rw [hstep]
    exact hrefusal ⟨calls, hcalls⟩ _
  · have hstep : kernel caller refused a ⟨t, calls⟩ =
        ((a.answer caller t).1, ⟨(a.answer caller t).2, calls + 1⟩) := if_neg hcalls
    rw [hstep]
    exact hanswer _

/-- A check succeeds, or there is its error. -/
theorem ends_ensure {e : String} {ok : Bool} {Q : Unit → DirTree → Prop}
    (htrue : ok = true → Q () t) (hfalse : ok = false → E e t) :
    Ends caller refused Q E (Fallible.ensure e ok) t :=
  fun _ => Fallible.meets_ensure htrue hfalse

/-- An optional result is there, or there is the error. -/
theorem ends_orThrow {e : String} {x : Option α} {Q : α → DirTree → Prop}
    (hsome : ∀ a, x = some a → Q a t) (hnone : x = none → E e t) :
    Ends caller refused Q E (Fallible.orThrow e x) t :=
  fun _ => Fallible.meets_orThrow hsome hnone

end Rules

section Specs

variable {caller : Caller} {refused : ℕ → Bool} {t w : DirTree} {path : RawPath}

/-- A directory is made, or it cannot be, or the call is refused. -/
theorem ends_mkdir {β : Type} {f : Except PathError Unit → PathAct.Result β}
    {Q : β → DirTree → Prop} {E : String → DirTree → Prop}
    (hok : ∀ t', t.mkdir path caller.euid caller.dirMode = .ok t' →
      Ends caller refused Q E (f (.ok ())) t')
    (herror : ∀ e, t.mkdir path caller.euid caller.dirMode = .error e →
      Ends caller refused Q E (f (.error e)) t)
    (hrefusal : Faulty refused → Ends caller refused Q E (f (.error .denied)) t) :
    Ends caller refused Q E (PathAct.call (.mkdir path 0o700) >>= f) t := by
  apply ends_call
  · cases hmkdir : t.mkdir path caller.euid caller.dirMode with
    | ok t' =>
      have hdone := hok t' hmkdir
      unfold Caller.dirMode at hmkdir
      have hanswer : (PathAct.mkdir path 0o700).answer caller t = (.ok (), t') := by
        simp only [PathAct.answer, hmkdir]
      rw [hanswer]
      exact hdone
    | error e =>
      have hfailed := herror e hmkdir
      unfold Caller.dirMode at hmkdir
      have hanswer : (PathAct.mkdir path 0o700).answer caller t = (.error e, t) := by
        simp only [PathAct.answer, hmkdir]
      rw [hanswer]
      exact hfailed
  · exact hrefusal

/-- After an error of `mkdir` all that counts is whether a directory is there. -/
theorem ends_orIsDir (failure : String) (e : PathError) :
    Ends caller refused (fun _ t' => t' = t ∧ t.DirAt path)
      (fun _ t' => t' = t ∧ (Faulty refused ∨ ¬t.DirAt path))
      (orIsDir failure path (.error e)) t := by
  apply ends_call
  · cases hwalk : t.walk path with
    | error e =>
      have hanswer : (PathAct.isDir path).answer caller t = (false, t) := by
        simp [PathAct.answer, hwalk]
      rw [hanswer]
      apply ends_ensure
      · intro h
        cases h
      · refine fun _ => ⟨rfl, .inr ?_⟩
        rintro ⟨i, hi, -⟩
        rw [hwalk] at hi
        cases hi
    | ok i =>
      have hanswer : (PathAct.isDir path).answer caller t = (t.isDir i, t) := by
        simp [PathAct.answer, hwalk]
      rw [hanswer]
      apply ends_ensure
      · exact fun hdir => ⟨rfl, i, hwalk, hdir⟩
      · refine fun hdir => ⟨rfl, .inr ?_⟩
        rintro ⟨j, hj, hdir'⟩
        rw [hwalk] at hj
        cases hj
        rw [show t.isDir i = false from hdir] at hdir'
        cases hdir'
  · intro hfaulty
    exact ends_ensure (fun h => by cases h) fun _ => ⟨rfl, .inl hfaulty⟩

/-- Only a missing directory above is a reason to go on. -/
theorem ends_orRetry {failure : String} {retry : PathAct.Result Unit} {e : PathError}
    {Q : Unit → DirTree → Prop} {E : String → DirTree → Prop}
    (hretry : e = .notFound → Ends caller refused Q E retry t)
    (hdir : e ≠ .notFound → Ends caller refused Q E (orIsDir failure path (.error e)) t) :
    Ends caller refused Q E (orRetry failure path retry (.error e)) t := by
  cases e with
  | notFound => exact hretry rfl
  | notDirectory | loop | alreadyExists | denied => exact hdir (by simp)

/-- An error of the first `mkdir` that is not due to a missing directory. -/
theorem ends_orIsDir_direct (failure : String) {ps : List RawPath} {e : PathError}
    (hps : ∀ q ∈ ps, q <+: holder path) (he : e ≠ .notFound)
    (hcause : Faulty refused ∨ t.mkdir path caller.euid caller.dirMode = .error e) :
    Ends caller refused
      (fun _ t' => t' = t.makeAll caller.euid caller.dirMode (path :: ps))
      (fun _ t' => (∃ qs, qs <:+ path :: ps ∧ t' = t.makeAll caller.euid caller.dirMode qs) ∧
        (Faulty refused ∨ ¬(t.makeAll caller.euid caller.dirMode (path :: ps)).DirAt path))
      (orIsDir failure path (.error e)) t := by
  apply (ends_orIsDir failure e).mono
  · rintro _ _ ⟨rfl, i, hi, -⟩
    obtain ⟨j, hj⟩ := locate_of_walk hi
    exact (makeAll_cons_of_locate hj hps).symm
  · rintro _ _ ⟨rfl, hreason⟩
    refine ⟨⟨[], List.nil_suffix, rfl⟩, ?_⟩
    rcases hcause with hfaulty | hmkdir
    · exact .inl hfaulty
    · exact hreason.imp_right fun hno hdir => hno (dirAt_of_makeAll hmkdir he hps hdir)

/-- The second `mkdir`, after the directories above are made. -/
theorem ends_remake (failure : String) :
    Ends caller refused (fun _ t' => t' = t.made caller.euid caller.dirMode path)
      (fun _ t' => t' = t ∧
        (Faulty refused ∨ ¬(t.made caller.euid caller.dirMode path).DirAt path))
      (do orIsDir failure path (← PathAct.call (.mkdir path 0o700))) t := by
  apply ends_mkdir
  · intro t' hmkdir
    exact ends_pure (made_of_ok hmkdir).symm
  · intro e hmkdir
    have hsame : t.made caller.euid caller.dirMode path = t := made_of_error hmkdir
    rw [hsame]
    exact (ends_orIsDir failure e).mono (fun _ _ h => h.1) fun _ _ => id
  · intro hfaulty
    apply (ends_orIsDir failure .denied).mono
    · rintro _ _ ⟨rfl, i, hi, -⟩
      obtain ⟨j, hj⟩ := locate_unslashed hi
      exact (made_of_error (mkdir_of_locate hj)).symm
    · rintro _ _ ⟨rfl, -⟩
      exact ⟨rfl, .inl hfaulty⟩

/-- What cannot be made and does not exist is not the root. -/
theorem unslashed_ne_nil {e : PathError}
    (h : t.mkdir path caller.euid caller.dirMode = .error e) (he : e ≠ .alreadyExists) :
    unslashed path ≠ [] := by
  intro hnil
  have hroot : t.locate (unslashed path) = .ok 0 := by
    rw [hnil]
    rfl
  rw [mkdir_of_locate hroot] at h
  cases h
  exact he rfl

/-- Recursive creation makes the whole way, or it stops on it because a call was refused
or because there is no directory in the end. -/
theorem ends_createDirAll (failure : String) {ps : List RawPath}
    (hps : (path :: ps).Pairwise fun q r => r <+: holder q) :
    Ends caller refused
      (fun _ t' => t' = t.makeAll caller.euid caller.dirMode (path :: ps))
      (fun _ t' => (∃ qs, qs <:+ path :: ps ∧ t' = t.makeAll caller.euid caller.dirMode qs) ∧
        (Faulty refused ∨ ¬(t.makeAll caller.euid caller.dirMode (path :: ps)).DirAt path))
      (createDirAll failure path ps) t := by
  induction ps generalizing path with
  | nil =>
    have hnone : ∀ q ∈ ([] : List RawPath), q <+: holder path := fun q hq => by cases hq
    apply ends_mkdir
    · intro t' hmkdir
      exact ends_pure (made_of_ok hmkdir).symm
    · intro e hmkdir
      apply ends_orRetry
      · rintro rfl
        apply ends_throw
        refine ⟨⟨[], List.nil_suffix, rfl⟩, .inr ?_⟩
        rintro ⟨i, hi, -⟩
        rw [show t.makeAll caller.euid caller.dirMode [path] = t from made_of_error hmkdir] at hi
        obtain ⟨j, hj⟩ := locate_unslashed hi
        rw [mkdir_of_locate hj] at hmkdir
        cases hmkdir
      · exact fun he => ends_orIsDir_direct failure hnone he (.inr hmkdir)
    · intro hfaulty
      exact ends_orIsDir_direct (e := .denied) failure hnone (by simp) (.inl hfaulty)
  | cons parent rest ih =>
    obtain ⟨hhead, htail⟩ := List.pairwise_cons.mp hps
    have hup : parent <+: holder path := hhead parent List.mem_cons_self
    apply ends_mkdir
    · intro t' hmkdir
      obtain ⟨-, i, hi⟩ | ⟨e, herror, -⟩ | ⟨d, t₁, hd, -, -, hok, -⟩ :=
        t.mkdir_cases path caller.euid caller.dirMode
      · rw [mkdir_of_locate hi] at hmkdir
        cases hmkdir
      · rw [herror] at hmkdir
        cases hmkdir
      · apply ends_pure
        rw [DirTree.makeAll, makeAll_parents hd hhead]
        exact (made_of_ok hmkdir).symm
    · intro e hmkdir
      apply ends_orRetry
      · rintro rfl
        have hne : unslashed path ≠ [] := unslashed_ne_nil hmkdir (by simp)
        apply ends_bind
        apply (ih htail).mono
        · rintro _ u rfl
          apply (ends_remake failure).mono
          · rintro _ _ rfl
            rfl
          · rintro _ _ ⟨rfl, hreason⟩
            exact ⟨⟨parent :: rest, List.suffix_cons _ _, rfl⟩, hreason⟩
        · rintro e t' ⟨⟨qs, hqs, rfl⟩, hreason⟩
          refine ⟨⟨qs, hqs.trans (List.suffix_cons _ _), rfl⟩, ?_⟩
          exact hreason.imp_right fun hno hdir => hno (dirAt_above hup hne hdir)
      · exact fun he => ends_orIsDir_direct failure hhead he (.inr hmkdir)
    · intro hfaulty
      exact ends_orIsDir_direct (e := .denied) failure hhead (by simp) (.inl hfaulty)

/-- The caller learns who it is. -/
theorem ends_geteuid {β : Type} {f : ℕ → PathAct.Result β} {Q : β → DirTree → Prop}
    {E : String → DirTree → Prop} (h : Ends caller refused Q E (f caller.euid) t) :
    Ends caller refused Q E (PathAct.call .geteuid >>= f) t :=
  ends_call h fun _ => h

/-- A directory of somebody else is left alone, and one of this user is secured. -/
theorem ends_restrictDir {i : ℕ} (hwalk : t.walk path = .ok i) :
    Ends caller refused
      (fun _ t' => (t.inode i).uid = caller.euid ∧ t' = secured t i)
      (fun _ t' => t' = t ∧ (Faulty refused ∨ (t.inode i).uid ≠ caller.euid))
      (restrictDir path (PathAct.metadataOf t i)) t := by
  apply ends_geteuid
  by_cases hforeign : (PathAct.metadataOf t i).uid ≠ caller.euid
  · rw [if_pos hforeign]
    exact ends_throw ⟨rfl, .inr hforeign⟩
  rw [if_neg hforeign]
  have huid : (t.inode i).uid = caller.euid := not_not.mp hforeign
  by_cases hloose : (PathAct.metadataOf t i).mode &&& 0o077 ≠ 0
  · rw [if_pos hloose]
    apply ends_call
    · have hanswer : (PathAct.setPermissions path 0o700).answer caller t =
          (true, t.setMode i 0o700) := by simp [PathAct.answer, hwalk]
      rw [hanswer]
      apply ends_ensure
      · exact fun _ => ⟨huid, (if_neg hloose).symm⟩
      · intro h
        cases h
    · intro hfaulty
      apply ends_ensure
      · intro h
        cases h
      · exact fun _ => ⟨rfl, .inl hfaulty⟩
  · rw [if_neg hloose]
    have htight : Tight (t.inode i).mode := not_not.mp hloose
    exact ends_pure ⟨huid, (if_pos htight).symm⟩

/-- The checks accept a directory of this user and take its permissions away from others.
They fail without a change, for a reason. -/
theorem ends_verifyPrivateDir :
    Ends caller refused
      (fun _ t' => ∃ i, t.locate path = .ok i ∧ Owned t caller.euid i ∧ t' = secured t i)
      (fun _ t' => t' = t ∧ (Faulty refused ∨ ¬Accepts caller t path))
      (verifyPrivateDir path) t := by
  apply ends_call
  · cases hlocate : t.locate path with
    | error e =>
      have hanswer : (PathAct.symlinkMetadata path).answer caller t = (none, t) := by
        simp [PathAct.answer, hlocate]
      rw [hanswer]
      apply ends_bind
      apply ends_orThrow
      · intro a h
        cases h
      · refine fun _ => ⟨rfl, .inr ?_⟩
        rintro ⟨i, hi, -⟩
        rw [hlocate] at hi
        cases hi
    | ok i =>
      have hreject : ¬Owned t caller.euid i → ¬Accepts caller t path := by
        rintro hno ⟨j, hj, howned⟩
        rw [hlocate] at hj
        cases hj
        exact hno howned
      have hanswer : (PathAct.symlinkMetadata path).answer caller t =
          (some (PathAct.metadataOf t i), t) := by simp [PathAct.answer, hlocate]
      rw [hanswer]
      apply ends_bind
      apply ends_orThrow
      · intro metadata h
        cases h
        by_cases hlink : (PathAct.metadataOf t i).isSymlink = true
        · rw [if_pos hlink]
          apply ends_throw
          refine ⟨rfl, .inr (hreject fun howned => ?_)⟩
          have hno := DirTree.isLink_of_isDir howned.isDir
          exact absurd (hno.symm.trans hlink) Bool.false_ne_true
        rw [if_neg hlink]
        by_cases hdir : (PathAct.metadataOf t i).isDir = true
        · rw [if_pos hdir]
          have hwalk : t.walk path = .ok i :=
            DirTree.walk_of_locate hlocate (DirTree.isLink_of_isDir hdir)
          apply (ends_restrictDir hwalk).mono
          · rintro _ _ ⟨huid, rfl⟩
            exact ⟨i, rfl, ⟨hdir, huid⟩, rfl⟩
          · rintro _ _ ⟨rfl, hreason⟩
            exact ⟨rfl, hreason.imp_right fun huid => hreject fun howned => huid howned.uid_eq⟩
        · rw [if_neg hdir]
          exact ends_throw ⟨rfl, .inr (hreject fun howned => hdir howned.isDir)⟩
      · intro h
        cases h
  · intro hfaulty
    apply ends_bind
    apply ends_orThrow
    · intro a h
      cases h
    · exact fun _ => ⟨rfl, .inl hfaulty⟩

/-- `ensure_private_dir` makes the way to a path, accepts a directory of this user there
and secures it. It fails on the way or there, for a reason. -/
theorem ends_ensurePrivateDir (t : DirTree) (path : RawPath) :
    Ends caller refused
      (fun _ t' => ∃ i, (prepared caller t path).locate path = .ok i ∧
        Owned (prepared caller t path) caller.euid i ∧ t' = secured (prepared caller t path) i)
      (fun _ t' => (∃ qs, qs <:+ path :: parents path ∧
          t' = t.makeAll caller.euid caller.dirMode qs) ∧
        (Faulty refused ∨ ¬Accepts caller (prepared caller t path) path))
      (ensurePrivateDir path) t := by
  apply ends_bind
  apply (ends_createDirAll _ (pairwise_parents path)).mono
  · rintro _ _ rfl
    apply ends_verifyPrivateDir.mono
    · exact fun _ _ => id
    · rintro _ _ ⟨rfl, hreason⟩
      exact ⟨⟨_, List.suffix_rfl, rfl⟩, hreason⟩
  · rintro _ t' ⟨hmade, hreason⟩
    refine ⟨hmade, hreason.imp_right fun hno => ?_⟩
    rintro ⟨i, hi, howned⟩
    exact hno ⟨i, DirTree.walk_of_locate hi (DirTree.isLink_of_isDir howned.isDir), howned.isDir⟩

end Specs

end IgnibyteBridge.Directories
