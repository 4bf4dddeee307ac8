import Mathlib.Data.List.Basic
import Mathlib.Logic.Function.Basic

/-!
# Directory entries and files

A directory names files, and a file outlives its name while someone has it open.
Nothing here makes hard links, so a file has one name at most; that is part of
the type, and every operation keeps it.
-/

namespace Storage

open Function (update)

/-- One directory and the files of its file system. -/
structure FileSystem (N : Type) where
  /-- The file that a name stands for. -/
  entry : N → Option ℕ
  contents : ℕ → List UInt8
  /-- A number no file has yet. -/
  nextFile : ℕ
  bounded : ∀ {name file}, entry name = some file → file < nextFile
  separate : ∀ {name name' file}, entry name = some file → entry name' = some file → name = name'

/-- A directory without files. -/
def FileSystem.empty {N : Type} : FileSystem N where
  entry _ := none
  contents _ := []
  nextFile := 0
  bounded := nofun
  separate := nofun

/-- A write at a position of a file; a gap before it reads as zeros. -/
def overwrite (old : List UInt8) (offset : ℕ) (bytes : List UInt8) : List UInt8 :=
  (old ++ List.replicate (offset - old.length) 0).take offset ++ bytes ++
    old.drop (offset + bytes.length)

/-- Writing at the end of a file appends. -/
theorem overwrite_length (old bytes : List UInt8) :
    overwrite old old.length bytes = old ++ bytes := by
  simp [overwrite, List.drop_eq_nil_of_le]

namespace FileSystem

variable {N : Type}

/-- What a file that can be found under a name contains. -/
def read (fs : FileSystem N) (name : N) : Option (List UInt8) := (fs.entry name).map fs.contents

/-- The file that `create` opens. -/
def created (fs : FileSystem N) (name : N) : ℕ := (fs.entry name).getD fs.nextFile

variable {fs : FileSystem N} {name other : N} {file : ℕ}

/-- Which file `create` opens: the one of that name, or a new one. -/
theorem created_cases (fs : FileSystem N) (name : N) :
    fs.entry name = some (fs.created name) ∨
      fs.entry name = none ∧ fs.created name = fs.nextFile := by
  cases h : fs.entry name with
  | none => exact .inr ⟨rfl, by rw [created, h]; rfl⟩
  | some file => exact .inl (by rw [created, h]; rfl)

/-- A file with a name is not the one opened under another name. -/
theorem ne_created (h : fs.entry other = some file) (hname : other ≠ name) :
    file ≠ fs.created name := by
  rintro rfl
  rcases fs.created_cases name with hcreated | ⟨-, hnew⟩
  · exact hname (fs.separate h hcreated)
  · rw [hnew] at h
    exact absurd (fs.bounded h) (Nat.lt_irrefl _)

/-- Two names stand for two files. -/
theorem ne_of_entry {file' : ℕ} (h : fs.entry name = some file) (h' : fs.entry other = some file')
    (hname : name ≠ other) : file ≠ file' :=
  fun heq => hname (fs.separate h (heq ▸ h'))

/-- A write through an open file. -/
def write (fs : FileSystem N) (file offset : ℕ) (bytes : List UInt8) : FileSystem N :=
  { fs with contents := update fs.contents file (overwrite (fs.contents file) offset bytes) }

/-- A write changes one file. -/
theorem contents_write_of_ne {file' offset : ℕ} {bytes : List UInt8} (h : file' ≠ file) :
    (fs.write file offset bytes).contents file' = fs.contents file' :=
  Function.update_of_ne h ..

/-- A write at the end of a file appends to it. -/
theorem contents_write_append {offset : ℕ} {bytes : List UInt8}
    (h : offset = (fs.contents file).length) :
    (fs.write file offset bytes).contents file = fs.contents file ++ bytes := by
  rw [h, ← overwrite_length]
  exact Function.update_self ..

variable [DecidableEq N]

/-- `open` with `O_CREAT` and `O_TRUNC`. -/
def create (fs : FileSystem N) (name : N) : FileSystem N where
  entry := update fs.entry name (some (fs.created name))
  contents := update fs.contents (fs.created name) []
  nextFile := fs.nextFile + 1
  bounded := by
    intro name' file h
    by_cases hname : name' = name
    · subst hname
      rw [Function.update_self] at h
      obtain rfl := Option.some.inj h
      unfold created
      cases hentry : fs.entry name' with
      | none => exact Nat.lt_succ_self _
      | some file => exact Nat.lt_succ_of_lt (fs.bounded hentry)
    · rw [Function.update_of_ne hname] at h
      exact Nat.lt_succ_of_lt (fs.bounded h)
  separate := by
    have hnew : ∀ {name'}, name' ≠ name → fs.entry name' ≠ some (fs.created name) :=
      fun hname h => ne_created h hname rfl
    intro name' name'' file h h'
    by_cases hname' : name' = name <;> by_cases hname'' : name'' = name
    · rw [hname', hname'']
    · rw [hname', Function.update_self] at h
      rw [Function.update_of_ne hname'', ← h] at h'
      exact absurd h' (hnew hname'')
    · rw [hname'', Function.update_self] at h'
      rw [Function.update_of_ne hname', ← h'] at h
      exact absurd h (hnew hname')
    · rw [Function.update_of_ne hname'] at h
      rw [Function.update_of_ne hname''] at h'
      exact fs.separate h h'

/-- A name that no longer stands for a file. -/
def remove (fs : FileSystem N) (name : N) : FileSystem N where
  entry := update fs.entry name none
  contents := fs.contents
  nextFile := fs.nextFile
  bounded := by
    intro name' file h
    by_cases hname : name' = name
    · rw [hname, Function.update_self] at h
      cases h
    · rw [Function.update_of_ne hname] at h
      exact fs.bounded h
  separate := by
    intro name' name'' file h h'
    by_cases hname' : name' = name
    · rw [hname', Function.update_self] at h
      cases h
    · by_cases hname'' : name'' = name
      · rw [hname'', Function.update_self] at h'
        cases h'
      · rw [Function.update_of_ne hname'] at h
        rw [Function.update_of_ne hname''] at h'
        exact fs.separate h h'

/-- The file of one name under another one, in place of the file that had it. -/
def rename (fs : FileSystem N) (source target : N) : FileSystem N where
  entry := update (update fs.entry source none) target (fs.entry source)
  contents := fs.contents
  nextFile := fs.nextFile
  bounded := by
    intro name file h
    by_cases hname : name = target
    · rw [hname, Function.update_self] at h
      exact fs.bounded h
    · rw [Function.update_of_ne hname] at h
      exact (fs.remove source).bounded h
  separate := by
    -- Under another name than the target a file is not the one that was moved.
    have hother : ∀ {name file}, update fs.entry source none name = some file →
        fs.entry source ≠ some file := by
      intro name file h hsource
      by_cases hname : name = source
      · rw [hname, Function.update_self] at h
        cases h
      · rw [Function.update_of_ne hname] at h
        exact hname (fs.separate h hsource)
    intro name name' file h h'
    by_cases hname : name = target <;> by_cases hname' : name' = target
    · rw [hname, hname']
    · rw [hname, Function.update_self] at h
      rw [Function.update_of_ne hname'] at h'
      exact absurd h (hother h')
    · rw [hname', Function.update_self] at h'
      rw [Function.update_of_ne hname] at h
      exact absurd h' (hother h)
    · rw [Function.update_of_ne hname] at h
      rw [Function.update_of_ne hname'] at h'
      exact (fs.remove source).separate h h'

/-- A file that is created is there under its name. -/
@[simp] theorem entry_create_self : (fs.create name).entry name = some (fs.created name) :=
  Function.update_self ..

/-- No other name changes. -/
theorem entry_create_of_ne (h : other ≠ name) : (fs.create name).entry other = fs.entry other :=
  Function.update_of_ne h ..

/-- A file that is created is empty. -/
@[simp] theorem contents_create_self : (fs.create name).contents (fs.created name) = [] :=
  Function.update_self ..

/-- No other file changes. -/
theorem contents_create_of_ne (h : file ≠ fs.created name) :
    (fs.create name).contents file = fs.contents file :=
  Function.update_of_ne h ..

/-- A name that is removed is free. -/
@[simp] theorem entry_remove_self : (fs.remove name).entry name = none := Function.update_self ..

/-- No other name changes. -/
theorem entry_remove_of_ne (h : other ≠ name) : (fs.remove name).entry other = fs.entry other :=
  Function.update_of_ne h ..

/-- A renamed file is under the new name. -/
@[simp] theorem entry_rename_target {source target : N} :
    (fs.rename source target).entry target = fs.entry source :=
  Function.update_self ..

/-- No third name changes. -/
theorem entry_rename_of_ne {source target : N} (hsource : name ≠ source) (htarget : name ≠ target) :
    (fs.rename source target).entry name = fs.entry name := by
  unfold rename
  simp only [Function.update_of_ne htarget, Function.update_of_ne hsource]

/-- The old name is free. -/
theorem entry_rename_source {source target : N} (h : source ≠ target) :
    (fs.rename source target).entry source = none := by
  unfold rename
  simp only [Function.update_of_ne h, Function.update_self]

/-- A file keeps its contents when another one is created. -/
theorem read_create_of_ne (h : other ≠ name) : (fs.create name).read other = fs.read other := by
  unfold read
  rw [entry_create_of_ne h]
  cases hentry : fs.entry other with
  | none => rfl
  | some file => exact congrArg some (contents_create_of_ne (ne_created hentry h))

/-- Removing a name leaves what is read under another. -/
theorem read_remove_of_ne (h : other ≠ name) : (fs.remove name).read other = fs.read other := by
  unfold read
  rw [entry_remove_of_ne h]
  rfl

/-- Renaming leaves what is read under a third. -/
theorem read_rename_of_ne {source target : N} (hsource : name ≠ source) (htarget : name ≠ target) :
    (fs.rename source target).read name = fs.read name := by
  unfold read
  rw [entry_rename_of_ne hsource htarget]
  rfl

end FileSystem

end Storage
