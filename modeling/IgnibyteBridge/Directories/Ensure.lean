import IgnibyteBridge.Concurrency.Program
import IgnibyteBridge.SearchPath
import IgnibyteBridge.Storage.DirTree

/-!
# Private directories

`bridge_root_from`, `ensure_private_dir` and `ensure_bridge_dir` of `paths.rs`, call by
call, over a tree that nobody else changes. A kernel may refuse any call.
-/

namespace IgnibyteBridge.Directories

open Concurrency Storage Text

/-- The process that asks, and what it finds in its environment. -/
structure Caller where
  /-- `BaseDirs::home_dir`. -/
  homeDir : Option (List Char)
  /-- `IGNIBYTE_BRIDGE_HOME`. -/
  overrideRoot : Option (List Char)
  euid : ℕ
  umask : BitVec 32

/-- `bridge_root_from`. -/
def bridgeRootFrom (homeDir overrideRoot : Option (List Char)) : Except String (List Char) :=
  match overrideRoot with
  | some root =>
    if root.head? = some '/' then .ok root
    else .error s!"IGNIBYTE_BRIDGE_HOME must be an absolute path, got {String.ofList root}"
  | none =>
    match homeDir with
    | some home => .ok (joinPath home ".ignibyte-bridge".toList)
    | none => .error "failed to locate home directory"

/-- `bridge_root`. -/
def Caller.bridgeRoot (caller : Caller) : Except String (List Char) :=
  bridgeRootFrom caller.homeDir caller.overrideRoot

/-- What `symlink_metadata` tells about an inode. -/
structure LinkMetadata where
  isSymlink : Bool
  isDir : Bool
  uid : ℕ
  mode : BitVec 32

/-- The system calls. -/
inductive PathAct where
  | mkdir (path : RawPath) (mode : BitVec 32)
  | isDir (path : RawPath)
  | symlinkMetadata (path : RawPath)
  | geteuid
  | setPermissions (path : RawPath) (mode : BitVec 32)

namespace PathAct

/-- What a system call returns. -/
abbrev Response : PathAct → Type
  | mkdir .. => Except PathError Unit
  | isDir _ => Bool
  | symlinkMetadata _ => Option LinkMetadata
  | geteuid => ℕ
  | setPermissions .. => Bool

/-- A program that returns a `Result`. -/
abbrev Result (α : Type) := Fallible PathAct Response String α

/-- A system call. -/
abbrev call (a : PathAct) : Result a.Response := Fallible.perform a

end PathAct

open PathAct (call)

/-! ## The programs -/

/-- A path as errors print it. -/
def display (path : RawPath) : String := String.ofList ('/' :: ['/'].intercalate path)

/-- An error of `mkdir` does not count where a directory is. -/
def orIsDir (failure : String) (path : RawPath) : Except PathError Unit → PathAct.Result Unit
  | .ok () => pure ()
  | .error _ => do Fallible.ensure failure (← call (.isDir path))

/-- What recursive creation makes of its first `mkdir`. -/
def orRetry (failure : String) (path : RawPath) (retry : PathAct.Result Unit) :
    Except PathError Unit → PathAct.Result Unit
  | .error .notFound => retry
  | result => orIsDir failure path result

/-- `DirBuilder::create` of a recursive builder, for a path and the paths above it. Its
caller replaces any error by one of its own. -/
def createDirAll (failure : String) : RawPath → List RawPath → PathAct.Result Unit
  | path, [] => do orRetry failure path (throw failure) (← call (.mkdir path 0o700))
  | path, parent :: rest => do
    let retry := do
      createDirAll failure parent rest
      orIsDir failure path (← call (.mkdir path 0o700))
    orRetry failure path retry (← call (.mkdir path 0o700))

/-- The checks of `ensure_private_dir` on a directory. -/
def restrictDir (path : RawPath) (metadata : LinkMetadata) : PathAct.Result Unit := do
  let euid ← call .geteuid
  if metadata.uid ≠ euid then
    throw s!"refusing to use {display path}: owned by uid {metadata.uid} instead of current uid {euid}"
  else if metadata.mode &&& 0o077 ≠ 0 then
    Fallible.ensure s!"failed to restrict permissions on {display path}"
      (← call (.setPermissions path 0o700))
  else pure ()

/-- What `ensure_private_dir` checks once the directory is made. -/
def verifyPrivateDir (path : RawPath) : PathAct.Result Unit := do
  let metadata ← Fallible.orThrow s!"failed to inspect {display path}"
    (← call (.symlinkMetadata path))
  if metadata.isSymlink then
    throw s!"refusing to use {display path}: it is a symlink (possible tampering)"
  else if metadata.isDir then restrictDir path metadata
  else throw s!"refusing to use {display path}: not a directory"

/-- `ensure_private_dir`. -/
def ensurePrivateDir (path : RawPath) : PathAct.Result Unit := do
  createDirAll s!"failed to create {display path}" path (parents path)
  verifyPrivateDir path

/-- The components of an absolute path that `Path::components` yields behind the root. -/
def components (path : RawPath) : List (List Char) := path.filter fun c => !idle c

/-- The components of `Path::strip_prefix`. -/
def stripPrefix (path base : RawPath) : Option (List (List Char)) :=
  if (components base).isPrefixOf (components path) then
    some ((components path).drop (components base).length)
  else none

/-- The loop of `ensure_bridge_dir`. -/
def ensureBelow (current : RawPath) : List (List Char) → PathAct.Result Unit
  | [] => pure ()
  | component :: rest => do
    ensurePrivateDir (extended current component)
    ensureBelow (extended current component) rest

/-- `ensure_bridge_dir`. -/
def ensureBridgeDir (caller : Caller) (dir : List Char) : PathAct.Result Unit := do
  match caller.bridgeRoot with
  | .error e => throw e
  | .ok root =>
    ensurePrivateDir (rawPath root)
    let relative ← Fallible.orThrow
      s!"{String.ofList dir} is not inside the bridge root {String.ofList root}"
      (stripPrefix (rawPath dir) (rawPath root))
    ensureBelow (rawPath root) relative

/-! ## The kernel -/

namespace PathAct

/-- The metadata of an inode. -/
def metadataOf (t : DirTree) (i : ℕ) : LinkMetadata :=
  ⟨(t.inode i).node.isLink, t.isDir i, (t.inode i).uid, (t.inode i).mode⟩

/-- What a call does that is not refused. -/
def answer (caller : Caller) : (a : PathAct) → DirTree → a.Response × DirTree
  | mkdir path mode, t =>
    match t.mkdir path caller.euid (mode &&& ~~~caller.umask) with
    | .ok t' => (.ok (), t')
    | .error e => (.error e, t)
  | isDir path, t =>
    match t.walk path with
    | .ok i => (t.isDir i, t)
    | .error _ => (false, t)
  | symlinkMetadata path, t =>
    match t.locate path with
    | .ok i => (some (metadataOf t i), t)
    | .error _ => (none, t)
  | geteuid, t => (caller.euid, t)
  | setPermissions path mode, t =>
    match t.walk path with
    | .ok i => (true, t.setMode i mode)
    | .error _ => (false, t)

/-- What a call returns that is refused. `geteuid` never is. -/
def refusal (caller : Caller) : (a : PathAct) → a.Response
  | mkdir .. => .error .denied
  | isDir _ => false
  | symlinkMetadata _ => none
  | geteuid => caller.euid
  | setPermissions .. => false

end PathAct

/-- The tree, and how many calls have been made. -/
structure DiskState where
  tree : DirTree
  calls : ℕ

/-- A kernel that refuses the calls of these numbers. -/
def kernel (caller : Caller) (refused : ℕ → Bool) (a : PathAct) (s : DiskState) :
    a.Response × DiskState :=
  if refused s.calls then (a.refusal caller, { s with calls := s.calls + 1 })
  else ((a.answer caller s.tree).1, ⟨(a.answer caller s.tree).2, s.calls + 1⟩)

/-- `ensure_bridge_dir` on a tree: its result, and the tree that it leaves. -/
def runEnsureBridgeDir (caller : Caller) (refused : ℕ → Bool) (tree : DirTree)
    (dir : List Char) : Except String Unit × DirTree :=
  let (result, s) := (ensureBridgeDir caller dir).run.eval (kernel caller refused) ⟨tree, 0⟩
  (result, s.tree)

end IgnibyteBridge.Directories
