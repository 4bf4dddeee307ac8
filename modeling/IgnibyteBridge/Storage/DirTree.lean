import IgnibyteBridge.Text.RawPath
import Mathlib.Logic.Function.Basic

/-!
# Directory trees

Inodes, the resolution of paths over them, and the calls that make directories and
change modes. Resolution follows symlinks as a kernel does: every one of them on the
way, and at the end of the path for some calls only. Whatever makes no more than new
entries keeps every path that leads somewhere.
-/

namespace Storage

open Text

/-- What an inode is. An entry of a directory is a number of an inode. -/
inductive Node where
  | dir (parent : ℕ) (entries : List Char → Option ℕ)
  | link (absolute : Bool) (target : RawPath)
  | file

def Node.isDir : Node → Bool
  | .dir .. => true
  | _ => false

def Node.isLink : Node → Bool
  | .link .. => true
  | _ => false

structure Inode where
  node : Node
  uid : ℕ
  mode : BitVec 32

/-- A tree of directories. Its root is inode 0. -/
structure DirTree where
  inode : ℕ → Inode
  /-- A number no inode has yet. -/
  next : ℕ
  root_lt : 0 < next
  closed : ∀ {i parent entries}, (inode i).node = .dir parent entries →
    parent < next ∧ ∀ {c j}, entries c = some j → j < next

inductive PathError where
  | notFound
  | notDirectory
  | loop
  | alreadyExists
  | denied
  deriving DecidableEq

/-- A place in a tree, and how many symlinks a resolution may still follow. -/
structure Spot where
  inode : ℕ
  left : ℕ

namespace DirTree

variable {t t' t'' : DirTree} {p q : RawPath} {c : List Char} {i j n d : ℕ}

def isDir (t : DirTree) (i : ℕ) : Bool := (t.inode i).node.isDir

/-- The inode that one component leads to. -/
def child (t : DirTree) (i : ℕ) (c : List Char) : Except PathError ℕ :=
  match (t.inode i).node with
  | .dir parent entries =>
    if idle c then .ok i
    else if c = ['.', '.'] then .ok parent
    else match entries c with
      | some j => .ok j
      | none => .error .notFound
  | _ => .error .notDirectory

/-- A resolution up to its next symlink, where it jumps. -/
def pass (t : DirTree) (left : ℕ) (jump : ℕ → RawPath → Except PathError Spot) :
    ℕ → RawPath → Except PathError Spot
  | i, [] => .ok ⟨i, left⟩
  | i, c :: rest =>
    (t.child i c).bind fun j =>
      match (t.inode j).node with
      | .link absolute target => jump (if absolute then 0 else i) (target ++ rest)
      | _ => t.pass left jump j rest

/-- The resolution of a path from an inode, with at most `n` symlinks on the way. -/
def resolve (t : DirTree) : ℕ → ℕ → RawPath → Except PathError Spot
  | 0 => t.pass 0 fun _ _ => .error .loop
  | n + 1 => t.pass (n + 1) (t.resolve n)

/-- How many symlinks a kernel follows. -/
def maxLinks : ℕ := 40

/-- The inode a path leads to, a symlink at its end followed. -/
def walk (t : DirTree) (p : RawPath) : Except PathError ℕ :=
  (t.resolve maxLinks 0 p).map Spot.inode

/-- The inode a path leads to, a symlink at its end not followed. -/
def locate (t : DirTree) (p : RawPath) : Except PathError ℕ :=
  match p.getLast? with
  | none => t.walk p
  | some c => (t.walk p.dropLast).bind fun i => t.child i c

/-- A directory is at the end of the path. -/
def DirAt (t : DirTree) (p : RawPath) : Prop := ∃ i, t.walk p = .ok i ∧ t.isDir i = true

/-! ## What resolution does -/

/-- Only a directory has components below it. -/
theorem isDir_of_child_ne (h : t.child i c ≠ .error .notDirectory) : t.isDir i = true := by
  unfold child at h
  unfold isDir
  split at h
  · rename_i hnode
    rw [hnode]
    rfl
  · exact absurd rfl h

/-- Only a directory has entries. -/
theorem isDir_of_child (h : t.child i c = .ok j) : t.isDir i = true := by
  apply isDir_of_child_ne
  rw [h]
  simp

/-- A separator or a dot stays in its directory. -/
theorem child_idle (hi : t.isDir i = true) (hc : idle c = true) : t.child i c = .ok i := by
  unfold isDir Node.isDir at hi
  unfold child
  split at hi
  · exact if_pos hc
  · cases hi

/-- A directory in which nothing was found has no such entry. -/
theorem entries_of_notFound {parent : ℕ} {entries : List Char → Option ℕ}
    (hnode : (t.inode i).node = .dir parent entries) (h : t.child i c = .error .notFound) :
    entries c = none := by
  unfold child at h
  rw [hnode] at h
  dsimp only at h
  split_ifs at h
  cases hentry : entries c with
  | none => rfl
  | some j =>
    rw [hentry] at h
    cases h

/-- An entry is an inode of the tree. -/
theorem child_lt (hi : i < t.next) (h : t.child i c = .ok j) : j < t.next := by
  unfold child at h
  split at h
  · rename_i parent entries hnode
    split_ifs at h
    · cases h
      exact hi
    · cases h
      exact (t.closed hnode).1
    · split at h
      · rename_i k hk
        cases h
        exact (t.closed hnode).2 hk
      · cases h
  · cases h

/-- Where a resolution jumps that may follow `n` symlinks. -/
def jump (t : DirTree) : ℕ → ℕ → RawPath → Except PathError Spot
  | 0 => fun _ _ => .error .loop
  | n + 1 => t.resolve n

/-- A resolution passes over directories and jumps at symlinks. -/
theorem resolve_eq_pass (t : DirTree) (n : ℕ) : t.resolve n = t.pass n (t.jump n) := by
  cases n <;> rfl

/-- An empty path leads nowhere else. -/
@[simp] theorem resolve_nil : t.resolve n i [] = .ok ⟨i, n⟩ := by
  rw [resolve_eq_pass]
  rfl

/-- One component, and what follows it. -/
theorem resolve_cons (t : DirTree) (n i : ℕ) (c : List Char) (rest : RawPath) :
    t.resolve n i (c :: rest) = (t.child i c).bind fun j =>
      match (t.inode j).node with
      | .link absolute target => t.jump n (if absolute then 0 else i) (target ++ rest)
      | _ => t.resolve n j rest := by
  rw [resolve_eq_pass]
  rfl

/-- What one component can do to a resolution. -/
theorem child_cases (t : DirTree) (i : ℕ) (c : List Char) :
    (∃ e, t.child i c = .error e) ∨
    (∃ j absolute target, t.child i c = .ok j ∧ (t.inode j).node = .link absolute target) ∨
    (∃ j, t.child i c = .ok j ∧ (t.inode j).node.isLink = false) := by
  cases hchild : t.child i c with
  | error e => exact .inl ⟨e, rfl⟩
  | ok j =>
    right
    cases hnode : (t.inode j).node with
    | link absolute target => exact .inl ⟨j, absolute, target, rfl, hnode⟩
    | dir parent entries => exact .inr ⟨j, rfl, by rw [hnode]; rfl⟩
    | file => exact .inr ⟨j, rfl, by rw [hnode]; rfl⟩

section Components

variable {rest : RawPath}

/-- A component that leads nowhere ends the resolution. -/
theorem resolve_cons_error {e : PathError} (h : t.child i c = .error e) :
    t.resolve n i (c :: rest) = .error e := by
  rw [resolve_cons, h]
  rfl

/-- A symlink is followed from its directory, or from the root. -/
theorem resolve_cons_link {absolute : Bool} {target : RawPath} (h : t.child i c = .ok j)
    (hnode : (t.inode j).node = .link absolute target) :
    t.resolve n i (c :: rest) = t.jump n (if absolute then 0 else i) (target ++ rest) := by
  rw [resolve_cons, h]
  simp only [Except.bind, hnode]

/-- Anything else is where the resolution goes on. -/
theorem resolve_cons_of_not_link (h : t.child i c = .ok j)
    (hnode : (t.inode j).node.isLink = false) :
    t.resolve n i (c :: rest) = t.resolve n j rest := by
  rw [resolve_cons, h]
  simp only [Except.bind]
  split
  · rename_i hlink
    rw [hlink] at hnode
    cases hnode
  · rfl

end Components

/-- A longer path is resolved from where the shorter one leads. -/
theorem resolve_append (t : DirTree) (n i : ℕ) (p q : RawPath) :
    t.resolve n i (p ++ q) = (t.resolve n i p).bind fun s => t.resolve s.left s.inode q := by
  induction n using Nat.strongRecOn generalizing i p with
  | ind n ihn =>
    have hjump : ∀ i p, t.jump n i (p ++ q) =
        (t.jump n i p).bind fun s => t.resolve s.left s.inode q := by
      intro i p
      cases n with
      | zero => rfl
      | succ n => exact ihn n (Nat.lt_succ_self n) i p
    induction p generalizing i with
    | nil =>
      rw [resolve_nil]
      rfl
    | cons c p ih =>
      rw [List.cons_append]
      obtain ⟨e, hchild⟩ | ⟨j, absolute, target, hchild, hnode⟩ | ⟨j, hchild, hnode⟩ :=
        t.child_cases i c
      · rw [resolve_cons_error hchild, resolve_cons_error hchild]
        rfl
      · rw [resolve_cons_link hchild hnode, resolve_cons_link hchild hnode, ← List.append_assoc]
        exact hjump _ _
      · rw [resolve_cons_of_not_link hchild hnode, resolve_cons_of_not_link hchild hnode]
        exact ih j

/-- A resolution leads to an inode of the tree. -/
theorem resolve_lt (hi : i < t.next) {s : Spot} (h : t.resolve n i p = .ok s) :
    s.inode < t.next := by
  induction n using Nat.strongRecOn generalizing i p with
  | ind n ihn =>
    have hjump : ∀ i p, i < t.next → t.jump n i p = .ok s → s.inode < t.next := by
      intro i p hi h
      cases n with
      | zero => cases h
      | succ n => exact ihn n (Nat.lt_succ_self n) hi h
    induction p generalizing i with
    | nil =>
      rw [resolve_nil] at h
      cases h
      exact hi
    | cons c p ih =>
      obtain ⟨e, hchild⟩ | ⟨j, absolute, target, hchild, hnode⟩ | ⟨j, hchild, hnode⟩ :=
        t.child_cases i c
      · rw [resolve_cons_error hchild] at h
        cases h
      · rw [resolve_cons_link hchild hnode] at h
        apply hjump _ _ _ h
        split_ifs
        · exact t.root_lt
        · exact hi
      · rw [resolve_cons_of_not_link hchild hnode] at h
        exact ih (child_lt hi hchild) h

/-- A path is walked by resolving it from the root. -/
theorem walk_eq_ok : t.walk p = .ok i ↔ ∃ n, t.resolve maxLinks 0 p = .ok ⟨i, n⟩ := by
  unfold walk
  constructor
  · intro h
    cases hresolve : t.resolve maxLinks 0 p with
    | error e =>
      rw [hresolve] at h
      cases h
    | ok s =>
      rw [hresolve] at h
      cases h
      exact ⟨s.left, rfl⟩
  · rintro ⟨n, hn⟩
    rw [hn]
    rfl

/-- A path leads to an inode of the tree. -/
theorem walk_lt (h : t.walk p = .ok i) : i < t.next := by
  obtain ⟨n, hn⟩ := walk_eq_ok.mp h
  exact resolve_lt t.root_lt hn

/-- A path whose last symlink is not followed leads to an inode of the tree. -/
theorem locate_lt (h : t.locate p = .ok i) : i < t.next := by
  unfold locate at h
  split at h
  · exact walk_lt h
  · cases hwalk : t.walk p.dropLast with
    | error e =>
      rw [hwalk] at h
      cases h
    | ok d =>
      rw [hwalk] at h
      exact child_lt (walk_lt hwalk) h

/-- The start of a path that leads somewhere leads somewhere, and to a directory if
the path goes on from there. -/
theorem walk_append (h : t.walk (p ++ q) = .ok i) :
    ∃ j, t.walk p = .ok j ∧ (q ≠ [] → t.isDir j = true) := by
  obtain ⟨n, hn⟩ := walk_eq_ok.mp h
  rw [resolve_append] at hn
  cases hresolve : t.resolve maxLinks 0 p with
  | error e =>
    rw [hresolve] at hn
    cases hn
  | ok s =>
    refine ⟨s.inode, walk_eq_ok.mpr ⟨s.left, hresolve⟩, fun hq => ?_⟩
    obtain ⟨c, rest, rfl⟩ := List.exists_cons_of_ne_nil hq
    cases hchild : t.child s.inode c with
    | ok j => exact isDir_of_child hchild
    | error e =>
      rw [hresolve, Except.bind, resolve_cons_error hchild] at hn
      cases hn

/-- The last component of a path is an entry of where the others lead. -/
theorem locate_concat (t : DirTree) (p : RawPath) (c : List Char) :
    t.locate (p ++ [c]) = (t.walk p).bind fun i => t.child i c := by
  simp [locate]

/-- A symlink at the end is followed, and nothing else is. -/
theorem walk_concat_of_not_link {n : ℕ} (h : t.resolve maxLinks 0 p = .ok ⟨d, n⟩)
    (hchild : t.child d c = .ok j) (hlink : (t.inode j).node.isLink = false) :
    t.walk (p ++ [c]) = .ok j := by
  apply walk_eq_ok.mpr
  refine ⟨n, ?_⟩
  rw [resolve_append, h, Except.bind, resolve_cons_of_not_link hchild hlink, resolve_nil]

/-- What lies at the end of a path that leads somewhere. -/
theorem walk_concat (h : t.walk (p ++ [c]) = .ok i) :
    ∃ d j, t.walk p = .ok d ∧ t.child d c = .ok j ∧ ((t.inode j).node.isLink = false → j = i) := by
  obtain ⟨d, hd, -⟩ := walk_append h
  obtain ⟨n, hn⟩ := walk_eq_ok.mp hd
  cases hchild : t.child d c with
  | error e =>
    obtain ⟨m, hm⟩ := walk_eq_ok.mp h
    rw [resolve_append, hn, Except.bind, resolve_cons_error hchild] at hm
    cases hm
  | ok j =>
    refine ⟨d, j, hd, hchild, fun hlink => ?_⟩
    rw [walk_concat_of_not_link hn hchild hlink] at h
    exact Except.ok.inj h

/-- What a path leads to begins with something at its end. -/
theorem locate_of_walk (h : t.walk p = .ok i) : ∃ j, t.locate p = .ok j := by
  induction p using List.reverseRecOn with
  | nil => exact ⟨i, h⟩
  | append_singleton p c _ =>
    obtain ⟨d, j, hwalk, hchild, -⟩ := walk_concat h
    refine ⟨j, ?_⟩
    rw [locate_concat, hwalk]
    exact hchild

/-- A path to something that is no symlink is not followed any further. -/
theorem walk_of_locate (h : t.locate p = .ok i) (hlink : (t.inode i).node.isLink = false) :
    t.walk p = .ok i := by
  induction p using List.reverseRecOn with
  | nil => exact h
  | append_singleton p c _ =>
    rw [locate_concat] at h
    cases hwalk : t.walk p with
    | error e =>
      rw [hwalk] at h
      cases h
    | ok d =>
      rw [hwalk] at h
      obtain ⟨n, hn⟩ := walk_eq_ok.mp hwalk
      exact walk_concat_of_not_link hn h hlink

/-- A directory is no symlink. -/
theorem isLink_of_isDir (h : t.isDir i = true) : (t.inode i).node.isLink = false := by
  unfold isDir at h
  cases hnode : (t.inode i).node with
  | dir parent entries => rfl
  | link absolute target =>
    rw [hnode] at h
    cases h
  | file => rfl

/-- A separator or a dot at the end leads to the same place, if it is a directory. -/
theorem walk_concat_idle (hc : idle c = true) :
    t.walk (p ++ [c]) = .ok i ↔ t.walk p = .ok i ∧ t.isDir i = true := by
  constructor
  · intro h
    obtain ⟨d, j, hwalk, hchild, hlink⟩ := walk_concat h
    have hd : t.isDir d = true := isDir_of_child hchild
    rw [child_idle hd hc] at hchild
    cases hchild
    obtain rfl := hlink (isLink_of_isDir hd)
    exact ⟨hwalk, hd⟩
  · rintro ⟨hwalk, hdir⟩
    apply walk_of_locate _ (isLink_of_isDir hdir)
    rw [locate_concat, hwalk]
    exact child_idle hdir hc

/-- A path leads to the same place without its end of separators and dots. -/
theorem walk_trimmed (h : t.walk p = .ok i) : t.walk (trimmed p) = .ok i := by
  induction p using List.reverseRecOn with
  | nil => exact h
  | append_singleton p c ih =>
    unfold trimmed
    rw [List.rdropWhile_concat]
    split_ifs with hc
    · exact ih ((walk_concat_idle hc).mp h).1
    · exact h

/-- If a path without its end of separators and dots leads to a directory, the whole path leads
there. -/
theorem walk_of_trimmed (h : t.walk (trimmed p) = .ok i) (hdir : t.isDir i = true) :
    t.walk p = .ok i := by
  induction p using List.reverseRecOn with
  | nil => exact h
  | append_singleton p c ih =>
    unfold trimmed at h
    rw [List.rdropWhile_concat] at h
    split_ifs at h with hc
    · exact (walk_concat_idle hc).mpr ⟨ih h, hdir⟩
    · exact h

end DirTree

/-! ## Growth -/

/-- A directory keeps its entries, and anything else stays as it is. -/
def Node.Grows : Node → Node → Prop
  | .dir parent entries, node =>
    ∃ entries', node = .dir parent entries' ∧ ∀ c j, entries c = some j → entries' c = some j
  | .link absolute target, node => node = .link absolute target
  | .file, node => node = .file

/-- A node that is unchanged has grown by nothing. -/
theorem Node.Grows.refl (node : Node) : node.Grows node := by
  cases node with
  | dir parent entries => exact ⟨entries, rfl, fun _ _ => id⟩
  | link absolute target => rfl
  | file => rfl

/-- A node may grow twice. -/
theorem Node.Grows.trans {node node' node'' : Node} (h : node.Grows node')
    (h' : node'.Grows node'') : node.Grows node'' := by
  cases node with
  | dir parent entries =>
    obtain ⟨entries', rfl, hentries⟩ := h
    obtain ⟨entries'', rfl, hentries'⟩ := h'
    exact ⟨entries'', rfl, fun c j hj => hentries' c j (hentries c j hj)⟩
  | link absolute target =>
    obtain rfl : node' = .link absolute target := h
    exact h'
  | file =>
    obtain rfl : node' = .file := h
    exact h'

/-- A node with one more entry, if it is a directory. -/
def Node.withEntry (node : Node) (c : List Char) (i : ℕ) : Node :=
  match node with
  | .dir parent entries => .dir parent (Function.update entries c (some i))
  | node => node

/-- A directory with one more entry was a directory without it. -/
theorem Node.withEntry_eq_dir {node : Node} {c : List Char} {i parent : ℕ}
    {entries : List Char → Option ℕ} (h : node.withEntry c i = .dir parent entries) :
    ∃ old, node = .dir parent old ∧ entries = Function.update old c (some i) := by
  cases node with
  | dir parent' old =>
    cases h
    exact ⟨old, rfl, rfl⟩
  | link absolute target => cases h
  | file => cases h

/-- A new name replaces nothing. -/
theorem Node.grows_withEntry {node : Node} {c : List Char} {i : ℕ}
    (h : ∀ parent entries, node = .dir parent entries → entries c = none) :
    node.Grows (node.withEntry c i) := by
  cases node with
  | dir parent entries =>
    refine ⟨_, rfl, fun c' j hj => ?_⟩
    have hc : c' ≠ c := by
      rintro rfl
      rw [h parent entries rfl] at hj
      cases hj
    rw [Function.update_of_ne hc]
    exact hj
  | link absolute target => rfl
  | file => rfl

/-- Growing makes no directory of anything else. -/
theorem Node.Grows.isDir_eq {node node' : Node} (h : node.Grows node') :
    node'.isDir = node.isDir := by
  cases node with
  | dir parent entries =>
    obtain ⟨entries', rfl, -⟩ := h
    rfl
  | link absolute target =>
    obtain rfl : node' = .link absolute target := h
    rfl
  | file =>
    obtain rfl : node' = .file := h
    rfl

namespace DirTree

/-- The second tree has what the first one has, with the same owners, and with the
same modes but for those of `A`. -/
structure Grows (A : ℕ → Prop) (t t' : DirTree) : Prop where
  next_le : t.next ≤ t'.next
  node : ∀ {i}, i < t.next → (t.inode i).node.Grows (t'.inode i).node
  uid : ∀ {i}, i < t.next → (t'.inode i).uid = (t.inode i).uid
  mode : ∀ {i}, i < t.next → (t'.inode i).mode = (t.inode i).mode ∨ A i

variable {A B : ℕ → Prop} {t t' t'' : DirTree} {p q : RawPath} {c : List Char} {i j n d uid : ℕ}
  {mode : BitVec 32}

/-- A tree that is unchanged has grown by nothing. -/
theorem Grows.refl (A : ℕ → Prop) (t : DirTree) : Grows A t t :=
  ⟨le_rfl, fun _ => Node.Grows.refl _, fun _ => rfl, fun _ => .inl rfl⟩

/-- A tree may grow twice. -/
theorem Grows.trans (h : Grows A t t') (h' : Grows A t' t'') : Grows A t t'' := by
  constructor
  · exact h.next_le.trans h'.next_le
  · intro i hi
    exact (h.node hi).trans (h'.node (hi.trans_le h.next_le))
  · intro i hi
    rw [h'.uid (hi.trans_le h.next_le), h.uid hi]
  · intro i hi
    rcases h'.mode (hi.trans_le h.next_le) with hmode | hA
    · rw [hmode]
      exact h.mode hi
    · exact .inr hA

/-- A tree in which fewer modes changed has grown. -/
theorem Grows.mono (h : Grows A t t') (hAB : ∀ i, A i → B i) : Grows B t t' :=
  ⟨h.next_le, h.node, h.uid, fun hi => (h.mode hi).imp_right (hAB _)⟩

/-- Directories stay directories, and nothing else becomes one. -/
theorem Grows.isDir_eq (h : Grows A t t') (hi : i < t.next) : t'.isDir i = t.isDir i :=
  (h.node hi).isDir_eq

/-- A component that leads somewhere, or to an error other than that nothing is there. -/
theorem Grows.child (h : Grows A t t') (hi : i < t.next) (hc : t.child i c ≠ .error .notFound) :
    t'.child i c = t.child i c := by
  have hnode := h.node hi
  unfold DirTree.child at hc ⊢
  cases hold : (t.inode i).node with
  | link absolute target =>
    rw [hold] at hnode
    rw [show (t'.inode i).node = .link absolute target from hnode]
  | file =>
    rw [hold] at hnode
    rw [show (t'.inode i).node = .file from hnode]
  | dir parent entries =>
    rw [hold] at hnode hc
    obtain ⟨entries', hnew, hentries⟩ := hnode
    rw [hnew]
    simp only at hc ⊢
    split_ifs at hc ⊢
    · rfl
    · rfl
    · cases hentry : entries c with
      | some j => rw [hentries c j hentry]
      | none =>
        rw [hentry] at hc
        exact absurd rfl hc

/-- A path that leads somewhere still leads there. -/
theorem Grows.resolve (h : Grows A t t') (hi : i < t.next)
    (hp : t.resolve n i p ≠ .error .notFound) : t'.resolve n i p = t.resolve n i p := by
  induction n using Nat.strongRecOn generalizing i p with
  | ind n ihn =>
    have hjump : ∀ {i p}, i < t.next → t.jump n i p ≠ .error .notFound →
        t'.jump n i p = t.jump n i p := by
      intro i p hi hp
      cases n with
      | zero => rfl
      | succ n => exact ihn n (Nat.lt_succ_self n) hi hp
    induction p generalizing i with
    | nil => rw [resolve_nil, resolve_nil]
    | cons c p ih =>
      have hsome : t.child i c ≠ .error .notFound := by
        intro hchild
        exact hp (resolve_cons_error hchild)
      have hsame := h.child hi hsome
      obtain ⟨e, hchild⟩ | ⟨j, absolute, target, hchild, hnode⟩ | ⟨j, hchild, hnode⟩ :=
        t.child_cases i c
      · rw [hchild] at hsame
        rw [resolve_cons_error hchild, resolve_cons_error hsame]
      · have hj := h.node (child_lt hi hchild)
        rw [hnode] at hj
        rw [hchild] at hsame
        rw [resolve_cons_link hchild hnode] at hp ⊢
        rw [resolve_cons_link hsame hj]
        apply hjump _ hp
        split_ifs
        · exact t.root_lt
        · exact hi
      · have hj : (t'.inode j).node.isLink = false := by
          have hgrows := h.node (child_lt hi hchild)
          cases hold : (t.inode j).node with
          | link absolute target =>
            rw [hold] at hnode
            cases hnode
          | dir parent entries =>
            rw [hold] at hgrows
            obtain ⟨entries', hnew, -⟩ := hgrows
            rw [hnew]
            rfl
          | file =>
            rw [hold] at hgrows
            rw [show (t'.inode j).node = .file from hgrows]
            rfl
        rw [hchild] at hsame
        rw [resolve_cons_of_not_link hchild hnode] at hp ⊢
        rw [resolve_cons_of_not_link hsame hj]
        exact ih (child_lt hi hchild) hp

/-- A path leads where it led, unless it led nowhere. -/
theorem Grows.walk (h : Grows A t t') (hp : t.walk p ≠ .error .notFound) :
    t'.walk p = t.walk p := by
  unfold DirTree.walk at hp ⊢
  rw [h.resolve t.root_lt]
  intro hresolve
  rw [hresolve] at hp
  exact hp rfl

/-- A path whose last symlink is not followed leads where it led, unless it led nowhere. -/
theorem Grows.locate (h : Grows A t t') (hp : t.locate p ≠ .error .notFound) :
    t'.locate p = t.locate p := by
  induction p using List.reverseRecOn with
  | nil => exact h.walk hp
  | append_singleton p c _ =>
    rw [locate_concat] at hp ⊢
    rw [locate_concat]
    cases hwalk : t.walk p with
    | error e =>
      rw [hwalk] at hp
      rw [h.walk, hwalk]
      · rfl
      · rw [hwalk]
        exact hp
    | ok d =>
      have hwalk' : t'.walk p = .ok d := by
        rw [h.walk, hwalk]
        intro hcontra
        rw [hwalk] at hcontra
        cases hcontra
      rw [hwalk] at hp
      rw [hwalk']
      exact h.child (walk_lt hwalk) hp

/-- What was at the end of a path is still there. -/
theorem Grows.locate_ok (h : Grows A t t') (hp : t.locate p = .ok i) : t'.locate p = .ok i := by
  rw [h.locate, hp]
  intro hcontra
  rw [hp] at hcontra
  cases hcontra

/-! ## What lies on the way -/

/-- On the way to the last component of a path there are directories. -/
theorem walk_on_way (h : t.locate p = .ok i) (hq : q <+: p) (hne : q ≠ p) :
    ∃ j, t.walk q = .ok j ∧ t.isDir j = true := by
  induction p using List.reverseRecOn with
  | nil => exact absurd (List.prefix_nil.mp hq) hne
  | append_singleton p c _ =>
    rw [locate_concat] at h
    cases hwalk : t.walk p with
    | error e =>
      rw [hwalk] at h
      cases h
    | ok d =>
      rw [hwalk] at h
      obtain rfl | ⟨rest, rfl⟩ := (List.prefix_concat_iff.mp hq)
      · exact absurd rfl hne
      · by_cases hrest : rest = []
        · subst hrest
          rw [List.append_nil] at hwalk
          exact ⟨d, hwalk, isDir_of_child h⟩
        · obtain ⟨j, hj, hdir⟩ := walk_append hwalk
          exact ⟨j, hj, hdir hrest⟩

/-- Something lies at the end of each start of a path. -/
theorem locate_on_way (h : t.locate p = .ok i) (hq : q <+: p) : ∃ j, t.locate q = .ok j := by
  by_cases hne : q = p
  · exact ⟨i, hne ▸ h⟩
  · obtain ⟨j, hj, -⟩ := walk_on_way h hq hne
    exact locate_of_walk hj

/-! ## Changes -/

/-- A tree with another mode of one inode. -/
def setMode (t : DirTree) (i : ℕ) (mode : BitVec 32) : DirTree where
  inode j := if j = i then { t.inode j with mode := mode } else t.inode j
  next := t.next
  root_lt := t.root_lt
  closed := by
    intro j parent entries h
    apply t.closed (i := j)
    split_ifs at h <;> exact h

/-- A change of a mode changes no node. -/
theorem node_setMode (t : DirTree) (i j : ℕ) (mode : BitVec 32) :
    ((t.setMode i mode).inode j).node = (t.inode j).node := by
  unfold setMode
  dsimp only
  split_ifs <;> rfl

/-- A change of a mode changes no owner. -/
theorem uid_setMode (t : DirTree) (i j : ℕ) (mode : BitVec 32) :
    ((t.setMode i mode).inode j).uid = (t.inode j).uid := by
  unfold setMode
  dsimp only
  split_ifs <;> rfl

/-- A change of a mode changes the mode of that inode. -/
theorem mode_setMode_self (t : DirTree) (i : ℕ) (mode : BitVec 32) :
    ((t.setMode i mode).inode i).mode = mode := by
  unfold setMode
  dsimp only
  rw [if_pos rfl]

/-- A change of a mode changes the mode of no other inode. -/
theorem mode_setMode_of_ne (h : j ≠ i) :
    ((t.setMode i mode).inode j).mode = (t.inode j).mode := by
  unfold setMode
  dsimp only
  rw [if_neg h]

/-- A tree grows by a change of a mode. -/
theorem grows_setMode (h : A i) : Grows A t (t.setMode i mode) := by
  constructor
  · exact le_rfl
  · intro j _
    rw [node_setMode]
    exact Node.Grows.refl _
  · intro j _
    exact uid_setMode t i j mode
  · intro j _
    by_cases hj : j = i
    · exact .inr (hj ▸ h)
    · exact .inl (mode_setMode_of_ne hj)

/-- A tree grows when the change of a mode is taken back. -/
theorem setMode_grows (h : A i) : Grows A (t.setMode i mode) t := by
  constructor
  · exact le_rfl
  · intro j _
    rw [node_setMode]
    exact Node.Grows.refl _
  · intro j _
    exact (uid_setMode t i j mode).symm
  · intro j _
    by_cases hj : j = i
    · exact .inr (hj ▸ h)
    · exact .inl (mode_setMode_of_ne hj).symm

/-- A tree with a new directory. -/
def create (t : DirTree) (d : ℕ) (c : List Char) (uid : ℕ) (mode : BitVec 32)
    (hd : d < t.next) : DirTree where
  inode i :=
    if i = t.next then ⟨.dir d fun _ => none, uid, mode⟩
    else if i = d then { t.inode i with node := (t.inode i).node.withEntry c t.next }
    else t.inode i
  next := t.next + 1
  root_lt := Nat.succ_pos _
  closed := by
    intro i parent entries h
    split_ifs at h with hnew hdir
    · cases h
      exact ⟨Nat.lt_succ_of_lt hd, fun h => by cases h⟩
    · obtain ⟨old, hnode, rfl⟩ := Node.withEntry_eq_dir h
      obtain ⟨hparent, hentries⟩ := t.closed hnode
      refine ⟨Nat.lt_succ_of_lt hparent, fun {c' j} hj => ?_⟩
      by_cases hc : c' = c
      · subst hc
        rw [Function.update_self] at hj
        cases hj
        exact Nat.lt_succ_self _
      · rw [Function.update_of_ne hc] at hj
        exact Nat.lt_succ_of_lt (hentries hj)
    · obtain ⟨hparent, hentries⟩ := t.closed h
      exact ⟨Nat.lt_succ_of_lt hparent, fun hj => Nat.lt_succ_of_lt (hentries hj)⟩

/-- Nothing is lost by a directory under a new name. -/
theorem grows_create (hd : d < t.next) (h : t.child d c = .error .notFound) :
    Grows A t (t.create d c uid mode hd) := by
  have hne : ∀ {i}, i < t.next → i ≠ t.next := fun hi => Nat.ne_of_lt hi
  constructor
  · exact Nat.le_succ _
  · intro i hi
    unfold create
    dsimp only
    rw [if_neg (hne hi)]
    split_ifs with hdir
    · subst hdir
      apply Node.grows_withEntry
      intro parent entries hnode
      exact entries_of_notFound hnode h
    · exact Node.Grows.refl _
  · intro i hi
    unfold create
    dsimp only
    rw [if_neg (hne hi)]
    split_ifs <;> rfl
  · intro i hi
    left
    unfold create
    dsimp only
    rw [if_neg (hne hi)]
    split_ifs <;> rfl

/-- `mkdir`. Separators at the end of the path are not read. -/
def mkdir (t : DirTree) (p : RawPath) (uid : ℕ) (mode : BitVec 32) : Except PathError DirTree :=
  match (unslashed p).getLast? with
  | none => .error .alreadyExists
  | some c =>
    match h : t.walk (holder p) with
    | .error e => .error e
    | .ok d =>
      match t.child d c with
      | .ok _ => .error .alreadyExists
      | .error .notFound => .ok (t.create d c uid mode (walk_lt h))
      | .error e => .error e

/-- What `mkdir` can do: it finds something, the way is blocked, or it makes a directory. -/
theorem mkdir_cases (t : DirTree) (p : RawPath) (uid : ℕ) (mode : BitVec 32) :
    (t.mkdir p uid mode = .error .alreadyExists ∧ ∃ i, t.locate (unslashed p) = .ok i) ∨
    (∃ e, t.mkdir p uid mode = .error e ∧ t.locate (unslashed p) = .error e ∧
      (e = .notFound → t.walk (holder p) = .error e)) ∨
    (∃ d t', t.walk (holder p) = .ok d ∧ t.isDir d = true ∧
      t.locate (unslashed p) = .error .notFound ∧ t.mkdir p uid mode = .ok t' ∧
      (∀ A, Grows A t t') ∧ t'.next = t.next + 1) := by
  unfold mkdir
  cases hlast : (unslashed p).getLast? with
  | none =>
    rw [List.getLast?_eq_none_iff] at hlast
    rw [hlast]
    exact .inl ⟨rfl, 0, rfl⟩
  | some c =>
    have hlocate : t.locate (unslashed p) =
        (t.walk (holder p)).bind fun i => t.child i c := by
      unfold locate
      rw [hlast]
      rfl
    dsimp only
    split
    · rename_i e hwalk
      rw [hwalk] at hlocate
      exact .inr (.inl ⟨e, rfl, hlocate, fun _ => hwalk⟩)
    · rename_i d hwalk
      have hsame : t.locate (unslashed p) = t.child d c := by
        rw [hlocate, hwalk]
        rfl
      rw [hsame]
      cases hchild : t.child d c with
      | ok j => exact .inl ⟨rfl, j, rfl⟩
      | error e =>
        right
        cases e with
        | notFound =>
          have hdir : t.isDir d = true := isDir_of_child_ne (c := c) (by simp [hchild])
          exact .inr ⟨d, _, hwalk, hdir, rfl, rfl,
            fun A => grows_create _ hchild, rfl⟩
        | notDirectory | loop | alreadyExists | denied => exact .inl ⟨_, rfl, rfl, fun h => by cases h⟩

/-- A name that a directory does not have yet. -/
theorem mkdir_of_missing {base : RawPath} {e : PathError} (hd : t.walk base = .ok d)
    (hdir : t.isDir d = true) (hc : IsName c) (h : t.locate (base ++ [c]) = .error e) :
    ∃ t', t.mkdir (base ++ [c]) uid mode = .ok t' ∧ t'.next = t.next + 1 := by
  have hpath : unslashed (base ++ [c]) = base ++ [c] := unslashed_append hc.ne_nil base
  have hholder : holder (base ++ [c]) = base := by
    rw [holder, hpath, List.dropLast_concat]
  have hchild : t.child d c = .error .notFound := by
    rw [locate_concat, hd] at h
    have hsome : t.child d c = .error e := h
    unfold child at hsome ⊢
    unfold isDir Node.isDir at hdir
    split at hsome
    · rename_i hnode
      rw [if_neg (by simp [idle_of_isName hc]), if_neg hc.ne_dots] at hsome ⊢
      split at hsome
      · cases hsome
      · rfl
    · rename_i hnode
      split at hdir
      · rename_i hnode'
        exact absurd hnode' (hnode _ _)
      · cases hdir
  obtain ⟨-, i, hi⟩ | ⟨e', -, hlocate, hnone⟩ | ⟨d', t', -, -, -, hmkdir, -, hnext⟩ :=
    t.mkdir_cases (base ++ [c]) uid mode
  · rw [hpath, h] at hi
    cases hi
  · rw [hpath, locate_concat, hd] at hlocate
    rw [show e' = .notFound from Except.error.inj (hlocate.symm.trans hchild), hholder, hd] at hnone
    exact absurd (hnone rfl) (by simp)
  · exact ⟨t', hmkdir, hnext⟩

/-- What is there already is not made again. -/
theorem mkdir_of_locate (h : t.locate (unslashed p) = .ok i) :
    t.mkdir p uid mode = .error .alreadyExists := by
  obtain ⟨hmkdir, -⟩ | ⟨e, -, hnone, -⟩ | ⟨d, t', -, -, hnone, -⟩ := t.mkdir_cases p uid mode
  · exact hmkdir
  · rw [hnone] at h
    cases h
  · rw [hnone] at h
    cases h

/-! ## Making a path -/

section Make

variable (uid : ℕ) (mode : BitVec 32)

/-- A tree in which a directory is made if that is possible. -/
def made (t : DirTree) (p : RawPath) : DirTree :=
  match t.mkdir p uid mode with
  | .ok t' => t'
  | .error _ => t

/-- A tree in which the directories of a list are made, from the last one on. -/
def makeAll (t : DirTree) : List RawPath → DirTree
  | [] => t
  | p :: ps => (t.makeAll ps).made uid mode p

variable {uid mode} {ps qs : List RawPath}

/-- A directory that can be made is made. -/
theorem made_of_ok (h : t.mkdir p uid mode = .ok t') : t.made uid mode p = t' := by
  unfold made
  rw [h]

/-- One that cannot be made changes nothing. -/
theorem made_of_error {e : PathError} (h : t.mkdir p uid mode = .error e) :
    t.made uid mode p = t := by
  unfold made
  rw [h]

/-- A tree grows by a directory that is made. -/
theorem grows_made (A : ℕ → Prop) (t : DirTree) (p : RawPath) :
    Grows A t (t.made uid mode p) := by
  obtain ⟨hmkdir, -⟩ | ⟨e, hmkdir, -⟩ | ⟨d, t', -, -, -, hmkdir, hgrows, -⟩ :=
    t.mkdir_cases p uid mode
  · rw [made_of_error hmkdir]
    exact Grows.refl A t
  · rw [made_of_error hmkdir]
    exact Grows.refl A t
  · rw [made_of_ok hmkdir]
    exact hgrows A

/-- The last directories of a list are made first. -/
theorem makeAll_append (t : DirTree) (ps qs : List RawPath) :
    t.makeAll uid mode (ps ++ qs) = (t.makeAll uid mode qs).makeAll uid mode ps := by
  induction ps with
  | nil => rfl
  | cons p ps ih =>
    rw [List.cons_append, makeAll, ih]
    rfl

/-- A tree grows by the directories of a list. -/
theorem grows_makeAll (A : ℕ → Prop) (t : DirTree) (ps : List RawPath) :
    Grows A t (t.makeAll uid mode ps) := by
  induction ps with
  | nil => exact Grows.refl A t
  | cons p ps ih => exact ih.trans (grows_made A _ p)

/-- What is made on the way is there at the end. -/
theorem makeAll_grows (A : ℕ → Prop) (t : DirTree) (h : qs <:+ ps) :
    Grows A (t.makeAll uid mode qs) (t.makeAll uid mode ps) := by
  obtain ⟨rest, rfl⟩ := h
  rw [makeAll_append]
  exact grows_makeAll A _ rest

/-- Nothing is made where everything is there. -/
theorem makeAll_of_locate (h : ∀ p ∈ ps, ∃ i, t.locate (unslashed p) = .ok i) :
    t.makeAll uid mode ps = t := by
  induction ps with
  | nil => rfl
  | cons p ps ih =>
    have hps := ih fun q hq => h q (List.mem_cons_of_mem _ hq)
    obtain ⟨i, hi⟩ := h p List.mem_cons_self
    rw [makeAll, hps]
    exact made_of_error (mkdir_of_locate hi)

/-- Nothing is made above a path that can be read up to its last component. -/
theorem makeAll_parents (h : t.walk (holder p) = .ok i) (hps : ∀ q ∈ ps, q <+: holder p) :
    t.makeAll uid mode ps = t := by
  apply makeAll_of_locate
  intro q hq
  obtain ⟨rest, hrest⟩ := (unslashed_isPrefix q).trans (hps q hq)
  rw [← hrest] at h
  obtain ⟨j, hj, -⟩ := walk_append h
  exact locate_of_walk hj

/-- Nothing is made on a path to something that is there. -/
theorem makeAll_cons_of_locate (h : t.locate p = .ok i) (hps : ∀ q ∈ ps, q <+: holder p) :
    t.makeAll uid mode (p :: ps) = t := by
  have hholder : holder p <+: p := ( List.dropLast_prefix _).trans (unslashed_isPrefix p)
  apply makeAll_of_locate
  intro q hq
  rcases List.mem_cons.mp hq with rfl | hq
  · exact locate_on_way h (unslashed_isPrefix _)
  · exact locate_on_way h ((unslashed_isPrefix q).trans ((hps q hq).trans hholder))

/-- A path that can be read is read up to its last component. -/
theorem locate_unslashed (h : t.walk p = .ok i) : ∃ j, t.locate (unslashed p) = .ok j := by
  obtain ⟨rest, hrest⟩ := unslashed_isPrefix p
  rw [← hrest] at h
  obtain ⟨j, hj, -⟩ := walk_append h
  exact locate_of_walk hj

/-- Where making a path is blocked nothing is made that leads to it. -/
theorem dirAt_of_makeAll {e : PathError} (hmkdir : t.mkdir p uid mode = .error e)
    (he : e ≠ .notFound) (hps : ∀ q ∈ ps, q <+: holder p)
    (h : (t.makeAll uid mode (p :: ps)).DirAt p) : t.DirAt p := by
  obtain ⟨-, i, hi⟩ | ⟨e', hmkdir', herror, -⟩ | ⟨d, t₁, -, -, -, hok, -⟩ := t.mkdir_cases p uid mode
  · have hsame : t.makeAll uid mode (p :: ps) = t := by
      apply makeAll_of_locate
      intro q hq
      rcases List.mem_cons.mp hq with rfl | hq
      · exact ⟨i, hi⟩
      · exact locate_on_way hi
          ((unslashed_isPrefix q).trans ((hps q hq).trans ( List.dropLast_prefix _)))
    rwa [hsame] at h
  · rw [hmkdir'] at hmkdir
    cases hmkdir
    obtain ⟨i, hi, -⟩ := h
    obtain ⟨j, hj⟩ := locate_unslashed hi
    rw [(grows_makeAll (fun _ => False) t (p :: ps)).locate] at hj
    · rw [herror] at hj
      cases hj
    · rw [herror]
      intro hcontra
      cases hcontra
      exact he rfl
  · rw [hok] at hmkdir
    cases hmkdir

/-- A directory that is made or there has directories above it. -/
theorem dirAt_above (hq : q <+: holder p) (hne : unslashed p ≠ [])
    (h : (t.made uid mode p).DirAt p) : t.DirAt q := by
  have hlength : (holder p).length < (unslashed p).length := by
    have hpos := List.length_pos_of_ne_nil hne
    unfold holder
    rw [List.length_dropLast]
    omega
  have hfound : t.DirAt p → t.DirAt q := by
    rintro ⟨i, hi, -⟩
    have hstart : q <+: p := (hq.trans ( List.dropLast_prefix _)).trans (unslashed_isPrefix p)
    obtain ⟨rest, hrest⟩ := hstart
    rw [← hrest] at hi
    obtain ⟨j, hj, hdir⟩ := walk_append hi
    refine ⟨j, hj, hdir ?_⟩
    rintro rfl
    have hshort := hq.length_le
    have hlong := (unslashed_isPrefix p).length_le
    rw [List.append_nil] at hrest
    rw [← hrest] at hlength hlong hshort
    omega
  obtain ⟨hmkdir, -⟩ | ⟨e, hmkdir, -⟩ | ⟨d, t₁, hd, hdir, -⟩ := t.mkdir_cases p uid mode
  · rw [made_of_error hmkdir] at h
    exact hfound h
  · rw [made_of_error hmkdir] at h
    exact hfound h
  · obtain ⟨rest, hrest⟩ := hq
    by_cases hnil : rest = []
    · rw [hnil, List.append_nil] at hrest
      exact ⟨d, hrest ▸ hd, hdir⟩
    · rw [← hrest] at hd
      obtain ⟨j, hj, hj'⟩ := walk_append hd
      exact ⟨j, hj, hj' hnil⟩

end Make

end DirTree

end Storage
