import Mathlib.Data.List.Basic

/-!
# The search path of a session

`path_with_local_bin_from` puts the user's local programs in front of a `PATH`.
It splits the text at colons, filters the entries and joins them again; here the
result is described by its entries.
-/

namespace IgnibyteBridge

/-- `Path::join`: an absolute path replaces what it is joined to. -/
def joinPath (base path : List Char) : List Char :=
  if path.head? = some '/' then path
  else if base = [] ∨ base.getLast? = some '/' then base ++ path
  else base ++ '/' :: path

/-- `~/.local/bin`. -/
def localBin (home : List Char) : List Char := joinPath home ".local/bin".toList

/-- The colon-separated entries of a `PATH`. -/
def pathEntries (path : List Char) : List (List Char) := path.splitOn ':'

/-- The entries that stay behind `~/.local/bin`. -/
def isOther (home entry : List Char) : Bool := !entry.isEmpty && entry != localBin home

/-- `path_with_local_bin_from`. -/
def pathWithLocalBinFrom (currentPath home : List Char) : List Char :=
  if currentPath.isEmpty then localBin home
  else
    let rest := [':'].intercalate ((pathEntries currentPath).filter (isOther home))
    if rest.isEmpty then localBin home else localBin home ++ ':' :: rest

/-- `child_path` for a session of the daemon: without a home directory the
client's `PATH` is passed on as it is. -/
def childPath (clientPath : List Char) (home : Option (List Char)) : List Char :=
  match home with
  | some home => pathWithLocalBinFrom clientPath home
  | none => clientPath

/-- Another entry is one that is neither empty nor the local directory. -/
theorem isOther_iff {home entry : List Char} :
    isOther home entry = true ↔ entry ≠ [] ∧ entry ≠ localBin home := by
  simp [isOther]

/-- Neither the joining slash nor the two names hold a colon. -/
theorem localBin_no_colon {home : List Char} (hhome : ':' ∉ home) : ':' ∉ localBin home := by
  have hname : ':' ∉ ".local/bin".toList := by decide
  unfold localBin joinPath
  split_ifs
  · exact hname
  · rw [List.mem_append]
    exact fun h => h.elim hhome hname
  · rw [List.mem_append, List.mem_cons]
    exact fun h => h.elim hhome fun h => h.elim (by decide) hname

/-- No entry of a `PATH` holds a colon. -/
theorem pathEntries_no_colon {path entry : List Char} (hentry : entry ∈ pathEntries path) :
    ':' ∉ entry := by
  induction path generalizing entry with
  | nil =>
    have hnil : entry = [] := by simpa [pathEntries] using hentry
    simp [hnil]
  | cons c path ih =>
    rw [pathEntries, List.splitOn_cons_eq_if_modifyHead] at hentry
    split_ifs at hentry with hc
    · rcases List.mem_cons.mp hentry with rfl | hrest
      · simp
      · exact ih hrest
    · obtain ⟨first, others, hsplit⟩ :=
        List.exists_cons_of_ne_nil (List.splitOn_ne_nil ':' path)
      rw [hsplit, List.modifyHead_cons] at hentry
      have hmem : ∀ e ∈ first :: others, ':' ∉ e := by
        intro e he
        apply ih
        rwa [pathEntries, hsplit]
      rcases List.mem_cons.mp hentry with rfl | hrest
      · have hc' : c ≠ ':' := by simpa using hc
        rw [List.mem_cons]
        exact fun h => h.elim (fun h => hc' h.symm) (hmem first (by simp))
      · exact hmem entry (List.mem_cons_of_mem _ hrest)

/-- The two special cases of the code are instances of its last one. -/
theorem pathWithLocalBinFrom_eq (currentPath home : List Char) :
    pathWithLocalBinFrom currentPath home =
      [':'].intercalate
        (localBin home :: (pathEntries currentPath).filter (isOther home)) := by
  unfold pathWithLocalBinFrom
  cases currentPath with
  | nil =>
    have hnone : (pathEntries []).filter (isOther home) = [] := by simp [pathEntries, isOther]
    rw [hnone]
    simp
  | cons c path =>
    cases hrest : (pathEntries (c :: path)).filter (isOther home) with
    | nil => simp
    | cons first others =>
      have hother : isOther home first = true := by
        have hmem : first ∈ (pathEntries (c :: path)).filter (isOther home) := by simp [hrest]
        exact (List.mem_filter.mp hmem).2
      have hne := (isOther_iff.mp hother).1
      have hjoined : ([':'].intercalate (first :: others)).isEmpty = false := by
        cases first with
        | nil => exact absurd rfl hne
        | cons d first => cases others <;> simp
      simp only [List.isEmpty_cons, Bool.false_eq_true, if_false, hjoined]
      simp

/-- The directory itself, and then the other entries that the `PATH` has. -/
theorem pathEntries_pathWithLocalBinFrom {home : List Char} (hhome : ':' ∉ home)
    (currentPath : List Char) :
    pathEntries (pathWithLocalBinFrom currentPath home) =
      localBin home :: (pathEntries currentPath).filter (isOther home) := by
  rw [pathWithLocalBinFrom_eq, pathEntries]
  apply List.splitOn_intercalate
  · intro entry hentry
    rcases List.mem_cons.mp hentry with rfl | hkept
    · exact localBin_no_colon hhome
    · exact pathEntries_no_colon (List.mem_filter.mp hkept).1
  · exact List.cons_ne_nil _ _

/-- What is left of the other entries is filtered once. -/
theorem filter_isOther_self (home : List Char) (entries : List (List Char)) :
    (localBin home :: entries.filter (isOther home)).filter (isOther home) =
      entries.filter (isOther home) := by
  have hself : isOther home (localBin home) = false := by simp [isOther]
  rw [List.filter_cons, hself, List.filter_filter]
  simp

/-- **The search path.** The home's `.local/bin` comes first and nowhere else; the
other nonempty entries of the given `PATH` follow, in their order and as often as
they stood there; and doing it again changes nothing. -/
theorem pathWithLocalBinFrom_spec (currentPath home : List Char) (hhome : ':' ∉ home) :
    pathEntries (pathWithLocalBinFrom currentPath home) =
        localBin home ::
          (pathEntries currentPath).filter (fun entry => entry ≠ [] ∧ entry ≠ localBin home) ∧
      (pathEntries (pathWithLocalBinFrom currentPath home)).head? = some (localBin home) ∧
      (pathEntries (pathWithLocalBinFrom currentPath home)).count (localBin home) = 1 ∧
      (∀ entry, entry ≠ [] → entry ≠ localBin home →
        (pathEntries (pathWithLocalBinFrom currentPath home)).count entry =
          (pathEntries currentPath).count entry) ∧
      pathWithLocalBinFrom (pathWithLocalBinFrom currentPath home) home =
        pathWithLocalBinFrom currentPath home := by
  have hentries := pathEntries_pathWithLocalBinFrom hhome currentPath
  have hkept : (fun entry : List Char => decide (entry ≠ [] ∧ entry ≠ localBin home)) =
      isOther home := by
    funext entry
    rw [← Bool.coe_iff_coe, decide_eq_true_eq, isOther_iff]
  have hother : isOther home (localBin home) = false := by simp [isOther]
  refine ⟨?_, ?_, ?_, ?_, ?_⟩
  · rw [hentries, hkept]
  · rw [hentries, List.head?_cons]
  · have hnone : localBin home ∉ (pathEntries currentPath).filter (isOther home) := by
      intro hmem
      have htrue := (List.mem_filter.mp hmem).2
      rw [hother] at htrue
      exact absurd htrue Bool.false_ne_true
    rw [hentries, List.count_cons_self, List.count_eq_zero_of_not_mem hnone]
  · intro entry hne hbin
    have hkeeps : isOther home entry = true := isOther_iff.mpr ⟨hne, hbin⟩
    rw [hentries, List.count_cons_of_ne (Ne.symm hbin), List.count_filter hkeeps]
  · rw [pathWithLocalBinFrom_eq (pathWithLocalBinFrom currentPath home), hentries,
      filter_isOther_self, ← pathWithLocalBinFrom_eq]

/-- A `PATH` that starts with an empty entry and has the directory twice. -/
theorem pathWithLocalBinFrom_spec_user :
    ':' ∉ "/u".toList ∧
      pathWithLocalBinFrom
          (pathWithLocalBinFrom ":/u/.local/bin:/bin::/u/.local/bin".toList "/u".toList)
          "/u".toList =
        pathWithLocalBinFrom ":/u/.local/bin:/bin::/u/.local/bin".toList "/u".toList :=
  have hhome : ':' ∉ "/u".toList := by decide
  ⟨hhome, (pathWithLocalBinFrom_spec ":/u/.local/bin:/bin::/u/.local/bin".toList "/u".toList
    hhome).2.2.2.2⟩

example : pathWithLocalBinFrom "/home/user/.local/bin:/usr/bin".toList "/home/user".toList =
    "/home/user/.local/bin:/usr/bin".toList := by rfl

end IgnibyteBridge
