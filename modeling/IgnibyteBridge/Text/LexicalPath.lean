import IgnibyteBridge.Text.Records

/-!
# Lexical resolution of paths

A path is read as its components: empty ones and `.` are skipped, and `..` takes
away the component before it. What lies inside what is decided by the text alone.
-/

namespace Text

/-- The components of a path. -/
def components (path : List Char) : List (List Char) := (path.splitOn '/').filter (· ≠ [])

/-- One more component. -/
def enter (place : List (List Char)) (component : List Char) : List (List Char) :=
  if component = ['.'] then place
  else if component = ['.', '.'] then place.dropLast
  else place ++ [component]

/-- Where a path leads from the root, by its text. -/
def resolve (path : List Char) : List (List Char) := (components path).foldl enter []

/-- The path leads to a place directly below another. -/
def IsChild (path parent : List Char) : Prop :=
  ∃ name, resolve path = resolve parent ++ [name]

/-- The path leads to a place below another. -/
def StrictlyInside (path dir : List Char) : Prop :=
  ∃ rest, rest ≠ [] ∧ resolve path = resolve dir ++ rest

/-- A name that leads one place down. -/
structure IsName (component : List Char) : Prop where
  ne_nil : component ≠ []
  slash_not_mem : '/' ∉ component
  ne_dot : component ≠ ['.']
  ne_dots : component ≠ ['.', '.']

/-- A name is a component that is neither empty nor a dot nor two dots, and has no slash. -/
theorem isName_iff {component : List Char} :
    IsName component ↔ component ≠ [] ∧ '/' ∉ component ∧ component ≠ ['.'] ∧
      component ≠ ['.', '.'] := by
  constructor
  · intro h
    exact ⟨h.ne_nil, h.slash_not_mem, h.ne_dot, h.ne_dots⟩
  · rintro ⟨hne, hslash, hdot, hdots⟩
    exact ⟨hne, hslash, hdot, hdots⟩

instance (component : List Char) : Decidable (IsName component) := decidable_of_iff' _ isName_iff

/-- The components of a joined path are those of its parts. -/
theorem components_append (base rest : List Char) :
    components (base ++ '/' :: rest) = components base ++ components rest := by
  unfold components
  rw [splitOn_append, List.filter_append]

/-- A text without a slash is one component. -/
theorem components_of_slash_not_mem {component : List Char} (hne : component ≠ [])
    (hslash : '/' ∉ component) : components component = [component] := by
  rw [components, List.splitOn_eq_singleton hslash]
  simp [hne]

/-- A slash at the end is not read. -/
theorem components_slash (base : List Char) : components (base ++ ['/']) = components base := by
  rw [components_append]
  simp [components]

/-- A name leads one step down. -/
theorem enter_name {component : List Char} (h : IsName component) (place : List (List Char)) :
    enter place component = place ++ [component] := by
  rw [enter, if_neg h.ne_dot, if_neg h.ne_dots]

/-- Behind a slash a name leads one place further down. -/
theorem resolve_append_name {component : List Char} (h : IsName component) (base : List Char) :
    resolve (base ++ '/' :: component) = resolve base ++ [component] := by
  unfold resolve
  rw [components_append, components_of_slash_not_mem h.ne_nil h.slash_not_mem, List.foldl_append]
  exact enter_name h _

/-- A trailing slash leads nowhere else. -/
theorem resolve_slash (base : List Char) : resolve (base ++ ['/']) = resolve base := by
  unfold resolve
  rw [components_slash]

/-- A name alone resolves to itself. -/
theorem resolve_name {component : List Char} (h : IsName component) :
    resolve component = [component] := by
  unfold resolve
  rw [components_of_slash_not_mem h.ne_nil h.slash_not_mem]
  exact enter_name h []

/-- A child is inside its parent. -/
theorem IsChild.strictlyInside {path parent : List Char} (h : IsChild path parent) :
    StrictlyInside path parent := by
  obtain ⟨name, hname⟩ := h
  exact ⟨[name], List.cons_ne_nil _ _, hname⟩

example : resolve "/a/./b/../c//d/".toList = ["a".toList, "c".toList, "d".toList] := by decide

end Text
