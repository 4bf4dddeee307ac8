import IgnibyteBridge.Text.LexicalPath
import Mathlib.Data.List.DropRight
import Mathlib.Data.List.Infix

/-!
# Paths as they are written

A kernel reads a path component by component as it is written. Separators that stand
next to each other, or at the end, leave empty components, and these matter: a symlink
with a separator behind it is followed.
-/

namespace Text

/-- The components of an absolute path as they are written. -/
abbrev RawPath := List (List Char)

/-- The reading of the text of an absolute path. -/
def rawPath (text : List Char) : RawPath := (text.splitOn '/').tail

/-- A component that does not lead further: an empty one, or `.`. -/
def idle (c : List Char) : Bool := c == [] || c == ['.']

/-- A path without the separators and dots at its end. -/
def trimmed (p : RawPath) : RawPath := p.rdropWhile idle

/-- A path without the separators at its end. -/
def unslashed (p : RawPath) : RawPath := p.rdropWhile List.isEmpty

/-- What a path says before its last component. -/
def holder (p : RawPath) : RawPath := (unslashed p).dropLast

/-- The paths above a path, from the longest on. -/
def parents (p : RawPath) : List RawPath :=
  if trimmed p = [] then []
  else ((trimmed p).dropLast.inits.filter fun q => trimmed q = q).reverse

/-- A path with one more component. -/
def extended (p : RawPath) (c : List Char) : RawPath :=
  if p.getLast? = some [] then p.dropLast ++ [c] else p ++ [c]

/-- The last part is empty only behind a separator at the end. -/
theorem getLast?_splitOn {text : List Char} {c : Char}
    (h : (text.splitOn c).getLast? = some []) : text = [] ∨ text.getLast? = some c := by
  induction text with
  | nil => exact .inl rfl
  | cons d text ih =>
    right
    have hne : text.splitOn c ≠ [] := List.splitOn_ne_nil c text
    rw [List.splitOn_cons_eq_if_modifyHead] at h
    split_ifs at h with hd
    · obtain rfl : d = c := by simpa using hd
      rw [List.getLast?_cons_of_ne_nil hne] at h
      rcases ih h with rfl | hlast
      · rfl
      · rw [List.getLast?_cons, hlast]
        rfl
    · obtain ⟨part, parts, hparts⟩ := List.exists_cons_of_ne_nil hne
      rw [hparts] at h ih
      cases parts with
      | nil => simp at h
      | cons part' parts =>
        rcases ih (by simpa using h) with rfl | hlast
        · simp at hparts
        · rw [List.getLast?_cons, hlast]
          rfl

variable {p q : RawPath} {c : List Char}

/-- A name is not an idle component. -/
theorem idle_of_isName (h : IsName c) : idle c = false := by
  simp [idle, h.ne_nil, h.ne_dot]

/-- Nothing is cut off behind a name. -/
theorem trimmed_append_name (h : IsName c) (p : RawPath) : trimmed (p ++ [c]) = p ++ [c] := by
  apply List.rdropWhile_concat_neg
  rw [idle_of_isName h]
  exact Bool.false_ne_true

/-- A last component that is not empty stays. -/
theorem unslashed_append (h : c ≠ []) (p : RawPath) : unslashed (p ++ [c]) = p ++ [c] := by
  apply List.rdropWhile_concat_neg
  simpa using h

/-- A trailing slash goes. -/
theorem unslashed_append_nil (p : RawPath) : unslashed (p ++ [[]]) = unslashed p :=
  List.rdropWhile_concat_pos _ _ [] rfl

/-- A path ends in a separator, or nothing is cut off. -/
theorem unslashed_isPrefix (p : RawPath) : unslashed p <+: p := List.rdropWhile_prefix _ _

/-- Trimming idle components takes at least the trailing slashes. -/
theorem trimmed_prefix_unslashed (p : RawPath) : trimmed p <+: unslashed p := by
  induction p using List.reverseRecOn with
  | nil => exact List.prefix_rfl
  | append_singleton p c ih =>
    by_cases hc : c = []
    · subst hc
      have htrim : trimmed (p ++ [[]]) = trimmed p := List.rdropWhile_concat_pos _ _ [] rfl
      rw [htrim, unslashed_append_nil]
      exact ih
    · rw [unslashed_append hc]
      exact List.rdropWhile_prefix _ _

/-- A path that ends in a component does not end in a separator. -/
theorem unslashed_eq_of_trimmed (h : trimmed p = p) : unslashed p = p := by
  have hle : p <+: unslashed p := by simpa only [h] using trimmed_prefix_unslashed p
  exact (unslashed_isPrefix p).eq_of_length_le hle.length_le

/-- A shorter path on the way to another one. -/
theorem prefix_dropLast_of_length_lt (h : p <+: q) (hlt : p.length < q.length) :
    p <+: q.dropLast := by
  apply List.prefix_of_prefix_length_le h ( List.dropLast_prefix q)
  rw [List.length_dropLast]
  omega

/-- The prefixes of a list in order. -/
theorem pairwise_inits (p : RawPath) :
    p.inits.Pairwise fun q r => q <+: r ∧ q.length < r.length := by
  induction p with
  | nil => exact List.pairwise_singleton _ _
  | cons c p ih =>
    rw [List.inits_cons, List.pairwise_cons, List.pairwise_map]
    constructor
    · intro q hq
      obtain ⟨r, -, rfl⟩ := List.mem_map.mp hq
      exact ⟨List.nil_prefix, Nat.succ_pos _⟩
    · refine ih.imp ?_
      rintro q r ⟨hstart, hlt⟩
      exact ⟨List.cons_prefix_cons.mpr ⟨rfl, hstart⟩, Nat.succ_lt_succ hlt⟩

/-- A path above another is read on the way to its last component. -/
theorem prefix_holder (h : q ∈ parents p) : q <+: holder p := by
  unfold parents at h
  split_ifs at h with hnil
  · cases h
  · have hinits : q ∈ (trimmed p).dropLast.inits := (List.mem_filter.mp (List.mem_reverse.mp h)).1
    have hq : q <+: (trimmed p).dropLast := (List.mem_inits _ _).mp hinits
    have htrimmed := ( List.dropLast_prefix (trimmed p)).trans (trimmed_prefix_unslashed p)
    apply prefix_dropLast_of_length_lt (hq.trans htrimmed)
    have hlt : (trimmed p).dropLast.length < (trimmed p).length := by
      have hpos := List.length_pos_of_ne_nil hnil
      rw [List.length_dropLast]
      omega
    have hshort := hq.length_le
    have hlong := (trimmed_prefix_unslashed p).length_le
    omega

/-- Each path is read on the way to the last component of those below it. -/
theorem pairwise_parents (p : RawPath) : (p :: parents p).Pairwise fun q r => r <+: holder q := by
  refine List.pairwise_cons.mpr ⟨fun q hq => prefix_holder hq, ?_⟩
  unfold parents
  split_ifs
  · exact List.Pairwise.nil
  · rw [List.pairwise_reverse]
    refine List.Pairwise.imp_of_mem ?_ ((pairwise_inits _).filter _)
    rintro q r - hr ⟨hstart, hlt⟩
    have htrimmed : trimmed r = r := by simpa using (List.mem_filter.mp hr).2
    unfold holder
    rw [unslashed_eq_of_trimmed htrimmed]
    exact prefix_dropLast_of_length_lt hstart hlt

example : parents (rawPath "/a/./b/".toList) = [["a".toList], []] := by decide

end Text
