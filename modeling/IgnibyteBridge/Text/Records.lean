import Mathlib.Data.List.Basic

/-!
# Records on lines

A report puts one record on each line. Splitting it at the newlines gives the
records back exactly if none of them holds a newline itself.
-/

namespace Text

/-- The parts of a text that a newline ends. -/
def splitLines (text : List Char) : List (List Char) := (text.splitOn '\n').dropLast

/-- Records, each with a newline behind it. -/
def terminated (records : List (List Char)) : List Char := records.flatMap (· ++ ['\n'])

/-- The first record comes first, with its newline. -/
theorem terminated_cons (record : List Char) (records : List (List Char)) :
    terminated (record :: records) = record ++ '\n' :: terminated records := by
  simp [terminated]

/-- A separator splits a text in two that are split further by themselves. -/
theorem splitOn_append (u v : List Char) (c : Char) :
    (u ++ c :: v).splitOn c = u.splitOn c ++ v.splitOn c := by
  have hsplit := List.splitOnP_append_cons (p := (· == c)) u v (beq_self_eq_true c)
  rwa [← List.splitOn_eq_splitOnP, ← List.splitOn_eq_splitOnP, ← List.splitOn_eq_splitOnP] at hsplit

/-- A text up to the first separator is the first part. -/
theorem splitOn_append_of_not_mem {u : List Char} {c : Char} (hu : c ∉ u) (v : List Char) :
    (u ++ c :: v).splitOn c = u :: v.splitOn c := by
  rw [splitOn_append, List.splitOn_eq_singleton hu]
  rfl

/-- There is one part more than there are separators. -/
theorem length_splitOn (text : List Char) (c : Char) :
    (text.splitOn c).length = text.count c + 1 := by
  induction text with
  | nil => rfl
  | cons d text ih =>
    rw [List.splitOn_cons_eq_if_modifyHead, List.count_cons]
    split_ifs <;> simp [ih]

/-- There are as many terminated pieces as newlines. -/
theorem length_splitLines (text : List Char) : (splitLines text).length = text.count '\n' := by
  rw [splitLines, List.length_dropLast, length_splitOn]
  exact Nat.add_sub_cancel ..

/-- Records without newlines are read back. -/
theorem splitLines_terminated {records : List (List Char)} (h : ∀ r ∈ records, '\n' ∉ r) :
    splitLines (terminated records) = records := by
  induction records with
  | nil => rfl
  | cons record records ih =>
    have hrecord : '\n' ∉ record := h record (by simp)
    have hrest := ih fun r hr => h r (List.mem_cons_of_mem _ hr)
    unfold splitLines at hrest ⊢
    rw [terminated_cons, splitOn_append_of_not_mem hrecord,
      List.dropLast_cons_of_ne_nil (List.splitOn_ne_nil '\n' _), hrest]

/-- A report has a newline for each record at least. -/
theorem length_le_count_terminated (records : List (List Char)) :
    records.length ≤ (terminated records).count '\n' := by
  induction records with
  | nil => exact Nat.zero_le _
  | cons record records ih =>
    rw [terminated_cons, List.count_append, List.count_cons_self, List.length_cons]
    omega

/-- A report has as many lines as records exactly if no record holds a newline. -/
theorem length_splitLines_terminated_iff (records : List (List Char)) :
    (splitLines (terminated records)).length = records.length ↔ ∀ r ∈ records, '\n' ∉ r := by
  constructor
  · intro hlength
    rw [length_splitLines] at hlength
    induction records with
    | nil => simp
    | cons record records ih =>
      have hmore := length_le_count_terminated records
      rw [terminated_cons, List.count_append, List.count_cons_self, List.length_cons] at hlength
      have hrecord : record.count '\n' = 0 := by omega
      have hrest := ih (by omega)
      intro r hr
      rcases List.mem_cons.mp hr with rfl | hr
      · exact List.count_eq_zero.mp hrecord
      · exact hrest r hr
  · intro h
    rw [splitLines_terminated h]

end Text
