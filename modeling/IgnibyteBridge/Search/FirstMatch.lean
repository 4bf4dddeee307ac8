import Mathlib.Data.List.Basic

/-!
# Two observers of one search

A search runs through candidates in order and takes the first that its observer
finds; without one it falls back. Two observers find different candidates, but
what counts is what a candidate yields. The question here is when both searches
yield the same.
-/

namespace Search

variable {α β : Type}

/-- What a search yields. -/
def firstMatch (found : α → Bool) (yield : α → β) (fallback : β) (candidates : List α) : β :=
  match candidates.find? found with
  | some c => yield c
  | none => fallback

section

variable {found : α → Bool} {yield : α → β} {fallback : β}

/-- Without candidates the fallback is yielded. -/
@[simp] theorem firstMatch_nil : firstMatch found yield fallback [] = fallback := rfl

/-- A candidate that is found ends the search. -/
theorem firstMatch_of_found {c : α} (hc : found c = true) (rest : List α) :
    firstMatch found yield fallback (c :: rest) = yield c := by
  rw [firstMatch, List.find?_cons_of_pos hc]

/-- One that is not found is passed over. -/
theorem firstMatch_of_missed {c : α} (hc : found c = false) (rest : List α) :
    firstMatch found yield fallback (c :: rest) = firstMatch found yield fallback rest := by
  have hmissed : ¬found c = true := by simp [hc]
  rw [firstMatch, List.find?_cons_of_neg hmissed, firstMatch]

/-- A search either takes a candidate after others that it missed, or falls back. -/
theorem firstMatch_eq_iff {candidates : List α} {b : β} :
    firstMatch found yield fallback candidates = b ↔
      (∃ skipped c later, candidates = skipped ++ c :: later ∧
        (∀ a ∈ skipped, found a = false) ∧ found c = true ∧ yield c = b) ∨
      ((∀ c ∈ candidates, found c = false) ∧ fallback = b) := by
  rw [firstMatch]
  cases hfind : candidates.find? found with
  | none =>
    have hmissed : ∀ c ∈ candidates, found c = false := by simpa using List.find?_eq_none.mp hfind
    constructor
    · intro hb
      exact Or.inr ⟨hmissed, hb⟩
    · rintro (⟨skipped, c, later, rfl, -, hc, -⟩ | ⟨-, hb⟩)
      · have hno := hmissed c (by simp)
        rw [hc] at hno
        cases hno
      · exact hb
  | some d =>
    obtain ⟨hd, skipped, later, hsplit, hskipped⟩ := List.find?_eq_some_iff_append.mp hfind
    have hbefore : ∀ a ∈ skipped, found a = false := by simpa using hskipped
    constructor
    · intro hb
      exact Or.inl ⟨skipped, d, later, hsplit, hbefore, hd, hb⟩
    · rintro (⟨skipped', c, later', rfl, hskipped', hc, hb⟩ | ⟨hmissed, -⟩)
      · have hfirst : (skipped' ++ c :: later').find? found = some c := by
          apply List.find?_eq_some_iff_append.mpr
          exact ⟨hc, skipped', later', rfl, by simpa using hskipped'⟩
        obtain rfl : c = d := Option.some.inj (hfirst.symm.trans hfind)
        exact hb
      · have hno := hmissed d (by rw [hsplit]; simp)
        rw [hd] at hno
        cases hno

end

/-- Observers who find the same candidates come by the same result. -/
theorem firstMatch_congr {first second : α → Bool} {yield : α → β} {fallback : β}
    {candidates : List α} (h : ∀ c ∈ candidates, first c = second c) :
    firstMatch first yield fallback candidates = firstMatch second yield fallback candidates := by
  induction candidates with
  | nil => rfl
  | cons c rest ih =>
    have hc := h c (by simp)
    cases hfirst : first c with
    | true =>
      rw [hfirst] at hc
      rw [firstMatch_of_found hfirst, firstMatch_of_found hc.symm]
    | false =>
      rw [hfirst] at hc
      rw [firstMatch_of_missed hfirst, firstMatch_of_missed hc.symm]
      exact ih fun d hd => h d (List.mem_cons_of_mem _ hd)

/-- The searches of two observers go the same way: the first candidate that
either finds is found by both. Where only one finds it, the other one must come
by the same result later. -/
inductive FoundAlike (first second : α → Bool) (yield : α → β) (fallback : β) : List α → Prop
  /-- Nothing is found. -/
  | nothing : FoundAlike first second yield fallback []
  | neither {c : α} {rest : List α} (hfirst : first c = false) (hsecond : second c = false)
      (hrest : FoundAlike first second yield fallback rest) :
      FoundAlike first second yield fallback (c :: rest)
  | both {c : α} {rest : List α} (hfirst : first c = true) (hsecond : second c = true) :
      FoundAlike first second yield fallback (c :: rest)
  /-- The second observer goes on to a later candidate with the same result. -/
  | later {c d : α} {skipped rest : List α} (hfirst : first c = true) (hsecond : second c = false)
      (hskipped : ∀ a ∈ skipped, second a = false) (hd : second d = true)
      (hsame : yield d = yield c) :
      FoundAlike first second yield fallback (c :: (skipped ++ d :: rest))
  /-- Only one observer finds anything, and falling back leads there too. -/
  | onlyFirst {c : α} {rest : List α} (hfirst : first c = true)
      (hsecond : ∀ a ∈ c :: rest, second a = false) (hsame : fallback = yield c) :
      FoundAlike first second yield fallback (c :: rest)
  | onlySecond {c : α} {rest : List α} (hsecond : second c = true)
      (hfirst : ∀ a ∈ c :: rest, first a = false) (hsame : fallback = yield c) :
      FoundAlike first second yield fallback (c :: rest)

/-- Two searches yield the same exactly if they go the same way, where the result
of a candidate decides whether the first observer finds it. -/
theorem firstMatch_eq_firstMatch_iff {first second : α → Bool} {yield : α → β} {fallback : β}
    (hdecides : ∀ a b, yield a = yield b → first a = first b) (candidates : List α) :
    firstMatch second yield fallback candidates = firstMatch first yield fallback candidates ↔
      FoundAlike first second yield fallback candidates := by
  constructor
  · intro heq
    induction candidates with
    | nil => exact .nothing
    | cons c rest ih =>
      cases hfirst : first c with
      | false =>
        rw [firstMatch_of_missed hfirst] at heq
        cases hsecond : second c with
        | false =>
          rw [firstMatch_of_missed hsecond] at heq
          exact .neither hfirst hsecond (ih heq)
        | true =>
          rw [firstMatch_of_found hsecond] at heq
          rcases firstMatch_eq_iff.mp heq.symm with
            ⟨skipped, d, later, -, -, hd, hsame⟩ | ⟨hrest, hsame⟩
          · have hno := hdecides d c hsame
            rw [hd, hfirst] at hno
            cases hno
          · apply FoundAlike.onlySecond hsecond _ hsame
            intro a ha
            rcases List.mem_cons.mp ha with rfl | ha
            · exact hfirst
            · exact hrest a ha
      | true =>
        rw [firstMatch_of_found hfirst] at heq
        cases hsecond : second c with
        | true => exact .both hfirst hsecond
        | false =>
          rw [firstMatch_of_missed hsecond] at heq
          rcases firstMatch_eq_iff.mp heq with
            ⟨skipped, d, later, rfl, hskipped, hd, hsame⟩ | ⟨hrest, hsame⟩
          · exact .later hfirst hsecond hskipped hd hsame
          · apply FoundAlike.onlyFirst hfirst _ hsame
            intro a ha
            rcases List.mem_cons.mp ha with rfl | ha
            · exact hsecond
            · exact hrest a ha
  · intro halike
    induction halike with
    | nothing => rfl
    | neither hfirst hsecond _ ih =>
      rw [firstMatch_of_missed hfirst, firstMatch_of_missed hsecond]
      exact ih
    | both hfirst hsecond => rw [firstMatch_of_found hfirst, firstMatch_of_found hsecond]
    | later hfirst hsecond hskipped hd hsame =>
      rw [firstMatch_of_found hfirst, firstMatch_of_missed hsecond]
      apply firstMatch_eq_iff.mpr
      exact Or.inl ⟨_, _, _, rfl, hskipped, hd, hsame⟩
    | onlyFirst hfirst hsecond hsame =>
      rw [firstMatch_of_found hfirst]
      exact firstMatch_eq_iff.mpr (Or.inr ⟨hsecond, hsame⟩)
    | onlySecond hsecond hfirst hsame =>
      rw [firstMatch_of_found hsecond]
      exact (firstMatch_eq_iff.mpr (Or.inr ⟨hfirst, hsame⟩)).symm

end Search
