import IgnibyteBridge.Concurrency.System

/-!
# What becomes of a thread

The programs that a program can turn into, or start, when the world may give any
answer that a condition admits. What all of them do is proved of one program at a
time, without the world; a run of the system goes through no other programs.
-/

namespace Concurrency

variable {A : Type} {R : A → Type} {α W C E : Type}

/-- The remaining programs of a thread, and of the threads that it starts. -/
inductive Descends (M : System A R α W C E) (answers : (a : A) → R a → Prop)
    (p : Program A R α) : Program A R α → Prop
  | self : Descends M answers p p
  | next {a : A} {next : R a → Program A R α} {r : R a} (h : Descends M answers p (.act a next))
      (answered : answers a r) : Descends M answers p (next r)
  | launched {a : A} {next : R a → Program A R α} {r : R a} {j : ℕ} {q : Program A R α}
      (h : Descends M answers p (.act a next)) (answered : answers a r)
      (launched : M.launched a r = some (j, q)) : Descends M answers p q
  | again {x : α} {q : Program A R α} (h : Descends M answers p (.done x))
      (again : M.again x = some q) : Descends M answers p q

/-- A discipline without a ghost state: what may be done, and what is answered. -/
def abiding (pre : A → Prop) (answers : (a : A) → R a → Prop) : Discipline A R Unit where
  pre a _ := pre a
  fact a _ r := answers a r
  post _ _ _ := ()

variable {M : System A R α W C E} {answers : (a : A) → R a → Prop} {pre : A → Prop}
  {Q : α → Unit → Prop} {p q : Program A R α}

/-- A discipline that covers the system is kept by whatever descends from a program. -/
theorem Descends.follows (hcovers : Covers M (abiding pre answers) Q fun _ _ _ => ())
    (hp : p.Follows (abiding pre answers) Q ()) (h : Descends M answers p q) :
    q.Follows (abiding pre answers) Q () := by
  induction h with
  | self => exact hp
  | next _ answered ih => exact ih.2 _ answered
  | launched _ answered launched ih => exact hcovers.launched launched ih.1 answered
  | again _ again ih => exact hcovers.again ih again

/-- Nothing becomes of a thread that has ended. -/
theorem Descends.of_done {x : α} (hx : M.again x = none) (h : Descends M answers (.done x) q) :
    q = .done x := by
  induction h with
  | self => rfl
  | next _ _ ih => cases ih
  | launched _ _ _ ih => cases ih
  | again _ again ih =>
    cases ih
    rw [hx] at again
    cases again

/-- An invariant of the world from which the answers follow: every thread of a run
descends from a thread of its start. -/
theorem System.Reaches.descends {ok : W → ℕ → A → C → Prop} {s s' : Config A R α W}
    (h : M.Reaches ok s s') {I : W → Prop}
    (hact : ∀ {w i a c r w'}, I w → M.perform i a c w = some (r, w') → answers a r ∧ I w')
    (hdisturb : ∀ {w e w'}, I w → M.disturb e w = some w' → I w') (h0 : I s.world) :
    I s'.world ∧ ∀ i, ∃ k, Descends M answers (s.thread k) (s'.thread i) := by
  induction h with
  | refl => exact ⟨h0, fun i => ⟨i, .self⟩⟩
  | @tail t t' _ hstep ih =>
    obtain ⟨hI, hthreads⟩ := ih
    cases hstep with
    | @act i a next c r w thread alive allowed performed =>
      obtain ⟨hanswered, hI'⟩ := hact hI performed
      obtain ⟨k, hk⟩ := hthreads i
      rw [thread] at hk
      refine ⟨hI', fun l => ?_⟩
      have hresumed : ∃ k, Descends M answers (s.thread k)
          (Function.update t.thread i (next r) l) := by
        by_cases hl : l = i
        · subst hl
          rw [Function.update_self]
          exact ⟨k, hk.next hanswered⟩
        · rw [Function.update_of_ne hl]
          exact hthreads l
      unfold System.resume
      cases hlaunched : M.launched a r with
      | none => exact hresumed
      | some started =>
        obtain ⟨j, q⟩ := started
        by_cases hl : l = j
        · subst hl
          simp only [Function.update_self]
          exact ⟨k, hk.launched hanswered hlaunched⟩
        · simp only [Function.update_of_ne hl]
          exact hresumed
    | @loop i x q thread again =>
      refine ⟨hI, fun l => ?_⟩
      by_cases hl : l = i
      · subst hl
        obtain ⟨k, hk⟩ := hthreads l
        rw [thread] at hk
        simp only [Function.update_self]
        exact ⟨k, hk.again again⟩
      · simp only [Function.update_of_ne hl]
        exact hthreads l
    | disturb disturbed => exact ⟨hdisturb hI disturbed, hthreads⟩

end Concurrency
