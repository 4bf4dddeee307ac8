import IgnibyteBridge.Concurrency.System

/-!
# What one thread did

The actions that a thread performed and the responses that it got, in order. A call
of a program is a log of these from its first action to its result, in a run where
everything else goes on as it likes.
-/

namespace Concurrency

variable {A : Type} {R : A → Type} {α β ε W C E G : Type}

/-- An action and its response. -/
abbrev Event (A : Type) (R : A → Type) := (a : A) × R a

namespace Program

/-- A program performs the events of a log, and has `q` still to do. -/
inductive Leads : Program A R α → List (Event A R) → Program A R α → Prop
  | refl (p : Program A R α) : Leads p [] p
  | act {a : A} {next : R a → Program A R α} {r : R a} {log : List (Event A R)}
      {q : Program A R α} (rest : Leads (next r) log q) : Leads (.act a next) (⟨a, r⟩ :: log) q

/-- A program performs the events of a log, and finishes with `x`. -/
def Runs (p : Program A R α) (log : List (Event A R)) (x : α) : Prop := p.Leads log (.done x)

/-- A finished program performs nothing. -/
theorem Leads.eq_nil {x : α} {log : List (Event A R)} {q : Program A R α}
    (h : (done x).Leads log q) : log = [] := by
  cases h
  rfl

/-- A composition is in its first part, or has finished that. -/
theorem Leads.of_bind {p : Program A R α} {f : α → Program A R β} {log : List (Event A R)}
    {q : Program A R β} (h : (p >>= f).Leads log q) :
    (∃ p', p.Leads log p' ∧ q = p' >>= f) ∨
      ∃ first rest x, log = first ++ rest ∧ p.Runs first x ∧ (f x).Leads rest q := by
  induction p generalizing log with
  | done x => exact .inr ⟨[], log, x, rfl, .refl _, h⟩
  | act a next ih =>
    cases h with
    | refl => exact .inl ⟨_, .refl _, rfl⟩
    | @act _ _ r log _ rest =>
      rcases ih r rest with ⟨p', hleads, hq⟩ | ⟨first, rest, x, hlog, hruns, hleads⟩
      · exact .inl ⟨p', .act hleads, hq⟩
      · refine .inr ⟨⟨a, r⟩ :: first, rest, x, ?_, .act hruns, hleads⟩
        rw [hlog, List.cons_append]

/-- The discipline that keeps a log of everything. -/
def recording : Discipline A R (List (Event A R)) where
  pre _ _ := True
  fact _ _ _ := True
  post a log r := log ++ [⟨a, r⟩]

/-- What is proved of the log that is kept holds of every log of a program. -/
theorem Follows.of_runs {p : Program A R α} {Q : α → List (Event A R) → Prop}
    {before log : List (Event A R)} {x : α} (h : p.Follows recording Q before)
    (hruns : p.Runs log x) : Q x (before ++ log) := by
  induction p generalizing before log with
  | done y =>
    cases hruns with
    | refl =>
      rw [List.append_nil]
      exact h
  | act a next ih =>
    cases hruns with
    | @act _ _ r log _ rest =>
      have hnext := ih r (h.2 r trivial) rest
      rwa [recording, List.append_assoc] at hnext

end Program

/-- A fallible program adds to the log only events of the kind that it performs. -/
theorem Fallible.Performs.recorded {P : A → Prop} {p : Fallible A R ε α} (h : Performs P p)
    (before : List (Event A R)) :
    Meets Program.recording (fun _ log => ∃ added, log = before ++ added ∧ ∀ e ∈ added, P e.1)
      (fun _ log => ∃ added, log = before ++ added ∧ ∀ e ∈ added, P e.1) p before := by
  refine h.meets (I := fun log => ∃ added, log = before ++ added ∧ ∀ e ∈ added, P e.1)
    (fun _ _ _ _ => trivial) ?_ ⟨[], (List.append_nil _).symm, by simp⟩
  rintro a log r hP ⟨added, rfl, hadded⟩ -
  refine ⟨added ++ [⟨a, r⟩], List.append_assoc .., fun e he => ?_⟩
  rcases List.mem_append.mp he with he | he
  · exact hadded e he
  · obtain rfl := List.mem_singleton.mp he
    exact hP

namespace System

variable {M : System A R α W C E} {ok ok' : W → ℕ → A → C → Prop} {k : ℕ}

/-- A run in which thread `k` performs the events of a log, in that order. -/
inductive Traced (M : System A R α W C E) (ok : W → ℕ → A → C → Prop) (k : ℕ) :
    Config A R α W → List (Event A R) → Config A R α W → Prop
  | refl (s : Config A R α W) : Traced M ok k s [] s
  | act {s t : Config A R α W} {a : A} {next : R a → Program A R α} {c : C} {r : R a} {w : W}
      {log : List (Event A R)} (thread : s.thread k = .act a next)
      (alive : M.alive s.world k = true) (allowed : ok s.world k a c)
      (performed : M.perform k a c s.world = some (r, w))
      (rest : Traced M ok k ⟨w, M.resume s.thread k a r (next r)⟩ log t) :
      Traced M ok k s (⟨a, r⟩ :: log) t
  /-- A step that leaves thread `k` where it is. -/
  | aside {s s' t : Config A R α W} {log : List (Event A R)} (step : M.Step ok s s')
      (thread : s'.thread k = s.thread k) (rest : Traced M ok k s' log t) :
      Traced M ok k s log t

/-- From `s` to `t`, thread `k` executes a call of `p`, which returns `x`. -/
structure Calls {β : Type} (M : System A R α W C E) (ok : W → ℕ → A → C → Prop) (k : ℕ)
    (s : Config A R α W) (p : Program A R β) (log : List (Event A R)) (x : β)
    (t : Config A R α W) : Prop where
  traced : M.Traced ok k s log t
  runs : p.Runs log x

/-- A traced run is a run. -/
theorem Traced.reaches {s t : Config A R α W} {log : List (Event A R)}
    (h : M.Traced ok k s log t) : M.Reaches ok s t := by
  induction h with
  | refl s => exact .refl
  | act thread alive allowed performed _ ih => exact .head (.act thread alive allowed performed) ih
  | aside step _ _ ih => exact .head step ih

/-- A trace under a condition is one under a weaker condition. -/
theorem Traced.mono {s t : Config A R α W} {log : List (Event A R)} (h : M.Traced ok k s log t)
    (hok : ∀ w i a c, ok w i a c → ok' w i a c) : M.Traced ok' k s log t := by
  induction h with
  | refl s => exact .refl s
  | act thread alive allowed performed _ ih =>
    exact .act thread alive (hok _ _ _ _ allowed) performed ih
  | aside step thread _ ih => exact .aside (step.mono hok) thread ih

/-- What an event of a log brings about, and no later step can end, holds at the end. -/
theorem Traced.stable {I : W → Prop} {s t : Config A R α W} {log : List (Event A R)}
    {a : A} {r : R a} (h : M.Traced ok k s log t) (hmem : ⟨a, r⟩ ∈ log)
    (hevent : ∀ {w c w'}, M.perform k a c w = some (r, w') → I w')
    (hact : ∀ {w i a c r w'}, I w → M.alive w i = true → ok w i a c →
      M.perform i a c w = some (r, w') → I w')
    (hdisturb : ∀ {w e w'}, I w → M.disturb e w = some w' → I w') : I t.world := by
  induction h with
  | refl s => cases hmem
  | act _ _ _ performed rest ih =>
    cases hmem with
    | head => exact rest.reaches.stable hact hdisturb (hevent performed)
    | tail _ hmem => exact ih hmem
  | aside _ _ _ ih => exact ih hmem

/-- What thread `k` did led from its program at the start to that at the end, if it cannot
start itself. -/
theorem Traced.leads {s t : Config A R α W} {log : List (Event A R)} (h : M.Traced ok k s log t)
    (hself : ∀ {w a c r w' q}, M.alive w k = true → M.perform k a c w = some (r, w') →
      M.launched a r ≠ some (k, q)) : (s.thread k).Leads log (t.thread k) := by
  induction h with
  | refl s => exact .refl _
  | @act s t a next c r w log thread alive allowed performed rest ih =>
    have hresume : M.resume s.thread k a r (next r) k = next r := by
      unfold resume
      cases hlaunched : M.launched a r with
      | none => exact Function.update_self ..
      | some started =>
        obtain ⟨j, q⟩ := started
        have hk : k ≠ j := by
          rintro rfl
          exact hself alive performed hlaunched
        exact (Function.update_of_ne hk ..).trans (Function.update_self ..)
    have hnext : (next r).Leads log (t.thread k) := hresume ▸ ih
    rw [thread]
    exact .act hnext
  | aside step thread rest ih =>
    rw [thread] at ih
    exact ih

/-- A thread that is done has finished its call. -/
theorem Traced.calls {s t : Config A R α W} {log : List (Event A R)} {p : Program A R β}
    {f : β → α} (h : M.Traced ok k s log t)
    (hself : ∀ {w a c r w' q}, M.alive w k = true → M.perform k a c w = some (r, w') →
      M.launched a r ≠ some (k, q))
    (hs : s.thread k = p >>= fun x => .done (f x)) (ht : (t.thread k).head = none) :
    ∃ x, M.Calls ok k s p log x t := by
  have hleads := h.leads hself
  rw [hs] at hleads
  rcases hleads.of_bind with ⟨p', hp', hq⟩ | ⟨first, rest, x, rfl, hruns, hdone⟩
  · cases p' with
    | done x => exact ⟨x, h, hp'⟩
    | act a next =>
      rw [hq] at ht
      cases ht
  · obtain rfl := hdone.eq_nil
    rw [List.append_nil] at h ⊢
    exact ⟨x, h, hruns⟩

/-- A schedule in which nothing but its own actions changes thread `k`, with what it did. -/
def trace (M : System A R α W C E) (test : W → ℕ → A → C → Bool) (k : ℕ) :
    List (Move C E) → Config A R α W → Option (List (Event A R) × Config A R α W)
  | [], s => some ([], s)
  | .run i c :: ms, s =>
    match s.thread i with
    | .done _ => none
    | .act a next =>
      if M.alive s.world i && test s.world i a c then
        match M.perform i a c s.world with
        | none => none
        | some (r, w) =>
          if i = k then
            (trace M test k ms ⟨w, M.resume s.thread i a r (next r)⟩).map fun (log, t) =>
              (⟨a, r⟩ :: log, t)
          else if (M.launched a r).all fun (j, _) => j ≠ k then
            trace M test k ms ⟨w, M.resume s.thread i a r (next r)⟩
          else none
      else none
  | .loop i :: ms, s =>
    if i = k then none
    else
      match M.advance test (.loop i) s with
      | none => none
      | some s' => trace M test k ms s'
  | .disturb e :: ms, s =>
    match M.advance test (.disturb e) s with
    | none => none
    | some s' => trace M test k ms s'

/-- What a schedule computes is a run. -/
theorem traced_of_trace {test : W → ℕ → A → C → Bool} {ms : List (Move C E)}
    {s t : Config A R α W} {log : List (Event A R)} (h : M.trace test k ms s = some (log, t)) :
    M.Traced (fun w i a c => test w i a c = true) k s log t := by
  induction ms generalizing s log with
  | nil =>
    cases h
    exact .refl _
  | cons m ms ih =>
    cases m with
    | run i c =>
      simp only [trace] at h
      split at h
      · cases h
      rename_i a next hthread
      split at h
      · rename_i hallowed
        obtain ⟨halive, htest⟩ := (Bool.and_eq_true _ _).mp hallowed
        split at h
        · cases h
        rename_i r w hperform
        split at h
        · rename_i hi
          subst hi
          obtain ⟨⟨log', t'⟩, hrest, heq⟩ := Option.map_eq_some_iff.mp h
          cases heq
          exact .act hthread halive htest hperform (ih hrest)
        · rename_i hi
          split at h
          · rename_i hlaunched
            have hkept : M.resume s.thread i a r (next r) k = s.thread k := by
              unfold resume
              cases hstarted : M.launched a r with
              | none => exact Function.update_of_ne (Ne.symm hi) ..
              | some started =>
                obtain ⟨j, q⟩ := started
                have hj : j ≠ k := by simpa [hstarted] using hlaunched
                exact (Function.update_of_ne hj.symm ..).trans (Function.update_of_ne (Ne.symm hi) ..)
            exact .aside (.act hthread halive htest hperform) hkept (ih h)
          · cases h
      · cases h
    | loop i =>
      simp only [trace] at h
      split at h
      · cases h
      rename_i hi
      split at h
      · cases h
      rename_i s' hadvance
      refine .aside (step_of_advance hadvance) ?_ (ih h)
      simp only [advance] at hadvance
      split at hadvance
      · split at hadvance
        · cases hadvance
        · cases hadvance
          exact Function.update_of_ne (Ne.symm hi) ..
      · cases hadvance
    | disturb e =>
      simp only [trace] at h
      split at h
      · cases h
      rename_i s' hadvance
      refine .aside (step_of_advance hadvance) ?_ (ih h)
      simp only [advance] at hadvance
      split at hadvance
      · cases hadvance
      · cases hadvance
        rfl

/-- A schedule that runs through witnesses a call with whatever a check finds there. -/
theorem exists_calls_of_trace (M : System A R α W C E) (test : W → ℕ → A → C → Bool) (k : ℕ)
    (ms : List (Move C E)) {s : Config A R α W} {p : Program A R β} {f : β → α}
    (hself : ∀ {w a c r w' q}, M.alive w k = true → M.perform k a c w = some (r, w') →
      M.launched a r ≠ some (k, q))
    (hs : s.thread k = p >>= fun x => .done (f x))
    (check : List (Event A R) → Config A R α W → Bool)
    (hok : ∀ w i a c, test w i a c = true → ok w i a c)
    (h : (M.trace test k ms s).any (fun (log, t) => (t.thread k).head.isNone && check log t) =
      true) :
    ∃ log x t, M.Calls ok k s p log x t ∧ check log t = true := by
  obtain ⟨⟨log, t⟩, htrace, hchecked⟩ := (Option.any_eq_true _ _).mp h
  obtain ⟨hdone, hcheck⟩ := (Bool.and_eq_true _ _).mp hchecked
  obtain ⟨x, hcalls⟩ := ((traced_of_trace htrace).mono hok).calls hself hs
    (Option.isNone_iff_eq_none.mp hdone)
  exact ⟨log, x, t, hcalls, hcheck⟩

end System

end Concurrency
