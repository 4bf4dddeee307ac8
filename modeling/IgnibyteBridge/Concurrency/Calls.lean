import IgnibyteBridge.Concurrency.Trace

/-!
# The rule for a call

A call keeps a ghost state of its own. What relates it to the world must survive
the steps of every other thread, so what the call proves of its result is still
true of the world in which it has returned.
-/

namespace Concurrency

variable {A : Type} {R : A → Type} {α β W C E G H : Type}

namespace Program

/-- A program is not what it goes on with. -/
theorem next_ne_act (a : A) (next : R a → Program A R α) (r : R a) : next r ≠ .act a next := by
  intro h
  have hsmaller : ∀ (p : Program A R α) (a : A) (next : R a → Program A R α) (r : R a),
      p = .act a next → next r ≠ p := by
    intro p
    induction p with
    | done x =>
      intro a next r hp
      cases hp
    | act b more ih =>
      intro a next r hp hr
      cases hp
      exact ih r b more r hr rfl
  exact hsmaller _ a next r rfl h

/-- A program that did nothing has everything still to do. -/
theorem Leads.eq_self {p q : Program A R α} (h : p.Leads [] q) : q = p := by
  cases h
  rfl

/-- A call that did nothing has returned. -/
theorem Runs.eq_done {p : Program A R α} {x : α} (h : p.Runs [] x) : p = .done x :=
  (Leads.eq_self h).symm

/-- The first thing that a call did, and the rest of it. -/
theorem Runs.cons {p : Program A R α} {a : A} {r : R a} {log : List (Event A R)} {x : α}
    (h : p.Runs (⟨a, r⟩ :: log) x) : ∃ next, p = .act a next ∧ (next r).Runs log x := by
  cases h with
  | act rest => exact ⟨_, rfl, rest⟩

end Program

namespace System

variable {M : System A R α W C E} {ok ok' : W → ℕ → A → C → Prop} {k : ℕ} {D : Discipline A R G}
  {J : W → G → Prop}

/-- `J` relates the world to the ghost state of a call of thread `k`: the call's own
actions that satisfy `ok` keep it, and so does everything else. -/
structure Upholds (M : System A R α W C E) (ok : W → ℕ → A → C → Prop) (k : ℕ)
    (D : Discipline A R G) (J : W → G → Prop) : Prop where
  own : ∀ {w g a c r w'}, J w g → M.alive w k = true → ok w k a c → D.pre a g →
    M.perform k a c w = some (r, w') → D.fact a g r ∧ J w' (D.post a g r)
  other : ∀ {w g i a c r w'}, J w g → i ≠ k → M.alive w i = true → ok w i a c →
    M.perform i a c w = some (r, w') → J w' g
  disturb : ∀ {w g e w'}, J w g → M.disturb e w = some w' → J w' g

/-- The program of a thread that performed an action and cannot start itself. -/
theorem resume_self {thread : ℕ → Program A R α} {a : A} {r : R a} {p : Program A R α}
    (hself : ∀ q, M.launched a r ≠ some (k, q)) : M.resume thread k a r p k = p := by
  unfold resume
  cases hlaunched : M.launched a r with
  | none => exact Function.update_self ..
  | some started =>
    obtain ⟨j, q⟩ := started
    have hk : k ≠ j := by
      rintro rfl
      exact hself q hlaunched
    exact (Function.update_of_ne hk ..).trans (Function.update_self ..)

/-- A step that leaves thread `k` where it is keeps what relates its call to the world. -/
theorem Upholds.aside {s s' : Config A R α W} {g : G} (hupholds : Upholds M ok k D J)
    (hself : ∀ {w a c r w' q}, M.alive w k = true → M.perform k a c w = some (r, w') →
      M.launched a r ≠ some (k, q))
    (hstep : M.Step ok s s') (hthread : s'.thread k = s.thread k) (hJ : J s.world g) :
    J s'.world g := by
  cases hstep with
  | @act i a next c r w thread alive allowed performed =>
    by_cases hi : i = k
    · subst hi
      -- The thread has moved on, for it is not the program that it goes on with.
      have hnext : M.resume s.thread i a r (next r) i = next r :=
        resume_self fun _ => hself alive performed
      have hsame : next r = .act a next := hnext.symm.trans (hthread.trans thread)
      exact absurd hsame (Program.next_ne_act a next r)
    · exact hupholds.other hJ hi alive allowed performed
  | loop thread again => exact hJ
  | disturb disturbed => exact hupholds.disturb hJ disturbed

/-- **The call rule.** What a call's program establishes of its result holds in every
world in which the call has returned. -/
theorem Calls.returns {s t : Config A R α W} {p : Program A R β} {f : β → Program A R α}
    {log : List (Event A R)} {x : β} {Q : β → G → Prop} {g : G} (h : M.Calls ok k s p log x t)
    (hupholds : Upholds M ok k D J)
    (hself : ∀ {w a c r w' q}, M.alive w k = true → M.perform k a c w = some (r, w') →
      M.launched a r ≠ some (k, q))
    (hthread : s.thread k = p >>= f) (hfollows : p.Follows D Q g) (hJ : J s.world g) :
    ∃ g', J t.world g' ∧ Q x g' := by
  obtain ⟨htraced, hruns⟩ := h
  induction htraced generalizing p g with
  | refl s =>
    cases hruns.eq_done
    exact ⟨g, hJ, hfollows⟩
  | @act s t a next c r w log thread alive allowed performed _ ih =>
    obtain ⟨next', rfl, hrest⟩ := hruns.cons
    obtain ⟨hpre, hnext⟩ := hfollows
    obtain ⟨hfact, hJ'⟩ := hupholds.own hJ alive allowed hpre performed
    rw [hthread] at thread
    cases thread
    refine ih ?_ (hnext r hfact) hJ' hrest
    exact resume_self fun _ => hself alive performed
  | aside step thread _ ih =>
    exact ih (thread.trans hthread) hfollows (hupholds.aside hself step thread hJ) hruns

/-- A condition that follows from what is reachable holds of every action of a call's run. -/
theorem Traced.strengthen {s t : Config A R α W} {log : List (Event A R)}
    (h : M.Traced ok k s log t)
    (hok : ∀ u i a c, M.Reaches ok s u → (u.thread i).head = some a → ok u.world i a c →
      ok' u.world i a c) : M.Traced ok' k s log t := by
  induction h with
  | refl s => exact .refl s
  | @act s t a next c r w log thread alive allowed performed _ ih =>
    have hallowed := hok s k a c .refl (by rw [thread]; rfl) allowed
    exact .act thread alive hallowed performed
      (ih fun u i b d hreach => hok u i b d (.head (.act thread alive allowed performed) hreach))
  | @aside s s' t log step thread _ ih =>
    refine .aside ?_ thread (ih fun u i b d hreach => hok u i b d (.head step hreach))
    cases step with
    | @act i a next c r w thread' alive allowed performed =>
      exact .act thread' alive (hok s i a c .refl (by rw [thread']; rfl) allowed) performed
    | loop thread' again => exact .loop thread' again
    | disturb disturbed => exact .disturb disturbed

/-- In a run through outlined states every action of a call's run is licensed. -/
theorem Calls.licensed {s t : Config A R α W} {p : Program A R β} {log : List (Event A R)} {x : β}
    {D : Discipline A R H} {Q : α → H → Prop} {J : W → (ℕ → H) → Prop}
    (h : M.Calls ok k s p log x t)
    (houtlined : ∀ u, M.Reaches ok s u → Outlined D Q J u) :
    M.Calls (fun w i a c => ok w i a c ∧ Licensed D J w i a) k s p log x t := by
  refine ⟨h.traced.strengthen fun u i a c hreach hhead hallowed => ⟨hallowed, ?_⟩, h.runs⟩
  obtain ⟨γ, hJ, hfollows⟩ := houtlined u hreach
  exact ⟨γ, hJ, (hfollows i).pre_head hhead⟩

/-- A log is divided where the run was at the time. -/
theorem Traced.split {s t : Config A R α W} {log first rest : List (Event A R)}
    (h : M.Traced ok k s log t) (hlog : log = first ++ rest) :
    ∃ u, M.Traced ok k s first u ∧ M.Traced ok k u rest t := by
  induction h generalizing first with
  | refl s =>
    obtain ⟨rfl, rfl⟩ := List.append_eq_nil_iff.mp hlog.symm
    exact ⟨s, .refl s, .refl s⟩
  | @act s t a next c r w log thread alive allowed performed hrest ih =>
    cases first with
    | nil =>
      subst hlog
      exact ⟨s, .refl s, .act thread alive allowed performed hrest⟩
    | cons e first =>
      cases hlog
      obtain ⟨u, hfirst, hlast⟩ := ih rfl
      exact ⟨u, .act thread alive allowed performed hfirst, hlast⟩
  | aside step thread _ ih =>
    obtain ⟨u, hfirst, hlast⟩ := ih hlog
    exact ⟨u, .aside step thread hfirst, hlast⟩

/-- A thread that has ended has returned from what it called first. -/
theorem Traced.returned {s t : Config A R α W} {log : List (Event A R)} {p : Program A R β}
    {after : β → Program A R α} (h : M.Traced ok k s log t)
    (hself : ∀ {w a c r w' q}, M.alive w k = true → M.perform k a c w = some (r, w') →
      M.launched a r ≠ some (k, q))
    (hs : s.thread k = p >>= after) (ht : (t.thread k).head = none) :
    ∃ first rest x u, log = first ++ rest ∧ M.Calls ok k s p first x u ∧
      M.Traced ok k u rest t ∧ (after x).Leads rest (t.thread k) := by
  have hleads := h.leads hself
  rw [hs] at hleads
  rcases hleads.of_bind with ⟨p', hp', hq⟩ | ⟨first, rest, x, hlog, hruns, hafter⟩
  · cases p' with
    | done x =>
      obtain ⟨u, hfirst, hlast⟩ := h.split (List.append_nil log).symm
      exact ⟨log, [], x, u, (List.append_nil log).symm, ⟨hfirst, hp'⟩, hlast, hq ▸ .refl _⟩
    | act a next =>
      rw [hq] at ht
      cases ht
  · obtain ⟨u, hfirst, hlast⟩ := h.split hlog
    exact ⟨first, rest, x, u, hlog, ⟨hfirst, hruns⟩, hlast, hafter⟩

/-- A schedule that runs through without actions of thread `k` leads to a state with whatever
a check finds there, in which that thread is where it was. -/
theorem exists_aside_of_trace (M : System A R α W C E) (test : W → ℕ → A → C → Bool) (k : ℕ)
    (ms : List (Move C E)) (s : Config A R α W)
    (hself : ∀ {w a c r w' q}, M.alive w k = true → M.perform k a c w = some (r, w') →
      M.launched a r ≠ some (k, q))
    (check : Config A R α W → Bool) (hok : ∀ w i a c, test w i a c = true → ok w i a c)
    (h : (M.trace test k ms s).any (fun e => e.1.isEmpty && check e.2) = true) :
    ∃ t, M.Reaches ok s t ∧ t.thread k = s.thread k ∧ check t = true := by
  obtain ⟨⟨log, t⟩, htrace, hchecked⟩ := (Option.any_eq_true _ _).mp h
  obtain ⟨hempty, hcheck⟩ := (Bool.and_eq_true _ _).mp hchecked
  obtain rfl : log = [] := List.isEmpty_iff.mp hempty
  have htraced := (traced_of_trace htrace).mono hok
  exact ⟨t, htraced.reaches, (htraced.leads hself).eq_self, hcheck⟩

end System

end Concurrency
