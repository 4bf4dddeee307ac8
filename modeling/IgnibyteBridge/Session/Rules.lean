import IgnibyteBridge.Session.Knowledge

/-!
# Rules for the parts of a program

Weakest preconditions of the combinators that the programs are written with, and
of the actions that a thread learns nothing from.
-/

namespace IgnibyteBridge

open Concurrency Program Fallible

section Combinators

variable {G α β : Type} {D : Discipline Act Act.Response G} {Q : α → G → Prop}
  {E : String → G → Prop} {g : G}

/-- A program that cannot fail, run for its result. -/
@[simp] theorem meets_lift_prog (p : Prog α) :
    Meets D Q E (IgnibyteBridge.lift p) g ↔ p.Follows D Q g :=
  meets_lift p g

/-- An action on directories, locks and records has results only. -/
theorem meets_disk (a : DiskAct) (Q : a.Response → G → Prop) :
    Meets D Q E (disk a) g ↔
      D.pre (.disk a) g ∧ ∀ r, D.fact (.disk a) g r → Q r (D.post (.disk a) g r) :=
  meets_lift_prog _

/-- An action on processes and threads has results only. -/
theorem meets_proc (a : ProcessAct) (Q : a.Response → G → Prop) :
    Meets D Q E (proc a) g ↔
      D.pre (.process a) g ∧ ∀ r, D.fact (.process a) g r → Q r (D.post (.process a) g r) :=
  meets_lift_prog _

/-- An action on FIFOs, logs, screens and PTYs has results only. -/
theorem meets_file (a : FileAct) (Q : a.Response → G → Prop) :
    Meets D Q E (file a) g ↔
      D.pre (.file a) g ∧ ∀ r, D.fact (.file a) g r → Q r (D.post (.file a) g r) :=
  meets_lift_prog _

/-- A handled error is one more result. -/
@[simp] theorem meets_caught (p : Result α) (Q : Except String α → G → Prop) :
    Meets D Q E (caught p) g ↔ Meets D (fun x => Q (.ok x)) (fun e => Q (.error e)) p g := by
  unfold caught
  rw [meets_lift_prog, follows_run]

/-- `?` goes on with a value, or ends with the error. -/
theorem meets_try {x : Except String α} (hok : ∀ a, x = .ok a → Q a g)
    (herror : ∀ e, x = .error e → E e g) : Meets D Q E (try_ x) g := by
  cases x with
  | ok a => exact hok a rfl
  | error e => exact herror e rfl

/-- `?` after a context goes on with a value, or ends with the error in its context. -/
theorem meets_orThrow {context : String} {x : Option α} (hsome : ∀ a, x = some a → Q a g)
    (hnone : x = none → E context g) : Meets D Q E (orThrow context x) g := by
  cases x with
  | some a => exact hsome a rfl
  | none => exact hnone rfl

/-- A call succeeded, or the context is the error. -/
theorem meets_ensure {context : String} {ok : Bool} {Q : Unit → G → Prop}
    (htrue : ok = true → Q () g) (hfalse : ok = false → E context g) :
    Meets D Q E (ensure context ok) g := by
  cases ok with
  | true => exact htrue rfl
  | false => exact hfalse rfl

/-- A name is accepted, or the program ends. -/
theorem meets_sessionDir {name : String} {Q : Unit → G → Prop}
    (hok : validateSessionName name = .ok () → Q () g)
    (herror : ∀ e, validateSessionName name = .error e → E e g) :
    Meets D Q E (sessionDir name) g :=
  meets_try (fun _ h => hok h) herror

end Combinators

namespace Knowledge

/-- A thread that learned more, and changed nothing else. -/
structure Learns (g g' : Knowledge) : Prop where
  locked : g'.locked = g.locked
  start : g'.start = g.start
  owner : g'.owner = g.owner
  known : ∀ m ∈ g.known, m ∈ g'.known
  gone : ∀ p ∈ g.gone, p ∈ g'.gone

/-- Loading a record changes the progress of no start. -/
def Steady (g : Knowledge) : Prop := ∀ st, g.start = some st → st.window ≠ none ∧ st.next ≠ none

/-- A thread that holds no `status.lock` and whose loads change no start. -/
structure Free (g : Knowledge) : Prop where
  locked : g.locked = none
  steady : g.Steady

/-- Doing nothing changes nothing. -/
theorem Learns.refl (g : Knowledge) : g.Learns g := ⟨rfl, rfl, rfl, fun _ => id, fun _ => id⟩

/-- Two parts teach what both of them teach. -/
theorem Learns.trans {g g' g'' : Knowledge} (h : g.Learns g') (h' : g'.Learns g'') :
    g.Learns g'' where
  locked := h'.locked.trans h.locked
  start := h'.start.trans h.start
  owner := h'.owner.trans h.owner
  known m hm := h'.known m (h.known m hm)
  gone p hp := h'.gone p (h.gone p hp)

/-- A free thread stays free. -/
theorem Learns.free {g g' : Knowledge} (h : g.Learns g') (hg : g.Free) : g'.Free where
  locked := h.locked.trans hg.locked
  steady := by
    unfold Steady
    rw [h.start]
    exact hg.steady

/-- A child that is gone stays gone. -/
theorem Learns.childGone {g g' : Knowledge} (h : g.Learns g') {m : SessionMetadata}
    (hm : g.ChildGone m) : g'.ChildGone m := fun p hp => h.gone p (hm p hp)

/-- Who may mark a run Stopped still may. -/
theorem Learns.mayStop {g g' : Knowledge} (h : g.Learns g') {name : String} {generation : ℕ}
    {by_ : Stopper} (hstop : g.MayStop name generation by_) : g'.MayStop name generation by_ := by
  cases by_ with
  | owner =>
    obtain ⟨o, ho, hname, hgeneration, hgone⟩ := hstop
    exact ⟨o, h.owner.trans ho, hname, hgeneration, fun p hp => h.gone p (hgone p hp)⟩
  | stop m =>
    obtain ⟨howner, hknown, hname, hgeneration, hgone⟩ := hstop
    exact ⟨h.owner.trans howner, h.known m hknown, hname, hgeneration, h.childGone hgone⟩
  | timeout m terminated =>
    obtain ⟨hstart, hknown, hname, hgeneration, hgone⟩ := hstop
    exact ⟨h.start.symm ▸ hstart, h.known m hknown, hname, hgeneration,
      fun ht => h.childGone (hgone ht)⟩

/-- A thread learns that a process is gone. -/
theorem learns_bury (g : Knowledge) (p : ℕ) : g.Learns (g.bury p) :=
  ⟨rfl, rfl, rfl, fun _ => id, fun _ hq => List.mem_cons_of_mem _ hq⟩

/-- A thread learns that a process is gone, or nothing. -/
theorem learns_ite_bury (g : Knowledge) (p : ℕ) (c : Bool) :
    g.Learns (if c then g.bury p else g) := by
  cases c with
  | true => exact learns_bury g p
  | false => exact .refl g

/-- If it does, the process is among those that are gone. -/
theorem mem_gone_ite_bury (g : Knowledge) (p : ℕ) {c : Bool} (hc : c = true) :
    p ∈ (if c then g.bury p else g).gone := by
  rw [if_pos hc]
  exact List.mem_cons_self

/-- Loading changes nothing of a steady start. -/
theorem Steady.load_start {g : Knowledge} (hg : g.Steady) (loaded : Option SessionMetadata) :
    (g.start.map fun st => StartGhost.load st loaded) = g.start := by
  cases hstart : g.start with
  | none => rfl
  | some st =>
    obtain ⟨hwindow, hnext⟩ := hg st hstart
    simp only [Option.map_some, StartGhost.load, hwindow, hnext, if_false]

/-- A free thread only learns from loading. -/
theorem Free.learns_load {g : Knowledge} (hg : g.Free) (loaded : Option SessionMetadata) :
    g.Learns (g.load loaded) where
  locked := by rw [load, hg.locked]; rfl
  start := hg.steady.load_start loaded
  owner := rfl
  known m hm := List.mem_append_right _ hm
  gone _ := id

/-- A record that was loaded is known. -/
theorem mem_known_load (g : Knowledge) (m : SessionMetadata) : m ∈ (g.load (some m)).known :=
  List.mem_cons_self

end Knowledge

end IgnibyteBridge
