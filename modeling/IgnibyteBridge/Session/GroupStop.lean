import IgnibyteBridge.Session.Termination

/-!
# Terminating a process group

`terminate_pid` signals a whole process group and then watches its leader only.
Time is counted in polls: how long a process takes to react to a signal is the
number of sleeps of `terminate_pid` that it survives. The signals are those that
`terminate_pid` sends. The kernel may send SIGHUP to the group as well when the
session's terminal goes away; it is not modelled, so a process that survives here
is one that SIGHUP does not end either.
-/

namespace IgnibyteBridge.Termination

open Concurrency Program Fallible Function

/-- How a process reacts to the two signals. -/
structure Reaction where
  /-- The sleeps it survives a SIGTERM for, unless it ignores it. -/
  term : Option ℕ
  /-- The sleeps it survives a SIGKILL for. -/
  kill : ℕ

/-- A process group and the reactions of its members to the signals of `terminate_pid`;
SIGHUP ends none of them. -/
structure Group where
  leader : ℕ
  members : List ℕ
  reaction : ℕ → Reaction
  positive : 0 < leader
  leads : leader ∈ members

/-- The sleeps so far, and when each process was first sent each signal. -/
structure GroupState where
  tick : ℕ := 0
  sent : Signal → ℕ → Option ℕ := fun _ _ => none

namespace GroupState

/-- Whether a process that was signalled like this is gone at a tick. -/
def goneAt (s : GroupState) (reaction : Reaction) (pid t : ℕ) : Bool :=
  (match s.sent .term pid, reaction.term with
    | some sent, some delay => sent + delay ≤ t
    | _, _ => false) ||
  match s.sent .kill pid with
  | some sent => sent + reaction.kill ≤ t
  | none => false

end GroupState

namespace Group

variable (g : Group)

/-- Whether a member is alive. -/
def alive (s : GroupState) (pid : ℕ) : Bool := !s.goneAt (g.reaction pid) pid s.tick

/-- The living members that a signal reaches. -/
def reached (s : GroupState) (target : ℤ) : List ℕ :=
  g.members.filter fun pid => g.alive s pid && (target == pid || target == -(g.leader : ℤ))

/-- The answers of the kernel. The record is not used. -/
def answer : (a : StopAct) → GroupState → a.Response × GroupState
  | .loadMetadata _, s => (.error "", s)
  | .markStopped .., s => (.error "", s)
  | .kill target signal, s =>
    (if g.reached s target = [] then .noProcess else .ok,
      { s with
        sent := update s.sent signal fun pid =>
          if pid ∈ g.reached s target then s.sent signal pid <|> some s.tick
          else s.sent signal pid })
  | .processAlive pid, s => (g.members.any fun p => g.alive s p && pid == p, s)
  | .processStartTime _, s => (none, s)
  | .sleep, s => ((), { s with tick := s.tick + 1 })

/-- A member has reacted by a tick to a SIGTERM that was sent at the start. -/
def Reacted (pid t : ℕ) : Prop := ∃ delay, (g.reaction pid).term = some delay ∧ delay ≤ t

/-- A member is gone by a tick, when SIGTERM is sent at the start and SIGKILL after
twenty sleeps. -/
def Gone (pid t : ℕ) : Prop := g.Reacted pid t ∨ 20 + (g.reaction pid).kill ≤ t

/-- `terminate_pid` on the leader of a living group. -/
def terminated : Except String Unit × GroupState :=
  (terminatePid g.leader).run.eval g.answer {}

end Group

namespace Group

variable {g : Group} {s : GroupState} {t pid : ℕ} {E : String → GroupState → Prop}

/-- What is gone stays gone. -/
theorem Gone.mono {u : ℕ} (h : g.Gone pid t) (htu : t ≤ u) : g.Gone pid u := by
  rcases h with ⟨delay, hdelay, hle⟩ | hkill
  · exact .inl ⟨delay, hdelay, hle.trans htu⟩
  · exact .inr (hkill.trans htu)

/-- A call has the one outcome that the kernel answers. -/
theorem meets_call (a : StopAct) {Q : a.Response → GroupState → Prop}
    (h : Q (g.answer a s).1 (g.answer a s).2) : Meets (answering g.answer) Q E (call a) s :=
  Fallible.meets_answered h

/-- Every member was sent SIGTERM at the start. Once killing has begun, every member that
had not reacted after twenty sleeps was sent SIGKILL then. -/
structure Signalled (g : Group) (killing : Bool) (t : ℕ) (s : GroupState) : Prop where
  tick : s.tick = t
  late : killing = true → 20 ≤ t
  term : ∀ pid ∈ g.members, s.sent .term pid = some 0
  kill : ∀ pid ∈ g.members, s.sent .kill pid = none ∧ (killing = true → g.Reacted pid 20) ∨
    killing = true ∧ s.sent .kill pid = some 20

/-- A member is alive until it has reacted. -/
theorem Signalled.alive_iff {killing : Bool} (h : g.Signalled killing t s) (hpid : pid ∈ g.members)
    (hpoll : killing = true ∨ t < 20) : g.alive s pid = true ↔ ¬g.Gone pid t := by
  have hterm := h.term pid hpid
  have hgone : g.alive s pid = false ↔ g.Gone pid t := by
    simp only [alive, GroupState.goneAt, Gone, Reacted, hterm, h.tick, Bool.not_eq_false',
      Bool.or_eq_true]
    rcases h.kill pid hpid with ⟨hkill, hspared⟩ | ⟨hkilling, hkill⟩
    · -- A member that was not sent SIGKILL, because nobody was or because it was gone.
      have hextra : 20 + (g.reaction pid).kill ≤ t → g.Reacted pid t := by
        intro hle
        rcases hpoll with hkilling | hearly
        · obtain ⟨delay, hdelay, hle'⟩ := hspared hkilling
          exact ⟨delay, hdelay, hle'.trans (h.late hkilling)⟩
        · omega
      rw [hkill]
      unfold Reacted at hextra
      cases hdelay : (g.reaction pid).term with
      | none => simp [hdelay] at hextra ⊢; exact hextra
      | some delay => simp [hdelay] at hextra ⊢; exact fun h => hextra h
    · rw [hkill]
      cases hdelay : (g.reaction pid).term with
      | none => simp
      | some delay => simp
  rw [← hgone, Bool.not_eq_false]

/-- A poll finds the leader alive until it is gone. -/
theorem Signalled.poll {killing : Bool} (h : g.Signalled killing t s)
    (hpoll : killing = true ∨ t < 20) :
    (g.answer (.processAlive g.leader) s).1 = true ↔ ¬g.Gone g.leader t := by
  rw [← h.alive_iff g.leads hpoll]
  simp only [answer, List.any_eq_true, Bool.and_eq_true, beq_iff_eq, Int.natCast_inj]
  constructor
  · rintro ⟨pid, -, halive, rfl⟩
    exact halive
  · exact fun halive => ⟨g.leader, g.leads, halive, rfl⟩

/-- A sleep sends nothing and takes one tick. -/
theorem Signalled.sleep {killing : Bool} (h : g.Signalled killing t s) :
    g.Signalled killing (t + 1) (g.answer .sleep s).2 :=
  ⟨congrArg (· + 1) h.tick, fun hkilling => Nat.le_succ_of_le (h.late hkilling), h.term, h.kill⟩

/-- The polling loop ends at the first poll that finds the leader gone. -/
theorem meets_foundGone {killing : Bool} (polls : ℕ) (hpolls : killing = true ∨ t + polls ≤ 20)
    (h : g.Signalled killing t s) :
    Meets (answering g.answer)
      (fun found s => ∃ u, t ≤ u ∧ g.Signalled killing u s ∧
        (∀ v, t ≤ v → v < u → ¬g.Gone g.leader v) ∧
        if found then (killing = true ∨ u < 20) ∧ g.Gone g.leader u else u = t + polls)
      E (foundGone g.leader polls) s := by
  induction polls generalizing s t with
  | zero => exact ⟨t, le_rfl, h, fun v htv hvt => by omega, rfl⟩
  | succ polls ih =>
    have hpoll : killing = true ∨ t < 20 := hpolls.imp_right fun hle => by omega
    unfold foundGone
    rw [meets_bind]
    refine meets_call _ ?_
    cases halive : (g.answer (.processAlive g.leader) s).1 with
    | true =>
      have hleader := (h.poll hpoll).mp halive
      simp only [if_true]
      rw [meets_bind]
      refine meets_call _ ?_
      refine Meets.mono (ih (hpolls.imp_right fun hle => by omega) h.sleep) ?_ fun _ _ => id
      rintro found s' ⟨u, htu, hsignalled, hbefore, hfound⟩
      refine ⟨u, by omega, hsignalled, fun v htv hvu => ?_, ?_⟩
      · by_cases hv : v = t
        · rwa [hv]
        · exact hbefore v (by omega) hvu
      · cases found with
        | true => exact hfound
        | false =>
          rw [if_neg Bool.false_ne_true] at hfound ⊢
          omega
    | false =>
      refine ⟨t, le_rfl, h, fun v htv hvt => by omega, ?_⟩
      have hleader : ¬¬g.Gone g.leader t := by
        rw [← h.poll hpoll, halive]
        exact Bool.false_ne_true
      exact ⟨hpoll, not_not.mp hleader⟩

/-- What a member was sent after one more signal. -/
theorem sent_kill (target : ℤ) (signal : Signal) :
    (g.answer (.kill target signal) s).2.sent signal pid =
      if pid ∈ g.reached s target then s.sent signal pid <|> some s.tick else s.sent signal pid := by
  simp [answer]

/-- A signal counts as that signal only. -/
theorem sent_kill_of_ne {target : ℤ} {signal other : Signal} (h : other ≠ signal) :
    (g.answer (.kill target signal) s).2.sent other pid = s.sent other pid := by
  simp [answer, update_of_ne h]

/-- A signal to the group reaches its living members. -/
theorem mem_reached_group (hpid : pid ∈ g.members) :
    pid ∈ g.reached s (-(g.leader : ℤ)) ↔ g.alive s pid = true := by
  simp [reached, hpid]

/-- The first SIGTERM reaches every member, and no later one changes anything. -/
theorem signalled_term {target : ℤ} (hstart : s = {} ∧ target = -(g.leader : ℤ) ∨
    g.Signalled false 0 s) : g.Signalled false 0 (g.answer (.kill target .term) s).2 where
  tick := by
    rcases hstart with ⟨rfl, -⟩ | h
    · rfl
    · exact h.tick
  late := nofun
  term pid hpid := by
    rw [sent_kill]
    rcases hstart with ⟨rfl, rfl⟩ | h
    · rw [if_pos ((mem_reached_group hpid).mpr rfl)]
      rfl
    · rw [h.term pid hpid]
      split <;> rfl
  kill pid hpid := by
    rw [sent_kill_of_ne (by decide)]
    rcases hstart with ⟨rfl, -⟩ | h
    · exact .inl ⟨rfl, nofun⟩
    · exact h.kill pid hpid

/-- The first SIGKILL reaches every member that has not reacted, and no later one changes
anything. -/
theorem signalled_kill {target : ℤ} (hstart : g.Signalled false 20 s ∧ target = -(g.leader : ℤ) ∨
    g.Signalled true 20 s) : g.Signalled true 20 (g.answer (.kill target .kill) s).2 where
  tick := by
    rcases hstart with ⟨h, -⟩ | h
    · exact h.tick
    · exact h.tick
  late _ := le_rfl
  term pid hpid := by
    rw [sent_kill_of_ne (by decide)]
    rcases hstart with ⟨h, -⟩ | h
    · exact h.term pid hpid
    · exact h.term pid hpid
  kill pid hpid := by
    rw [sent_kill]
    rcases hstart with ⟨h, rfl⟩ | h
    · have hnone : s.sent .kill pid = none := (h.kill pid hpid).elim And.left nofun
      rw [hnone, h.tick]
      cases halive : g.alive s pid with
      | true => exact .inr ⟨rfl, if_pos ((mem_reached_group hpid).mpr halive)⟩
      | false =>
        refine .inl ⟨if_neg fun hmem => ?_, fun _ => ?_⟩
        · rw [(mem_reached_group hpid).mp hmem] at halive
          cases halive
        · simp only [alive, GroupState.goneAt, h.term pid hpid, hnone, h.tick] at halive
          cases hdelay : (g.reaction pid).term with
          | none => simp [hdelay] at halive
          | some delay => exact ⟨delay, hdelay, by simpa [hdelay] using halive⟩
    · rw [h.tick]
      rcases h.kill pid hpid with ⟨hnone, hreacted⟩ | ⟨-, hsent⟩
      · rw [hnone]
        split
        · exact .inr ⟨rfl, rfl⟩
        · exact .inl ⟨rfl, hreacted⟩
      · rw [hsent]
        exact .inr ⟨rfl, by split <;> rfl⟩

/-- One signal of the loop: no error is added, and a signal that reached somebody is noted. -/
theorem meets_signalTargets {signal : Signal} {target : ℤ} {targets : List ℤ} {sent : Bool}
    {Q : Bool × List String → GroupState → Prop}
    (h : Meets (answering g.answer) Q E
      (signalTargets signal targets (sent || !(g.reached s target).isEmpty) [])
      (g.answer (.kill target signal) s).2) :
    Meets (answering g.answer) Q E (signalTargets signal (target :: targets) sent []) s := by
  unfold signalTargets
  rw [meets_bind]
  refine meets_call _ ?_
  have hanswer : (g.answer (.kill target signal) s).1 =
      if g.reached s target = [] then Sent.noProcess else Sent.ok := rfl
  rw [hanswer]
  cases hreached : g.reached s target with
  | nil =>
    rw [hreached, List.isEmpty_nil, Bool.not_true, Bool.or_false] at h
    exact h
  | cons pid pids =>
    rw [hreached, List.isEmpty_cons, Bool.not_false, Bool.or_true] at h
    exact h

/-- A signal to the group and to its leader, over a kernel that refuses neither. -/
theorem meets_signalPidAndGroup {signal : Signal} {Q : Bool → GroupState → Prop}
    (h : ∀ sent, (g.reached s (-(g.leader : ℤ)) ≠ [] → sent = true) →
      Q sent (g.answer (.kill g.leader signal) (g.answer (.kill (-(g.leader : ℤ)) signal) s).2).2) :
    Meets (answering g.answer) Q E (signalPidAndGroup g.leader signal) s := by
  unfold signalPidAndGroup
  rw [meets_bind]
  refine meets_signalTargets (meets_signalTargets ?_)
  simp only [signalTargets, meets_pure, List.isEmpty_nil, Bool.not_true, Bool.and_false,
    Bool.false_eq_true, if_false]
  refine h _ fun hreached => ?_
  have hsome : (g.reached s (-(g.leader : ℤ))).isEmpty = false := by simpa using hreached
  rw [hsome]
  simp

/-- What is known of the group once the leader was found gone. -/
def Found (g : Group) (s : GroupState) : Prop :=
  ∃ killing u, g.Signalled killing u s ∧ (killing = true ∨ u < 20) ∧ g.Gone g.leader u ∧
    ∀ v, v < u → ¬g.Gone g.leader v

/-- `terminate_pid` returns once it has found the leader gone. -/
theorem meets_terminatePid (hkill : (g.reaction g.leader).kill < 20) :
    Meets (answering g.answer) (fun _ s => g.Found s) (fun _ _ => False)
      (terminatePid g.leader) {} := by
  have hpositive : ¬(g.leader : ℤ) ≤ 0 := by
    have := g.positive
    omega
  unfold terminatePid
  rw [if_neg hpositive, meets_bind]
  refine meets_signalPidAndGroup fun termSent hterm => ?_
  have htermSent : termSent = true := by
    refine hterm fun hreached => ?_
    have hleader := (mem_reached_group (s := {}) g.leads).mpr rfl
    rw [hreached] at hleader
    cases hleader
  rw [meets_bind]
  refine Meets.mono (meets_foundGone 20 (.inr le_rfl)
    (signalled_term (.inr (signalled_term (.inl ⟨rfl, rfl⟩))))) ?_ fun _ _ => id
  rintro found s₁ ⟨u, -, hsignalled, hbefore, hfound⟩
  cases found with
  | true => exact ⟨false, u, hsignalled, hfound.1, hfound.2, fun v => hbefore v (Nat.zero_le v)⟩
  | false =>
    obtain rfl : u = 20 := by simpa using hfound
    simp only [Bool.false_eq_true, if_false]
    rw [meets_bind]
    refine meets_signalPidAndGroup fun killSent _ => ?_
    rw [htermSent]
    simp only [Bool.not_true, Bool.false_and, Bool.false_eq_true, if_false]
    rw [meets_bind]
    refine Meets.mono (meets_foundGone 20 (.inl rfl)
      (signalled_kill (.inr (signalled_kill (.inl ⟨hsignalled, rfl⟩))))) ?_ fun _ _ => id
    rintro found s₂ ⟨u, -, hsignalled', hbefore', hfound'⟩
    have hall : ∀ v, v < u → ¬g.Gone g.leader v := by
      intro v hvu
      by_cases hv : v < 20
      · exact hbefore v (Nat.zero_le v) hv
      · exact hbefore' v (by omega) hvu
    cases found with
    | true => exact ⟨true, u, hsignalled', hfound'.1, hfound'.2, hall⟩
    | false =>
      have hu : u = 20 + 20 := by simpa using hfound'
      exact hall 39 (by omega) (.inr (by omega))

/-- **Termination of a group.** If SIGKILL ends a process within the polling window,
`terminate_pid` on the leader of a living group succeeds, and it leaves no member alive
exactly when no member outlives the leader. -/
theorem terminatePid_group (g : Group) (hkill : ∀ pid ∈ g.members, (g.reaction pid).kill < 20) :
    g.terminated.1 = .ok () ∧ ((∀ pid ∈ g.members, g.alive g.terminated.2 pid = false) ↔
      ∀ pid ∈ g.members, ∀ t, g.Gone g.leader t → g.Gone pid t) := by
  have hmeets := (follows_run _ (fun r s => r = .ok () ∧ g.Found s) _).mpr
    (Meets.mono (meets_terminatePid (hkill _ g.leads)) (fun _ _ h => ⟨rfl, h⟩) fun _ _ => False.elim)
  obtain ⟨hok, killing, u, hsignalled, hpoll, hleader, hbefore⟩ :=
    (follows_answering g.answer _ _ _).mp hmeets
  refine ⟨hok, ?_⟩
  have hgone : ∀ pid ∈ g.members, g.alive g.terminated.2 pid = false ↔ g.Gone pid u := by
    intro pid hpid
    have halive := hsignalled.alive_iff hpid hpoll
    rw [← Bool.not_eq_true]
    exact (not_congr halive).trans not_not
  constructor
  · intro hdead pid hpid t ht
    have hut : u ≤ t := Nat.le_of_not_lt fun htu => hbefore t htu ht
    exact ((hgone pid hpid).mp (hdead pid hpid)).mono hut
  · intro hall pid hpid
    exact (hgone pid hpid).mpr (hall pid hpid u hleader)

end Group

/-- A leader that takes a moment to exit, and a member that exits at once. -/
def obedient : Group where
  leader := 5
  members := [5, 6]
  reaction pid := if pid = 5 then ⟨some 1, 0⟩ else ⟨some 0, 0⟩
  positive := by decide
  leads := by decide

/-- No member outlives the leader of an obedient group. -/
theorem terminatePid_group_obedient :
    obedient.terminated.1 = .ok () ∧
      ∀ pid ∈ obedient.members, obedient.alive obedient.terminated.2 pid = false := by
  obtain ⟨hok, hgone⟩ := Group.terminatePid_group obedient (by decide)
  refine ⟨hok, hgone.mpr fun pid hpid t hleader => ?_⟩
  have hpid' : pid = 5 ∨ pid = 6 := by simpa [obedient] using hpid
  rcases hpid' with rfl | rfl
  · exact hleader
  · exact .inl ⟨0, rfl, Nat.zero_le t⟩

/-- The leader exits on SIGTERM at once, and another member ignores it, as it does
SIGHUP. -/
def stubborn : Group where
  leader := 5
  members := [5, 6]
  reaction pid := if pid = 5 then ⟨some 0, 0⟩ else ⟨none, 0⟩
  positive := by decide
  leads := by decide

/-- The member that ignores SIGTERM is never sent SIGKILL. -/
theorem terminatePid_leaves_stubborn :
    (∀ pid ∈ stubborn.members, (stubborn.reaction pid).kill < 20) ∧
      stubborn.terminated.1 = .ok () ∧ 6 ∈ stubborn.members ∧
      stubborn.alive stubborn.terminated.2 6 = true := by
  refine ⟨by decide, ?_, by decide, by decide +kernel⟩
  rfl

end IgnibyteBridge.Termination
