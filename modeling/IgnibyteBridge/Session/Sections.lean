import IgnibyteBridge.Session.Steps

/-!
# Critical sections

Both locks exclude their live holders, and the record that a thread loaded under
`status.lock` is still on disk when it saves, unless a start saved an initial
record meanwhile: starts do not take that lock.
-/

namespace IgnibyteBridge

open Concurrency

namespace World

/-- The records on disk: each lies under its name, and exists once a start saved one. -/
structure Filed (w : World) : Prop where
  name : ∀ n m, w.metadata n = some m → m.name = n
  inits : ∀ n, w.metadata n = none ↔ w.inits n = []

/-- The record `c` that thread `i` loaded is still on disk, or an initial record
replaced it. -/
def Pending (w : World) (i : ℕ) (n : String) (c : SessionMetadata) : Prop :=
  ∃ k, w.loadedAt i = some k ∧ 0 < k ∧ k ≤ (w.inits n).length ∧
    (w.metadata n = some c ∨
      (k < (w.inits n).length ∧ ∃ d, w.metadata n = some d ∧ d.status = .starting))

/-- What a thread's critical sections mean. -/
structure InSection (w : World) (i : ℕ) (g : Knowledge) : Prop where
  status : ∀ n c, g.locked = some (n, c) → w.statusLock n = some i
  start : ∀ st, g.start = some st → st.held = true → w.startLock st.name = some i
  copy : ∀ n c, g.locked = some (n, some c) → c.name = n ∧ w.Pending i n c

/-- The invariant of the critical sections. -/
structure Excluded (w : World) (γ : ℕ → Knowledge) : Prop where
  sound : w.Sound
  filed : w.Filed
  threads : Threads InSection w γ

/-- A pending change is a change of a record that is there. -/
theorem Pending.isSome {w : World} {i : ℕ} {n : String} {c : SessionMetadata}
    (h : w.Pending i n c) : w.metadata n ≠ none := by
  obtain ⟨k, -, -, -, hd | ⟨-, d, hd, -⟩⟩ := h <;> simp [hd]

/-- A loaded record is the record on disk, once that is not Starting. -/
theorem Pending.eq {w : World} {i : ℕ} {n : String} {c d : SessionMetadata} (h : w.Pending i n c)
    (hd : w.metadata n = some d) (hstatus : d.status ≠ .starting) : c = d := by
  obtain ⟨k, -, -, -, hc | ⟨-, d', hd', hstarting⟩⟩ := h
  · rw [hc] at hd
    exact Option.some.inj hd
  · rw [hd'] at hd
    cases hd
    exact absurd hstarting hstatus

/-- Without an initial save since the load, the loaded record is the record on disk. -/
theorem Pending.fresh {w : World} {i : ℕ} {n : String} {c : SessionMetadata} (h : w.Pending i n c)
    (hfresh : w.loadedAt i = some (w.inits n).length) : w.metadata n = some c := by
  obtain ⟨k, hk, -, -, hc | ⟨hlt, -⟩⟩ := h
  · exact hc
  · rw [hfresh] at hk
    cases hk
    exact absurd hlt (Nat.lt_irrefl _)

/-- A section stays what it is while the disk does. -/
theorem InSection.of_sameDisk {w w' : World} {i : ℕ} {g g' : Knowledge} (h : InSection w i g)
    (hdisk : w.SameDisk w') (hlocked : g'.locked = g.locked)
    (hstart : ∀ st, g'.start = some st →
      ∃ st₀, g.start = some st₀ ∧ st.name = st₀.name ∧ st.held = st₀.held) :
    InSection w' i g' where
  status n c hc := by
    rw [hdisk.statusLock]
    exact h.status n c (hlocked ▸ hc)
  start st hst hheld := by
    obtain ⟨st₀, hst₀, hname, hheld₀⟩ := hstart st hst
    rw [hdisk.startLock, hname]
    exact h.start st₀ hst₀ (hheld₀ ▸ hheld)
  copy n c hc := by
    unfold Pending
    rw [hdisk.loadedAt, hdisk.inits, hdisk.metadata]
    exact h.copy n c (hlocked ▸ hc)

/-- A thread that holds no lock is in no section. -/
theorem inSection_empty (w : World) (i : ℕ) {g : Knowledge} (hlocked : g.locked = none)
    (hstart : g.start = none) : InSection w i g where
  status n c h := by
    rw [hlocked] at h
    cases h
  start st h := by
    rw [hstart] at h
    cases h
  copy n c h := by
    rw [hlocked] at h
    cases h

/-- A thread begins outside every section. -/
theorem inSection_fresh (w : World) (i : ℕ) (a : Act) (g : Knowledge) (r : a.Response) :
    InSection w i (Knowledge.fresh a g r) := by
  unfold Knowledge.fresh
  split <;> exact inSection_empty w i rfl rfl

/-- What a thread learns from an action on processes or files keeps its sections. -/
theorem post_process_sections (a : ProcessAct) (g : Knowledge) (r : a.Response) :
    (Knowledge.post (.process a) g r).locked = g.locked ∧
      ∀ st, (Knowledge.post (.process a) g r).start = some st →
        ∃ st₀, g.start = some st₀ ∧ st.name = st₀.name ∧ st.held = st₀.held := by
  have hsame : ∀ st, g.start = some st →
      ∃ st₀, g.start = some st₀ ∧ st.name = st₀.name ∧ st.held = st₀.held :=
    fun st h => ⟨st, h, rfl, rfl⟩
  have hspawned : ∀ st, (g.start.map fun st => { st with spawned := true }) = some st →
      ∃ st₀, g.start = some st₀ ∧ st.name = st₀.name ∧ st.held = st₀.held := by
    intro st h
    obtain ⟨st₀, hst₀, rfl⟩ := Option.map_eq_some_iff.mp h
    exact ⟨st₀, hst₀, rfl, rfl⟩
  have hbury : ∀ (p : ℕ) (b : Bool), (if b then g.bury p else g).locked = g.locked ∧
      ∀ st, (if b then g.bury p else g).start = some st →
        ∃ st₀, g.start = some st₀ ∧ st.name = st₀.name ∧ st.held = st₀.held := by
    intro p b
    cases b <;> exact ⟨rfl, hsame⟩
  cases a
  case processStartTime p =>
    cases r with
    | none => exact hbury p _
    | some t => exact ⟨rfl, hsame⟩
  case pidIsOurs p startTime =>
    cases p with
    | none => exact ⟨rfl, hsame⟩
    | some p =>
      cases r with
      | true => exact ⟨rfl, hsame⟩
      | false => exact hbury p _
  case terminatePid p =>
    cases r with
    | error e => exact ⟨rfl, hsame⟩
    | ok u => exact hbury p _
  case spawnSupervisor name cwd cmd =>
    cases r with
    | none => exact ⟨rfl, hsame⟩
    | some j => exact ⟨rfl, hspawned⟩
  case spawnOwner => exact ⟨rfl, hspawned⟩
  case spawnCommand =>
    cases r with
    | none => exact ⟨rfl, hsame⟩
    | some p => exact ⟨rfl, hsame⟩
  all_goals exact ⟨rfl, hsame⟩

/-- A lock that is free is not held by a live thread. -/
theorem lockFree_not_held {w : World} {holder : Option ℕ} (hfree : w.lockFree holder = true) {k : ℕ}
    (hk : w.alive k = true) : holder ≠ some k := by
  rintro rfl
  simp [lockFree, hk] at hfree

/-- A thread other than the holder of a lock keeps its sections when the lock changes hands. -/
theorem InSection.of_locks {w w' : World} {k : ℕ} {g : Knowledge} (h : InSection w k g)
    (hstatus : ∀ n, w.statusLock n = some k → w'.statusLock n = some k)
    (hstart : ∀ n, w.startLock n = some k → w'.startLock n = some k)
    (hmetadata : w'.metadata = w.metadata) (hinits : w'.inits = w.inits)
    (hloadedAt : w'.loadedAt k = w.loadedAt k) : InSection w' k g where
  status n c hc := hstatus n (h.status n c hc)
  start st hst hheld := hstart _ (h.start st hst hheld)
  copy n c hc := by
    unfold Pending
    rw [hmetadata, hinits, hloadedAt]
    exact h.copy n c hc

/-- A lock that one thread takes while it is free is no other live thread's. -/
theorem update_held {lock : String → Option ℕ} {name : String} {o : Option ℕ} {k : ℕ}
    (hname : lock name ≠ some k) (n : String) (hn : lock n = some k) :
    Function.update lock name o n = some k := by
  have hne : n ≠ name := by
    rintro rfl
    exact hname hn
  rw [Function.update_of_ne hne, hn]

/-- A copy that is pending stays so, or is superseded, when an initial record is saved. -/
theorem Pending.save_initial {w : World} {k i : ℕ} {n : String} {c m : SessionMetadata}
    (h : w.Pending k n c) (hm : m.status = .starting) :
    (w.save i .initial m).Pending k n c := by
  obtain ⟨j, hj, hpos, hle, hd⟩ := h
  by_cases hn : n = m.name
  · subst hn
    have hlength : ((w.save i .initial m).inits m.name).length = (w.inits m.name).length + 1 := by
      simp [save, initsAfter]
    refine ⟨j, hj, hpos, by omega, .inr ⟨by omega, { m with origin := i }, ?_, hm⟩⟩
    exact Function.update_self ..
  · have hinits : (w.save i .initial m).inits n = w.inits n := Function.update_of_ne hn ..
    have hmetadata : (w.save i .initial m).metadata n = w.metadata n := Function.update_of_ne hn ..
    refine ⟨j, hj, hpos, ?_⟩
    rw [hinits, hmetadata]
    exact ⟨hle, hd⟩

/-- A save under `status.lock` touches no copy of another session. -/
theorem Pending.save_other {w : World} {k i : ℕ} {n : String} {c m : SessionMetadata} {site : Site}
    (h : w.Pending k n c) (hsite : site ≠ .initial) (hn : n ≠ m.name) :
    (w.save i site m).Pending k n c := by
  have hinits : (w.save i site m).inits = w.inits := by
    cases site <;> first | rfl | exact absurd rfl hsite
  have hmetadata : (w.save i site m).metadata n = w.metadata n := Function.update_of_ne hn ..
  obtain ⟨j, hj, hpos, hle, hd⟩ := h
  refine ⟨j, hj, hpos, ?_⟩
  rw [hinits, hmetadata]
  exact ⟨hle, hd⟩

/-- Loading keeps a start's name and its lock. -/
theorem start_load_keeps {g : Knowledge} {loaded : Option SessionMetadata} {st : StartGhost}
    (hst : (g.load loaded).start = some st) :
    ∃ st₀, g.start = some st₀ ∧ st.name = st₀.name ∧ st.held = st₀.held := by
  obtain ⟨st₀, hst₀, rfl⟩ := Option.map_eq_some_iff.mp hst
  refine ⟨st₀, hst₀, ?_⟩
  unfold StartGhost.load
  split
  · exact ⟨rfl, rfl⟩
  · split <;> exact ⟨rfl, rfl⟩

/-- Every record is filed under the name it carries, after a save as before. -/
theorem Filed.save {w : World} (h : w.Filed) (i : ℕ) {site : Site} {m : SessionMetadata}
    (hsite : site = .initial ∨ w.metadata m.name ≠ none) : (w.save i site m).Filed where
  name n d hd := by
    by_cases hn : n = m.name
    · subst hn
      simp only [World.save, Function.update_self, Option.some.injEq] at hd
      subst hd
      cases site <;> rfl
    · simp only [World.save, Function.update_of_ne hn] at hd
      exact h.name n d hd
  inits n := by
    by_cases hn : n = m.name
    · subst hn
      cases site
      case initial => simp [World.save, initsAfter]
      all_goals
        have hexists := hsite.resolve_left (by simp)
        have hinits := fun hnone => hexists ((h.inits m.name).mpr hnone)
        simpa [World.save, initsAfter] using hinits
    · have hinits : (w.save i site m).inits n = w.inits n := by
        cases site
        case initial => exact Function.update_of_ne hn ..
        all_goals rfl
      rw [hinits]
      simp only [World.save, Function.update_of_ne hn]
      exact h.inits n

/-- The record on disk, its successor and the sections of the saving thread. -/
theorem Excluded.save {w : World} {γ : ℕ → Knowledge} {i : ℕ} {site : Site} {m : SessionMetadata}
    (hJ : Excluded w γ) (hi : w.alive i = true)
    (hpre : Knowledge.pre (.disk (.saveMetadata site m)) (γ i)) :
    (w.save i site m).Filed ∧ InSection (w.save i site m) i ((γ i).save site m) ∧
      ∀ k, k ≠ i → w.alive k = true → InSection w k (γ k) → InSection (w.save i site m) k (γ k) := by
  have hT := hJ.threads i hi
  rcases hpre with ⟨rfl, hlocked, st, x, hst, hheld, hname, -, -, -, -, hstatus, -⟩ |
    ⟨c, hlocked, hreplace⟩
  · refine ⟨hJ.filed.save i (.inl rfl), ?_, fun k _ _ hTk => ?_⟩
    · refine ⟨fun n c hc => hT.status n c hc, fun st' hst' hheld' => ?_, fun n c hc => ?_⟩
      · obtain ⟨st₀, hst₀, rfl⟩ := Option.map_eq_some_iff.mp hst'
        exact hT.start st₀ hst₀ hheld'
      · change (γ i).locked = some (n, some c) at hc
        rw [hlocked] at hc
        cases hc
    · exact ⟨hTk.status, hTk.start, fun n c hc =>
        ⟨(hTk.copy n c hc).1, (hTk.copy n c hc).2.save_initial hstatus⟩⟩
  · obtain ⟨hname, hsite, -, -⟩ := hreplace.keeps
    have hholder : w.statusLock m.name = some i := by
      rw [hname]
      exact hT.status _ _ hlocked
    have hexists : w.metadata m.name ≠ none := by
      rw [hname]
      exact (hT.copy _ _ hlocked).2.isSome
    refine ⟨hJ.filed.save i (.inr hexists), ?_, fun k hk _ hTk => ?_⟩
    · have hlocked' : ((γ i).save site m).locked = some (m.name, none) := by
        cases site
        case initial => exact absurd rfl hsite
        all_goals rfl
      have hstart' : ((γ i).save site m).start = (γ i).start := by
        cases site
        case initial => exact absurd rfl hsite
        all_goals rfl
      refine ⟨fun n c hc => ?_, fun st' hst' hheld' => ?_, fun n c hc => ?_⟩
      · rw [hlocked'] at hc
        cases hc
        exact hholder
      · rw [hstart'] at hst'
        exact hT.start st' hst' hheld'
      · rw [hlocked'] at hc
        cases hc
    · refine ⟨hTk.status, hTk.start, fun n c' hc => ⟨(hTk.copy n c' hc).1, ?_⟩⟩
      refine (hTk.copy n c' hc).2.save_other hsite fun hn => ?_
      subst hn
      have hother := hTk.status _ _ hc
      rw [hholder] at hother
      exact hk (Option.some.inj hother).symm

/-- An action on directories, locks and records keeps the sections. -/
theorem Excluded.act_disk {w w' : World} {γ : ℕ → Knowledge} {i : ℕ} {a : DiskAct}
    {c : Choice} {r : a.Response} (hJ : Excluded w γ) (hi : w.alive i = true)
    (hpre : Knowledge.pre (.disk a) (γ i)) (h : perform i (.disk a) c w = some (r, w')) :
    Knowledge.fact (.disk a) (γ i) r ∧ w'.Filed ∧
      InSection w' i (Knowledge.post (.disk a) (γ i) r) ∧
      ∀ k, k ≠ i → w.alive k = true → InSection w k (γ k) → InSection w' k (γ k) := by
  have hT := hJ.threads i hi
  cases a with
  | ensureBridgeDir name =>
    simp only [perform, performDisk] at h
    split at h <;> cases h
    · exact ⟨trivial, ⟨hJ.filed.name, hJ.filed.inits⟩, ⟨hT.status, hT.start, hT.copy⟩,
        fun k _ _ hTk => ⟨hTk.status, hTk.start, hTk.copy⟩⟩
    · exact ⟨trivial, hJ.filed, hT, fun k _ _ => id⟩
  | readSessions =>
    simp only [perform, performDisk] at h
    split at h <;> cases h
    · exact ⟨trivial, ⟨hJ.filed.name, hJ.filed.inits⟩, ⟨hT.status, hT.start, hT.copy⟩,
        fun k _ _ hTk => ⟨hTk.status, hTk.start, hTk.copy⟩⟩
    · exact ⟨trivial, hJ.filed, hT, fun k _ _ => id⟩
  | acquireStartLock name =>
    rcases performDisk_acquireStart h with ⟨rfl, hfree, rfl⟩ | ⟨hr, rfl⟩
    · refine ⟨trivial, ⟨hJ.filed.name, hJ.filed.inits⟩, ⟨hT.status, fun st hst _ => ?_, hT.copy⟩,
        fun k _ hk hTk => hTk.of_locks (fun _ => id) (update_held (lockFree_not_held hfree hk))
          rfl rfl rfl⟩
      cases hst
      exact Function.update_self ..
    · refine ⟨trivial, hJ.filed, ?_, fun k _ _ => id⟩
      cases r with
      | held => exact absurd rfl hr
      | _ => exact hT
  | acquireStatusLock name =>
    rcases performDisk_acquireStatus h with ⟨rfl, hfree, rfl⟩ | ⟨hr, rfl⟩
    · refine ⟨trivial, ⟨hJ.filed.name, hJ.filed.inits⟩, ⟨fun n c hc => ?_, hT.start, fun n c hc => ?_⟩,
        fun k _ hk hTk => hTk.of_locks (update_held (lockFree_not_held hfree hk)) (fun _ => id)
          rfl rfl rfl⟩
      · cases hc
        exact Function.update_self ..
      · cases hc
    · refine ⟨trivial, hJ.filed, ?_, fun k _ _ => id⟩
      cases r with
      | held => exact absurd rfl hr
      | _ => exact hT
  | dropStartLock name =>
    cases h
    obtain ⟨st, hst, rfl, hheld⟩ := hpre
    have hmine := hT.start st hst hheld
    refine ⟨trivial, ⟨hJ.filed.name, hJ.filed.inits⟩, ⟨hT.status, fun st' hst' hheld' => ?_, hT.copy⟩,
      fun k hk _ hTk => hTk.of_locks (fun _ => id) (update_held fun hother => ?_) rfl rfl rfl⟩
    · obtain ⟨st₀, -, rfl⟩ := Option.map_eq_some_iff.mp hst'
      cases hheld'
    · rw [hmine] at hother
      exact hk (Option.some.inj hother).symm
  | dropStatusLock name =>
    cases h
    obtain ⟨x, hx⟩ := hpre
    have hmine := hT.status name x hx
    refine ⟨trivial, ⟨hJ.filed.name, hJ.filed.inits⟩, ⟨fun n c hc => ?_, hT.start, fun n c hc => ?_⟩,
      fun k hk _ hTk => hTk.of_locks (update_held fun hother => ?_) (fun _ => id) rfl rfl rfl⟩
    · cases hc
    · cases hc
    · rw [hmine] at hother
      exact hk (Option.some.inj hother).symm
  | loadMetadata name =>
    obtain ⟨rfl, hr⟩ := performDisk_load h
    refine ⟨?_, ⟨hJ.filed.name, hJ.filed.inits⟩,
      ⟨fun n x hx => ?_, fun st hst hheld => ?_, fun n x hx => ?_⟩,
      fun k hk _ hTk => hTk.of_locks (fun _ => id) (fun _ => id) rfl rfl (Function.update_of_ne hk ..)⟩
    · cases r with
      | error e => exact trivial
      | ok m =>
        rcases hr with ⟨-, e, he⟩ | ⟨m', hm', he | ⟨-, e, he⟩⟩ <;> cases he
        exact hJ.filed.name name m hm'
    · obtain ⟨⟨n₀, x₀⟩, hx₀, heq⟩ := Option.map_eq_some_iff.mp hx
      cases heq
      exact hT.status n₀ x₀ hx₀
    · obtain ⟨st₀, hst₀, hname, hheld₀⟩ := start_load_keeps hst
      rw [hname]
      exact hT.start st₀ hst₀ (hheld₀ ▸ hheld)
    · obtain ⟨⟨n₀, x₀⟩, hx₀, heq⟩ := Option.map_eq_some_iff.mp hx
      obtain ⟨rfl, -⟩ := hpre.1 n₀ x₀ hx₀
      cases r with
      | error e => cases heq
      | ok m =>
        cases heq
        rcases hr with ⟨-, e, he⟩ | ⟨m', hm', he | ⟨-, e, he⟩⟩ <;> cases he
        have hinits : w.inits n₀ ≠ [] := by
          rw [ne_eq, ← hJ.filed.inits n₀, hm']
          simp
        exact ⟨hJ.filed.name _ _ hm', _, Function.update_self .., List.length_pos_of_ne_nil hinits,
          Nat.le_refl _, .inl hm'⟩
  | saveMetadata site m =>
    rcases performDisk_save h with ⟨u, rfl, rfl⟩ | ⟨e, rfl, rfl⟩
    · exact ⟨trivial, hJ.save hi hpre⟩
    · exact ⟨trivial, hJ.filed, hT, fun k _ _ => id⟩

/-- Any action that follows the protocol keeps the sections, and a load returns
a record of the session it asks for. -/
theorem Excluded.act {env : Env} {w w' : World} {γ : ℕ → Knowledge} {i : ℕ} {a : Act} {c : Choice}
    {r : a.Response} (hJ : Excluded w γ) (hi : w.alive i = true) (hpre : Knowledge.pre a (γ i))
    (h : perform i a c w = some (r, w')) :
    Knowledge.fact a (γ i) r ∧
      Excluded w' (ghosts (bridge env) Knowledge.protocol Knowledge.fresh γ i a r) := by
  have hsound := perform_sound hJ.sound h
  have hact := fun hself hother => threads_act env hJ.sound hi h hJ.threads hself hother
    fun k p _ => inSection_fresh w' k a (γ i) r
  cases a with
  | file a =>
    obtain ⟨f, -, rfl⟩ := perform_file h
    exact ⟨trivial, hsound, ⟨hJ.filed.name, hJ.filed.inits⟩,
      hact (fun hT => ⟨hT.status, hT.start, hT.copy⟩) fun k _ _ hT => ⟨hT.status, hT.start, hT.copy⟩⟩
  | process a =>
    have hdisk := performProcess_sameDisk h
    have hpost := post_process_sections a (γ i) r
    refine ⟨trivial, hsound, ⟨?_, ?_⟩, hact (fun hT => hT.of_sameDisk hdisk hpost.1 hpost.2)
      fun k _ _ hT => hT.of_sameDisk hdisk rfl fun st hst => ⟨st, hst, rfl, rfl⟩⟩
    · rw [hdisk.metadata]
      exact hJ.filed.name
    · rw [hdisk.metadata, hdisk.inits]
      exact hJ.filed.inits
  | disk a =>
    obtain ⟨hfact, hfiled, hself, hother⟩ := hJ.act_disk hi hpre h
    exact ⟨hfact, hsound, hfiled, hact (fun _ => hself) hother⟩

/-- What happens outside the bridge takes no lock and changes no record. -/
theorem Excluded.disturb {w w' : World} {γ : ℕ → Knowledge} {e : Disturbance}
    (hJ : Excluded w γ) (h : w.disturb e = some w') : Excluded w' γ := by
  obtain ⟨hdisk, -⟩ := disturb_sameDisk h
  refine ⟨disturb_sound hJ.sound h, ⟨?_, ?_⟩, threads_disturb h hJ.threads fun k _ hT =>
    hT.of_sameDisk hdisk rfl fun st hst => ⟨st, hst, rfl, rfl⟩⟩
  · rw [hdisk.metadata]
    exact hJ.filed.name
  · rw [hdisk.metadata, hdisk.inits]
    exact hJ.filed.inits

/-- Before the first action no lock is held. -/
theorem excluded_fresh (requests : ℕ → Option Request) :
    Excluded (World.fresh requests) fun _ => {} where
  sound := by
    refine ⟨fun k p hk => ?_, fun _ _ => rfl⟩
    simp only [World.fresh] at hk
    split at hk
    · next request _ =>
      cases hdaemon : request.viaDaemon <;> simp [hdaemon] at hk
    · cases hk
  filed := ⟨fun n m h => (by cases h), fun n => ⟨fun _ => rfl, fun _ => rfl⟩⟩
  threads k _ := inSection_empty _ k rfl rfl

/-- The action that saves a record is the save of that record. -/
theorem eq_of_saves {a : Act} {site : Site} {m : SessionMetadata} (h : (site, m) ∈ a.saves) :
    a = .disk (.saveMetadata site m) := by
  unfold Act.saves at h
  split at h <;> cases h
  rfl

/-- The action that loads a record is the load of that record. -/
theorem eq_of_loads {a : Act} {name : String} (h : a.loads = some name) :
    a = .disk (.loadMetadata name) := by
  unfold Act.loads at h
  split at h <;> cases h
  rfl

/-- An action changes records only by saving one. -/
theorem perform_unsaved {i : ℕ} {a : Act} {c : Choice} {w w' : World} {r : a.Response}
    (h : perform i a c w = some (r, w')) (hsave : ∀ x ∈ a.saves, c.ok = false) :
    w'.metadata = w.metadata ∧ w'.inits = w.inits := by
  cases a with
  | file a =>
    obtain ⟨f, -, rfl⟩ := perform_file h
    exact ⟨rfl, rfl⟩
  | process a =>
    have hdisk := performProcess_sameDisk h
    exact ⟨hdisk.metadata, hdisk.inits⟩
  | disk a =>
    cases a
    case saveMetadata site m =>
      simp only [perform, performDisk, hsave (site, m) rfl] at h
      cases h
      exact ⟨rfl, rfl⟩
    all_goals
      simp only [perform, performDisk] at h
      (try split at h) <;> (try split at h) <;> cases h <;> exact ⟨rfl, rfl⟩

/-- A save that succeeds replaces the record. -/
theorem perform_saved {i : ℕ} {site : Site} {m : SessionMetadata} {c : Choice} {w w' : World}
    {r : Except String Unit} (h : perform i (.disk (.saveMetadata site m)) c w = some (r, w'))
    (hok : c.ok = true) : r = .ok () ∧ w' = w.save i site m := by
  simp only [perform, performDisk, hok] at h
  cases h
  exact ⟨rfl, rfl⟩

/-- An action leaves the records as they are, or saves one. -/
theorem records_cases {i : ℕ} {a : Act} {c : Choice} {w w' : World} {r : a.Response}
    (h : perform i a c w = some (r, w')) :
    ((∀ x ∈ a.saves, c.ok = false) ∧ w'.metadata = w.metadata ∧ w'.inits = w.inits) ∨
      ∃ site m, a = .disk (.saveMetadata site m) ∧ c.ok = true ∧ w' = w.save i site m := by
  by_cases hsave : ∀ x ∈ a.saves, c.ok = false
  · exact .inl ⟨hsave, perform_unsaved h hsave⟩
  · push Not at hsave
    obtain ⟨⟨site, m⟩, hmem, hc⟩ := hsave
    obtain rfl := eq_of_saves hmem
    have hok : c.ok = true := by simpa using hc
    exact .inr ⟨site, m, rfl, hok, (perform_saved h hok).2⟩

/-- Only an initial save adds to the initial records. -/
theorem save_inits {w : World} {i : ℕ} {site : Site} {m : SessionMetadata}
    (hlater : site ≠ .initial) :
    (w.save i site m).inits = w.inits := by
  cases site
  case initial => exact absurd rfl hlater
  all_goals rfl

/-- A save leaves the initial records of other sessions alone. -/
theorem save_inits_other {w : World} {i : ℕ} {site : Site} {m : SessionMetadata} {n : String}
    (hn : n ≠ m.name) : (w.save i site m).inits n = w.inits n := by
  cases site
  case initial => exact Function.update_of_ne hn ..
  all_goals rfl

/-- What a successful save leaves under a session's name. -/
inductive SavedRecord (w : World) (i : ℕ) (g : Knowledge) (site : Site) (m : SessionMetadata)
    (n : String) (d : SessionMetadata) : Prop
  | other (before : w.metadata n = some d) (name : n ≠ m.name)
  | initial (first : site = .initial) (init : g.MayInitialize m) (origin : d.origin = i)
    (name : n = m.name)
  | replaced (c : SessionMetadata) (record : d = m) (later : site ≠ .initial)
    (locked : g.locked = some (c.name, some c)) (replace : g.MayReplace c m site) (name : c.name = n)

/-- A save leaves the record of another session, an initial record, or one that replaces
the record which its thread loaded. -/
theorem savedRecord {w : World} {i : ℕ} {g : Knowledge} {site : Site} {m d : SessionMetadata}
    {n : String} (hpre : Knowledge.pre (.disk (.saveMetadata site m)) g)
    (hd : (w.save i site m).metadata n = some d) : SavedRecord w i g site m n d := by
  by_cases hn : n = m.name
  · subst hn
    simp only [World.save, Function.update_self, Option.some.injEq] at hd
    rcases hpre with ⟨rfl, -, hinit⟩ | ⟨c, hlocked, hreplace⟩
    · exact .initial rfl hinit (by rw [← hd]; rfl) rfl
    · obtain ⟨hname, hsite, -, -⟩ := hreplace.keeps
      refine .replaced c ?_ hsite hlocked hreplace hname.symm
      rw [← hd]
      cases site
      case initial => exact absurd rfl hsite
      all_goals rfl
  · exact .other ((Function.update_of_ne hn ..).symm.trans hd) hn

/-- An invariant that holds after boot and is kept by the actions of threads in
their critical sections and by disturbances holds in every reachable state. -/
theorem outlined_of_reaches {env : Env} {requests : ℕ → Option Request}
    {ok : World → ℕ → Act → Choice → Prop} {X : World → (ℕ → Knowledge) → Prop}
    {s : Config Act Act.Response ThreadResult World}
    (hact : ∀ {w γ i a c r w'}, Excluded w γ → X w γ → w.alive i = true → ok w i a c →
      Knowledge.pre a (γ i) → perform i a c w = some (r, w') → Knowledge.fact a (γ i) r →
      X w' (ghosts (bridge env) Knowledge.protocol Knowledge.fresh γ i a r))
    (hdisturb : ∀ {w γ e w'}, Excluded w γ → X w γ → w.disturb e = some w' → X w' γ)
    (h0 : X (World.fresh requests) fun _ => {})
    (h : (bridge env).Reaches ok (boot env requests) s) :
    Outlined Knowledge.protocol Knowledge.Finished (fun w γ => Excluded w γ ∧ X w γ) s := by
  refine System.Reaches.outline (Knowledge.protocol_covers env) ⟨?_, ?_⟩ h
    ⟨_, ⟨excluded_fresh requests, h0⟩, Knowledge.follows_boot env requests⟩
  · intro w γ i a c r w' hJ hi hok hpre hperform
    obtain ⟨hfact, hexcluded⟩ := hJ.1.act hi hpre hperform
    exact ⟨hfact, hexcluded, hact hJ.1 hJ.2 hi hok hpre hperform hfact⟩
  · intro w γ e w' hJ hdist
    exact ⟨hJ.1.disturb hdist, hdisturb hJ.1 hJ.2 hdist⟩

end World

end IgnibyteBridge
