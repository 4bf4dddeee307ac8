import IgnibyteBridge.Session.Termination

/-!
# Termination and the reuse of PIDs

Stops and start timeouts on a machine whose kernel gives the PID of a process that
is gone to a new one, between any two of their calls. What keeps a signal from a
stranger is that the PID has not changed hands since its start time was compared.
-/

namespace IgnibyteBridge.Termination

open Concurrency Program Fallible Function

/-- A process that has not been reaped. -/
structure Proc where
  pid : ℕ
  /-- Its start-time token. -/
  token : ℕ
  /-- The group it belongs to: the PID of the process that founded it. -/
  group : ℕ
  /-- The token of that process. -/
  founder : ℕ
  deriving DecidableEq

/-- A signal as it was delivered. -/
structure Delivery where
  sender : ℕ
  /-- The record that the sender had loaded last. -/
  record : Option SessionMetadata
  signal : Signal
  recipients : List Proc

/-- The processes of a machine. -/
structure Kernel where
  processes : List Proc
  /-- How often a PID was given to a process. -/
  births : ℕ → ℕ
  deliveries : List Delivery
  /-- The record that a thread loaded last. -/
  loaded : ℕ → Option SessionMetadata
  /-- The PID whose start time a thread read last, and its births until then. -/
  checked : ℕ → Option (ℕ × ℕ)

/-- What the environment decides about one call. -/
structure StopChoice where
  ok : Bool := true
  error : String := ""
  record : Except String SessionMetadata := .error ""
  /-- The processes that the caller may not signal. -/
  denied : ℕ → Bool := fun _ => false

/-- What happens to processes. PIDs 0 and 1 are never given to a new one. -/
inductive KernelEvent where
  /-- A process starts in the group of its parent, or in its own. -/
  | spawn (pid token parent : ℕ)
  /-- A process is gone for good: it has exited and was waited for. -/
  | reap (pid : ℕ)
  /-- A process founds its own group. -/
  | lead (pid : ℕ)
  /-- A process joins the group of another one. -/
  | join (pid other : ℕ)

/-- Whether a signal to a target reaches a process. -/
def Proc.hit (target : ℤ) (p : Proc) : Bool := target == p.pid || target == -(p.group : ℤ)

namespace Kernel

/-- The process that has a PID. -/
def find (k : Kernel) (pid : ℕ) : Option Proc := k.processes.find? fun p => p.pid == pid

/-- The processes after one of them changed its group. -/
def regroup (k : Kernel) (pid group founder : ℕ) : Kernel :=
  { k with
    processes := k.processes.map fun p =>
      if p.pid = pid then { p with group := group, founder := founder } else p }

/-- One call of a thread. -/
def perform (i : ℕ) : (a : StopAct) → StopChoice → Kernel → Option (a.Response × Kernel)
  | .loadMetadata _, c, k =>
    some (c.record, { k with loaded := update k.loaded i c.record.toOption })
  | .markStopped .., c, k => some (if c.ok then .ok () else .error c.error, k)
  | .kill target signal, c, k =>
    let targets := k.processes.filter (Proc.hit target)
    let recipients := targets.filter fun p => !c.denied p.pid
    some (if targets = [] then .noProcess else if recipients = [] then .failed c.error else .ok,
      { k with deliveries := k.deliveries ++ [⟨i, k.loaded i, signal, recipients⟩] })
  | .processAlive pid, _, k => some (k.processes.any (Proc.hit pid), k)
  | .processStartTime pid, c, k =>
    some (if c.ok then (k.find pid).map Proc.token else none,
      { k with checked := update k.checked i (some (pid, k.births pid)) })
  | .sleep, _, k => some ((), k)

/-- A PID is free when no process has it, and no group is named by it. -/
def free (k : Kernel) (pid : ℕ) : Bool :=
  k.processes.all fun p => p.pid != pid && p.group != pid

/-- Something happens to a process. -/
def disturb (k : Kernel) : KernelEvent → Option Kernel
  | .spawn pid token parent =>
    if 1 < pid ∧ k.free pid = true then
      let child : Proc :=
        match k.find parent with
        | some p => ⟨pid, token, p.group, p.founder⟩
        | none => ⟨pid, token, pid, token⟩
      some { k with
        processes := child :: k.processes
        births := update k.births pid (k.births pid + 1) }
    else none
  | .reap pid => some { k with processes := k.processes.filter fun p => p.pid != pid }
  | .lead pid =>
    match k.find pid with
    | some p => some (k.regroup pid pid p.token)
    | none => none
  | .join pid other =>
    match k.find other with
    | some p => some (k.regroup pid p.group p.founder)
    | none => none

end Kernel

/-- What a thread does. -/
inductive Task where
  | stop (name : String)
  /-- The wait of a start, with its clean-up after a timeout. -/
  | await (name : String)

/-- The program of a thread. -/
def Task.program : Task → Program StopAct StopAct.Response Unit
  | .stop name => do
    let _ ← (stopSessionSilent name).run
    pure ()
  | .await name => do
    let _ ← (waitForRunningMetadata name).run
    pure ()

/-- Stops and timeouts of any number of threads. -/
def stops : System StopAct StopAct.Response Unit Kernel StopChoice KernelEvent where
  alive _ _ := true
  perform := Kernel.perform
  launched _ _ := none
  again _ := none
  disturb e k := k.disturb e

/-- The threads before they start, on a machine without processes. -/
def stopsStart (task : ℕ → Task) : Config StopAct StopAct.Response Unit Kernel where
  world := ⟨[], fun _ => 0, [], fun _ => none, fun _ => none⟩
  thread i := (task i).program

/-! ## Whose processes are signalled -/

/-- A PID that a record holds, with its start-time token. -/
def Pair (m : SessionMetadata) (pid token : ℕ) : Prop :=
  m.childPid = some pid ∧ m.childStartTime = some token ∨
    m.supervisorPid = some pid ∧ m.supervisorStartTime = some token

/-- The process of a recorded pair, or a member of the group that it founded. -/
def Ours (m : SessionMetadata) (p : Proc) : Prop :=
  ∃ pid token, Pair m pid token ∧
    (p.pid = pid ∧ p.token = token ∨ p.group = pid ∧ p.founder = token)

/-- A signal that reached nobody else. -/
def Delivery.Safe (d : Delivery) : Prop := ∀ p ∈ d.recipients, ∃ m, d.record = some m ∧ Ours m p

/-- A record in which both PIDs, each a `u32`, come with their tokens. -/
structure Paired (m : SessionMetadata) : Prop where
  child : ∀ pid, m.childPid = some pid → pid < 2 ^ 32 ∧ ∃ token, m.childStartTime = some token
  supervisor : ∀ pid, m.supervisorPid = some pid →
    pid < 2 ^ 32 ∧ ∃ token, m.supervisorStartTime = some token

/-- Every record that is loaded pairs its PIDs with tokens. -/
def LoadsPairs (_ : Kernel) (_ : ℕ) (a : StopAct) (c : StopChoice) : Prop :=
  ∀ name, a = .loadMetadata name → ∀ m, c.record = .ok m → Paired m

/-- No signal is sent once the PID, after its start time was read, was given to another
process. -/
def NotReused (k : Kernel) (i : ℕ) (a : StopAct) (_ : StopChoice) : Prop :=
  ∀ target signal, a = .kill target signal → ∀ pid births, k.checked i = some (pid, births) →
    k.births pid = births

/-! ## The discipline of a stop -/

/-- What a thread has loaded and confirmed. -/
structure Watch where
  record : Option SessionMetadata := none
  /-- The PID whose start time was read last, with that token. -/
  verified : Option (ℕ × ℕ) := none

/-- A signal goes to a recorded process whose token was read, or to its group. -/
def watchful : Discipline StopAct StopAct.Response Watch where
  pre
    | .kill target _, g => ∃ m pid token, g.record = some m ∧ g.verified = some (pid, token) ∧
        Pair m pid token ∧ 0 < pid ∧ (target = pid ∨ target = -(pid : ℤ))
    | _, _ => True
  fact
    | .loadMetadata _, _, r => ∀ m, r = .ok m → Paired m
    | _, _, _ => True
  post
    | .loadMetadata _, _, r => ⟨r.toOption, none⟩
    | .processStartTime pid, g, r => { g with verified := r.map fun token => (pid, token) }
    | _, g, _ => g

section Programs

variable {g : Watch} {m : SessionMetadata} {pid token : ℕ}

/-- A call meets its obligation, and its answer teaches something. -/
theorem meets_watch (a : StopAct) {Q : a.Response → Watch → Prop} {E : String → Watch → Prop}
    (hpre : watchful.pre a g) (h : ∀ r, watchful.fact a g r → Q r (watchful.post a g r)) :
    Meets watchful Q E (call a) g :=
  (meets_perform a Q g).mpr ⟨hpre, h⟩

/-- `?` goes on with a value, or ends with the error. -/
theorem meets_orFail {α : Type} {x : Except String α} {Q : α → Watch → Prop}
    {E : String → Watch → Prop} (hok : ∀ a, x = .ok a → Q a g)
    (herror : ∀ e, x = .error e → E e g) :
    Meets watchful Q E (orFail x) g := by
  cases x with
  | ok a => exact hok a rfl
  | error e => exact herror e rfl

/-- The calls of `terminate_pid`. -/
def Terminates (pid : ℤ) : StopAct → Prop
  | .kill target _ => target = pid ∨ target = -pid
  | .processAlive _ => True
  | .sleep => True
  | _ => False

/-- A call is all that it performs. -/
theorem performs_call {P : StopAct → Prop} (a : StopAct) (h : P a) : Performs P (call a) :=
  (meets_perform a _ _).mpr ⟨h, fun _ _ => trivial⟩

/-- The polls look at the process. -/
theorem performs_foundGone (target pid : ℤ) (polls : ℕ) :
    Performs (Terminates target) (foundGone pid polls) := by
  induction polls with
  | zero => exact performs_pure _
  | succ polls ih =>
    unfold foundGone
    refine (performs_call _ trivial).bind fun alive => ?_
    cases alive with
    | true => exact (performs_call _ trivial).bind fun _ => ih
    | false => exact performs_pure _

/-- The signals go to the process and to its group. -/
theorem performs_signalTargets {target : ℤ} {signal : Signal} (targets : List ℤ)
    (htargets : ∀ t ∈ targets, t = target ∨ t = -target) (sent : Bool) (errors : List String) :
    Performs (Terminates target) (signalTargets signal targets sent errors) := by
  induction targets generalizing sent errors with
  | nil => exact performs_pure _
  | cons t targets ih =>
    have hrest := ih fun u hu => htargets u (List.mem_cons_of_mem t hu)
    unfold signalTargets
    refine (performs_call _ (htargets t List.mem_cons_self)).bind fun r => ?_
    cases r with
    | ok => exact hrest _ _
    | noProcess => exact hrest _ _
    | failed error => exact hrest _ _

/-- `signal_pid_and_group` signals the process and its group only. -/
theorem performs_signalPidAndGroup (target : ℤ) (signal : Signal) :
    Performs (Terminates target) (signalPidAndGroup target signal) := by
  unfold signalPidAndGroup
  refine (performs_signalTargets _ (by simp) _ _).bind fun ⟨sent, errors⟩ => ?_
  dsimp only
  split
  · exact performs_throw _
  · exact performs_pure _

/-- `terminate_pid` signals its process and its group only. -/
theorem performs_terminatePid (target : ℤ) :
    Performs (Terminates target) (terminatePid target) := by
  unfold terminatePid
  split
  · exact performs_pure _
  refine (performs_signalPidAndGroup target .term).bind fun termSent => ?_
  refine (performs_foundGone target target 20).bind fun gone => ?_
  split
  · exact performs_pure _
  refine (performs_signalPidAndGroup target .kill).bind fun killSent => ?_
  split
  · exact performs_pure _
  refine (performs_foundGone target target 20).bind fun gone => ?_
  split
  · exact performs_pure _
  · exact performs_throw _

/-- A positive `i32` is the `u32` it was cast from. -/
theorem asI32_eq (hpid : pid < 2 ^ 32) (hpositive : 0 < asI32 pid) : asI32 pid = pid := by
  unfold asI32 at hpositive ⊢
  rw [Int.bmod_def] at hpositive ⊢
  have hmod : (pid : ℤ) % ((2 ^ 32 : ℕ) : ℤ) = pid := by omega
  rw [hmod] at hpositive ⊢
  by_cases hsmall : (pid : ℤ) < ((2 ^ 32 : ℕ) + 1) / 2
  · rw [if_pos hsmall]
  · rw [if_neg hsmall] at hpositive
    omega

/-- `terminate_pid` on a recorded process whose token was confirmed. -/
theorem meets_terminateVerified (hrecord : g.record = some m)
    (hverified : g.verified = some (pid, token))
    (hpair : Pair m pid token) (hpid : pid < 2 ^ 32) :
    Meets watchful (fun _ g' => g' = g) (fun _ g' => g' = g) (terminatePid (asI32 pid)) g := by
  rcases Int.lt_or_le 0 (asI32 pid) with hpositive | hnegative
  · have heq := asI32_eq hpid hpositive
    refine Performs.meets (I := fun g' => g' = g) (performs_terminatePid (asI32 pid)) ?_ ?_ rfl
    · rintro a _ ha rfl
      cases a with
      | kill target signal =>
        rw [Terminates, heq] at ha
        exact ⟨m, pid, token, hrecord, hverified, hpair, by omega, ha⟩
      | _ => trivial
    · rintro a _ r ha rfl -
      cases a with
      | loadMetadata name => cases ha
      | processStartTime pid => cases ha
      | _ => rfl
  · unfold terminatePid
    rw [if_pos hnegative]
    exact rfl

/-- `pid_is_ours` confirms the recorded token, or answers no. -/
theorem meets_pidIsOurs {startTime : Option ℕ} {record : Option ℕ} {E : String → Watch → Prop}
    (hpaired : ∀ pid, record = some pid → ∃ token, startTime = some token) :
    Meets watchful (fun ours g' => g'.record = g.record ∧ (ours = true → ∃ pid token,
        record = some pid ∧ startTime = some token ∧ g'.verified = some (pid, token))) E
      (pidIsOurs record startTime) g := by
  cases record with
  | none => exact ⟨rfl, nofun⟩
  | some pid =>
    obtain ⟨token, rfl⟩ := hpaired pid rfl
    unfold pidIsOurs
    dsimp only
    rw [meets_bind]
    refine meets_watch _ trivial fun alive _ => ?_
    cases alive with
    | false => exact ⟨rfl, nofun⟩
    | true =>
      simp only [if_true]
      rw [meets_bind]
      refine meets_watch _ trivial fun found _ => ⟨rfl, fun hours => ?_⟩
      rw [eq_of_beq hours]
      exact ⟨pid, token, rfl, rfl, rfl⟩

/-- A recorded process is signalled under its confirmed token only. -/
theorem meets_terminateRecorded {startTime record : Option ℕ} {E : String → Watch → Prop}
    (hrecord : g.record = some m)
    (hpaired : ∀ pid, record = some pid → pid < 2 ^ 32 ∧ ∃ token, startTime = some token)
    (hpair : ∀ pid token, record = some pid → startTime = some token → Pair m pid token) :
    Meets watchful (fun _ g' => g'.record = some m) E (terminateRecorded record startTime) g := by
  unfold terminateRecorded
  rw [meets_bind]
  refine Meets.mono (meets_pidIsOurs fun pid h => (hpaired pid h).2) ?_ fun _ _ => id
  rintro ours g' ⟨hsame, hours⟩
  cases ours with
  | false => exact hsame.trans hrecord
  | true =>
    obtain ⟨pid, token, rfl, rfl, hverified⟩ := hours rfl
    simp only [if_true]
    rw [meets_outcome]
    refine Meets.mono (meets_terminateVerified (hsame.trans hrecord) hverified
      (hpair pid token rfl rfl) (hpaired pid rfl).1) ?_ ?_
    · rintro _ _ rfl
      exact hsame.trans hrecord
    · rintro _ _ rfl
      exact hsame.trans hrecord

/-- What is loaded pairs its PIDs with tokens, and is what a signal refers to. -/
theorem meets_load {name : String} {E : String → Watch → Prop} :
    Meets watchful (fun r g => ∀ m, r = .ok m → g.record = some m ∧ Paired m) E
      (call (.loadMetadata name)) g := by
  refine meets_watch _ trivial fun r hr => ?_
  rintro m rfl
  exact ⟨rfl, hr m rfl⟩

/-- `stop_session_silent` follows the discipline. -/
theorem meets_stopSessionSilent (name : String) :
    Meets watchful (fun _ _ => True) (fun _ _ => True) (stopSessionSilent name) g := by
  unfold stopSessionSilent
  rw [meets_bind]
  refine meets_orFail (fun _ _ => ?_) fun _ _ => trivial
  rw [meets_bind]
  refine Meets.mono meets_load ?_ fun _ _ => id
  rintro loaded g hloaded
  rw [meets_bind]
  refine meets_orFail (fun m hm => ?_) fun _ _ => trivial
  obtain ⟨hrecord, hpaired⟩ := hloaded m hm
  split
  · trivial
  rw [meets_bind]
  refine Meets.mono (meets_terminateRecorded hrecord hpaired.child
    fun pid token hpid htoken => .inl ⟨hpid, htoken⟩) ?_ fun _ _ => id
  rintro child g' hrecord'
  rw [meets_bind]
  refine Meets.mono (meets_terminateRecorded hrecord' hpaired.supervisor
    fun pid token hpid htoken => .inr ⟨hpid, htoken⟩) ?_ fun _ _ => id
  rintro supervisor g'' -
  split
  · rw [meets_bind]
    refine meets_watch _ trivial fun r _ => ?_
    exact meets_orFail (fun _ _ => trivial) fun _ _ => trivial
  · trivial

/-- Polling the record signals nobody. -/
theorem meets_pollRunning (name : String) (polls : ℕ) :
    Meets watchful (fun _ _ => True) (fun _ _ => True) (pollRunning name polls) g := by
  induction polls generalizing g with
  | zero => trivial
  | succ polls ih =>
    unfold pollRunning
    rw [meets_bind]
    refine meets_watch _ trivial fun _ _ => ?_
    rw [meets_bind]
    refine meets_watch _ trivial fun r _ => ?_
    rw [meets_bind]
    refine meets_orFail (fun m _ => ?_) fun _ _ => trivial
    split
    · trivial
    · split <;> trivial
    · exact ih

/-- `wait_for_running_metadata` follows the discipline. -/
theorem meets_waitForRunningMetadata (name : String) :
    Meets watchful (fun _ _ => True) (fun _ _ => True) (waitForRunningMetadata name) g := by
  unfold waitForRunningMetadata
  rw [meets_bind]
  refine Meets.mono (meets_pollRunning name 50) ?_ fun _ _ _ => trivial
  rintro (_ | m) g -
  · dsimp only
    rw [meets_bind]
    refine Meets.mono meets_load ?_ fun _ _ => id
    rintro (e | m) g' hloaded
    · trivial
    obtain ⟨hrecord, hpaired⟩ := hloaded m rfl
    dsimp only
    split
    · trivial
    · split <;> trivial
    rw [meets_bind]
    refine Meets.mono (meets_terminateRecorded hrecord hpaired.supervisor
      fun pid token hpid htoken => .inr ⟨hpid, htoken⟩) ?_ fun _ _ => id
    rintro supervisor g'' hrecord'
    rw [meets_bind]
    refine Meets.mono (meets_terminateRecorded hrecord' hpaired.child
      fun pid token hpid htoken => .inl ⟨hpid, htoken⟩) ?_ fun _ _ => id
    rintro child g₃ -
    rw [meets_bind]
    exact meets_watch _ trivial fun _ _ => trivial
  · trivial

/-- Every thread follows the discipline. -/
theorem follows_task (task : Task) :
    task.program.Follows watchful (fun _ _ => True) {} := by
  cases task with
  | stop name =>
    refine (follows_bind _ _ _ _).mpr ((follows_run _ _ _).mpr ?_)
    exact Meets.mono (meets_stopSessionSilent name) (fun _ _ _ => trivial) fun _ _ _ => trivial
  | await name =>
    refine (follows_bind _ _ _ _).mpr ((follows_run _ _ _).mpr ?_)
    exact Meets.mono (meets_waitForRunningMetadata name) (fun _ _ _ => trivial) fun _ _ _ => trivial

end Programs

/-! ## The invariant -/

/-- PIDs name one process, and a group has the founder that its PID still names. -/
structure Sound (processes : List Proc) : Prop where
  pids : ∀ p ∈ processes, ∀ q ∈ processes, p.pid = q.pid → p.token = q.token
  founders : ∀ p ∈ processes, ∀ q ∈ processes, q.group = p.pid → q.founder = p.token
  /-- Groups that have the same number have the same founder. -/
  groups : ∀ p ∈ processes, ∀ q ∈ processes, p.group = q.group → p.founder = q.founder
  positive : ∀ p ∈ processes, 0 < p.pid ∧ 0 < p.group

/-- One process at most has this PID, with this token, and it founded the group of that
number. -/
def Holds (processes : List Proc) (pid token : ℕ) : Prop :=
  ∀ p ∈ processes, (p.pid = pid → p.token = token) ∧ (p.group = pid → p.founder = token)

/-- The invariant of the kernel and of what threads know. -/
structure Guarded (k : Kernel) (γ : ℕ → Watch) : Prop where
  sound : Sound k.processes
  loaded : ∀ i, k.loaded i = (γ i).record
  checked : ∀ i pid token, (γ i).verified = some (pid, token) →
    ∃ births, k.checked i = some (pid, births) ∧ births ≤ k.births pid ∧
      (k.births pid = births → Holds k.processes pid token)
  safe : ∀ d ∈ k.deliveries, d.Safe

variable {k k' : Kernel} {γ : ℕ → Watch} {i : ℕ}

/-- A process that is found has that PID. -/
theorem Kernel.mem_of_find {pid : ℕ} {p : Proc} (h : k.find pid = some p) :
    p ∈ k.processes ∧ p.pid = pid :=
  ⟨List.mem_of_find?_eq_some h, eq_of_beq (List.find?_some h :)⟩

/-- The process that has a PID now holds it. -/
theorem Sound.holds (h : Sound k.processes) {pid : ℕ} {p : Proc} (hp : k.find pid = some p) :
    Holds k.processes pid p.token := by
  obtain ⟨hmem, rfl⟩ := Kernel.mem_of_find hp
  exact fun q hq => ⟨fun hpid => h.pids q hq p hmem hpid, h.founders p hmem q hq⟩

/-- Every call of a watchful thread keeps the invariant, if the PID it signals was not
given away. -/
theorem Guarded.act (h : Guarded k γ) {a : StopAct} {c : StopChoice} {r : a.Response}
    (hpairs : LoadsPairs k i a c) (hreused : NotReused k i a c) (hpre : watchful.pre a (γ i))
    (hperform : Kernel.perform i a c k = some (r, k')) :
    watchful.fact a (γ i) r ∧ Guarded k' (update γ i (watchful.post a (γ i) r)) := by
  have hsame : ∀ {k'}, Guarded k' γ → Guarded k' (update γ i (γ i)) := by
    intro k' h'
    rwa [update_eq_self]
  cases a with
  | loadMetadata name =>
    cases hperform
    refine ⟨fun m hm => hpairs name rfl m hm, h.sound, fun j => ?_, fun j pid token hverified => ?_,
      h.safe⟩
    · by_cases hj : j = i
      · simp [hj, watchful]
      · simpa [hj] using h.loaded j
    · by_cases hj : j = i
      · rw [hj, update_self] at hverified
        cases hverified
      · rw [update_of_ne hj] at hverified
        exact h.checked j pid token hverified
  | markStopped name exitStatus generation =>
    cases hperform
    exact ⟨trivial, hsame h⟩
  | sleep =>
    cases hperform
    exact ⟨trivial, hsame h⟩
  | processAlive pid =>
    cases hperform
    exact ⟨trivial, hsame h⟩
  | processStartTime pid =>
    cases hperform
    refine ⟨trivial, h.sound, fun j => ?_, fun j pid' token hverified => ?_, h.safe⟩
    · by_cases hj : j = i
      · rw [hj, update_self]
        exact h.loaded i
      · rw [update_of_ne hj]
        exact h.loaded j
    · by_cases hj : j = i
      · rw [hj, update_self] at hverified
        have hfound : ((if c.ok then (k.find pid).map Proc.token else none).map
            fun token => (pid, token)) = some (pid', token) := hverified
        split at hfound
        · rw [Option.map_map, Option.map_eq_some_iff] at hfound
          obtain ⟨p, hp, heq⟩ := hfound
          cases heq
          exact ⟨k.births pid, by rw [hj]; exact update_self .., le_rfl, fun _ => h.sound.holds hp⟩
        · cases hfound
      · rw [update_of_ne hj] at hverified
        obtain ⟨births, hchecked, hrest⟩ := h.checked j pid' token hverified
        exact ⟨births, (update_of_ne hj ..).trans hchecked, hrest⟩
  | kill target signal =>
    cases hperform
    refine ⟨trivial, hsame ⟨h.sound, h.loaded, h.checked, fun d hd => ?_⟩⟩
    rcases List.mem_append.mp hd with hd | hd
    · exact h.safe d hd
    obtain rfl := List.mem_singleton.mp hd
    obtain ⟨m, pid, token, hrecord, hverified, hpair, hpositive, htarget⟩ := hpre
    obtain ⟨births, hchecked, -, hholds⟩ := h.checked i pid token hverified
    have hheld := hholds (hreused target signal rfl pid births hchecked)
    intro p hp
    obtain ⟨hmem, hhit⟩ := List.mem_filter.mp (List.mem_filter.mp hp).1
    refine ⟨m, (h.loaded i).trans hrecord, pid, token, hpair, ?_⟩
    obtain ⟨hpid, hgroup⟩ := hheld p hmem
    have hpos := h.sound.positive p hmem
    simp only [Proc.hit, Bool.or_eq_true, beq_iff_eq] at hhit
    rcases hhit with hhit | hhit
    · have heq : p.pid = pid := by omega
      exact .inl ⟨heq, hpid heq⟩
    · have heq : p.group = pid := by omega
      exact .inr ⟨heq, hgroup heq⟩

/-- What processes look like after one of them changed its group. -/
theorem mem_regroup {pid group founder : ℕ} {q : Proc}
    (hq : q ∈ (k.regroup pid group founder).processes) :
    ∃ p ∈ k.processes, q.pid = p.pid ∧ q.token = p.token ∧
      (q.group = p.group ∧ q.founder = p.founder ∨ q.group = group ∧ q.founder = founder) := by
  obtain ⟨p, hp, rfl⟩ := List.mem_map.mp hq
  refine ⟨p, hp, ?_⟩
  split
  · exact ⟨rfl, rfl, .inr ⟨rfl, rfl⟩⟩
  · exact ⟨rfl, rfl, .inl ⟨rfl, rfl⟩⟩

/-- A process may change to a group whose founder agrees with what is there. -/
theorem Sound.regroup (h : Sound k.processes) {pid group founder : ℕ} (hpositive : 0 < group)
    (hfounder : ∀ p ∈ k.processes,
      (p.pid = group → founder = p.token) ∧ (p.group = group → p.founder = founder)) :
    Sound (k.regroup pid group founder).processes where
  pids p' hp' q' hq' heq := by
    obtain ⟨p, hp, hpid, htoken, -⟩ := mem_regroup hp'
    obtain ⟨q, hq, hqid, hqtoken, -⟩ := mem_regroup hq'
    rw [htoken, hqtoken]
    exact h.pids p hp q hq (by omega)
  founders p' hp' q' hq' heq := by
    obtain ⟨p, hp, hpid, htoken, -⟩ := mem_regroup hp'
    obtain ⟨q, hq, -, -, ⟨hgroup, hfound⟩ | ⟨hgroup, hfound⟩⟩ := mem_regroup hq'
    · rw [htoken, hfound]
      exact h.founders p hp q hq (by omega)
    · rw [htoken, hfound]
      exact (hfounder p hp).1 (by omega)
  groups p' hp' q' hq' heq := by
    obtain ⟨p, hp, -, -, ⟨hgroup, hfound⟩ | ⟨hgroup, hfound⟩⟩ := mem_regroup hp' <;>
      obtain ⟨q, hq, -, -, ⟨hgroup', hfound'⟩ | ⟨hgroup', hfound'⟩⟩ := mem_regroup hq' <;>
      rw [hfound, hfound']
    · exact h.groups p hp q hq (by omega)
    · exact (hfounder p hp).2 (by omega)
    · exact ((hfounder q hq).2 (by omega)).symm
  positive p' hp' := by
    obtain ⟨p, hp, hpid, -, ⟨hgroup, -⟩ | ⟨hgroup, -⟩⟩ := mem_regroup hp'
    · exact ⟨hpid ▸ (h.positive p hp).1, hgroup ▸ (h.positive p hp).2⟩
    · exact ⟨hpid ▸ (h.positive p hp).1, hgroup ▸ hpositive⟩

/-- A group keeps its founder when a process changes its group. -/
theorem Holds.regroup {pid group founder held token : ℕ} (h : Holds k.processes held token)
    (hfounder : group = held → founder = token) :
    Holds (k.regroup pid group founder).processes held token := by
  intro q hq
  obtain ⟨p, hp, hpid, htoken, hgroups⟩ := mem_regroup hq
  refine ⟨fun heq => ?_, fun heq => ?_⟩
  · rw [htoken]
    exact (h p hp).1 (hpid ▸ heq)
  · rcases hgroups with ⟨hgroup, hfound⟩ | ⟨hgroup, hfound⟩
    · rw [hfound]
      exact (h p hp).2 (hgroup ▸ heq)
    · rw [hfound]
      exact hfounder (hgroup ▸ heq)

/-- A new process has the group of a process, or founds its own. -/
def Joins (processes : List Proc) (child : Proc) : Prop :=
  (∃ p ∈ processes, child.group = p.group ∧ child.founder = p.founder) ∨
    child.group = child.pid ∧ child.founder = child.token

/-- A process may start with a PID that names no process and no group. -/
theorem Sound.cons {processes : List Proc} {child : Proc} (h : Sound processes)
    (hunused : ∀ p ∈ processes, p.pid ≠ child.pid ∧ p.group ≠ child.pid) (hpositive : 0 < child.pid)
    (hjoins : Joins processes child) : Sound (child :: processes) where
  pids p hp q hq heq := by
    rcases List.mem_cons.mp hp with hp | hp <;> rcases List.mem_cons.mp hq with hq | hq
    · rw [hp, hq]
    · exact absurd (hp ▸ heq).symm (hunused q hq).1
    · exact absurd (hq ▸ heq) (hunused p hp).1
    · exact h.pids p hp q hq heq
  founders p hp q hq heq := by
    rcases List.mem_cons.mp hp with hp | hp <;> rcases List.mem_cons.mp hq with hq | hq
    · rw [hp, hq] at heq
      rw [hp, hq]
      rcases hjoins with ⟨r, hr, hgroup, -⟩ | ⟨-, hfounder⟩
      · exact absurd (hgroup.symm.trans heq) (hunused r hr).2
      · exact hfounder
    · exact absurd (hp ▸ heq) (hunused q hq).2
    · rw [hq] at heq ⊢
      rcases hjoins with ⟨r, hr, hgroup, hfounder⟩ | ⟨hgroup, -⟩
      · rw [hfounder]
        exact h.founders p hp r hr (hgroup.symm.trans heq)
      · exact absurd (hgroup.symm.trans heq).symm (hunused p hp).1
    · exact h.founders p hp q hq heq
  groups p hp q hq heq := by
    -- The new process agrees with every other one.
    have hchild : ∀ r ∈ processes, child.group = r.group → child.founder = r.founder := by
      intro r hr hgroup
      rcases hjoins with ⟨r', hr', hgroup', hfounder⟩ | ⟨hown, -⟩
      · rw [hfounder]
        exact h.groups r' hr' r hr (hgroup'.symm.trans hgroup)
      · exact absurd (hgroup.symm.trans hown) (hunused r hr).2
    rcases List.mem_cons.mp hp with hp | hp <;> rcases List.mem_cons.mp hq with hq | hq
    · rw [hp, hq]
    · rw [hp] at heq ⊢
      exact hchild q hq heq
    · rw [hq] at heq ⊢
      exact (hchild p hp heq.symm).symm
    · exact h.groups p hp q hq heq
  positive p hp := by
    rcases List.mem_cons.mp hp with rfl | hp
    · refine ⟨hpositive, ?_⟩
      rcases hjoins with ⟨r, hr, hgroup, -⟩ | ⟨hgroup, -⟩
      · exact hgroup ▸ (h.positive r hr).2
      · exact hgroup ▸ hpositive
    · exact h.positive p hp

/-- What holds of a PID and its token holds on when a process starts with another PID. -/
theorem Holds.cons {processes : List Proc} {child : Proc} {pid token : ℕ}
    (h : Holds processes pid token) (hpid : pid ≠ child.pid) (hjoins : Joins processes child) :
    Holds (child :: processes) pid token := by
  intro p hp
  rcases List.mem_cons.mp hp with rfl | hp
  · refine ⟨fun heq => absurd heq.symm hpid, fun heq => ?_⟩
    rcases hjoins with ⟨r, hr, hgroup, hfounder⟩ | ⟨hgroup, -⟩
    · exact hfounder.trans ((h r hr).2 (hgroup.symm.trans heq))
    · exact absurd (heq.symm.trans hgroup) hpid
  · exact h p hp

/-- What happens to processes keeps the invariant. -/
theorem Guarded.of_processes (h : Guarded k γ) (hsound : Sound k'.processes)
    (hloaded : k'.loaded = k.loaded) (hchecked : k'.checked = k.checked)
    (hdeliveries : k'.deliveries = k.deliveries) (hbirths : ∀ pid, k.births pid ≤ k'.births pid)
    (hholds : ∀ pid token, k'.births pid = k.births pid → Holds k.processes pid token →
      Holds k'.processes pid token) : Guarded k' γ where
  sound := hsound
  loaded := hloaded ▸ h.loaded
  checked i pid token hverified := by
    obtain ⟨births, hcheck, hle, hheld⟩ := h.checked i pid token hverified
    have hmono := hbirths pid
    refine ⟨births, hchecked ▸ hcheck, hle.trans hmono, fun heq => ?_⟩
    exact hholds pid token (by omega) (hheld (by omega))
  safe := hdeliveries ▸ h.safe

/-- The start, the end and the regrouping of processes keep the invariant. -/
theorem Guarded.disturb (h : Guarded k γ) {e : KernelEvent} (hdisturb : k.disturb e = some k') :
    Guarded k' γ := by
  have hsound := h.sound
  cases e with
  | spawn pid token parent =>
    simp only [Kernel.disturb] at hdisturb
    split at hdisturb
    · rename_i hfree
      obtain ⟨hpositive, hfree⟩ := hfree
      have hunused : ∀ p ∈ k.processes, p.pid ≠ pid ∧ p.group ≠ pid := by
        intro p hp
        simpa using List.all_eq_true.mp hfree p hp
      cases hdisturb
      have hborn : ∀ child : Proc, child.pid = pid → Joins k.processes child →
          Guarded { k with
            processes := child :: k.processes
            births := update k.births pid (k.births pid + 1) } γ := by
        rintro child rfl hjoins
        refine h.of_processes (hsound.cons hunused (by omega) hjoins) rfl rfl rfl
          (fun held => ?_) fun held token' hbirths hheld => hheld.cons ?_ hjoins
        · change k.births held ≤ update k.births child.pid _ held
          by_cases hheld : held = child.pid
          · rw [hheld, update_self]
            exact Nat.le_succ _
          · rw [update_of_ne hheld]
        · rintro rfl
          change update k.births child.pid _ child.pid = _ at hbirths
          rw [update_self] at hbirths
          omega
      cases hparent : k.find parent with
      | none => exact hborn _ rfl (.inr ⟨rfl, rfl⟩)
      | some p => exact hborn _ rfl (.inl ⟨p, (Kernel.mem_of_find hparent).1, rfl, rfl⟩)
    · cases hdisturb
  | reap pid =>
    cases hdisturb
    have hmem : ∀ {p}, p ∈ k.processes.filter (fun p => p.pid != pid) → p ∈ k.processes :=
      fun hp => (List.mem_filter.mp hp).1
    refine h.of_processes ?_ rfl rfl rfl (fun _ => le_rfl) fun held token _ hheld p hp =>
      hheld p (hmem hp)
    exact ⟨fun p hp q hq => hsound.pids p (hmem hp) q (hmem hq),
      fun p hp q hq => hsound.founders p (hmem hp) q (hmem hq),
      fun p hp q hq => hsound.groups p (hmem hp) q (hmem hq), fun p hp => hsound.positive p (hmem hp)⟩
  | lead pid =>
    simp only [Kernel.disturb] at hdisturb
    split at hdisturb
    · rename_i p hp
      cases hdisturb
      obtain ⟨hmem, rfl⟩ := Kernel.mem_of_find hp
      refine h.of_processes (hsound.regroup (hsound.positive p hmem).1 fun q hq => ⟨fun heq => ?_,
        fun heq => hsound.founders p hmem q hq heq⟩) rfl rfl rfl (fun _ => le_rfl)
        fun held token _ hheld => hheld.regroup fun heq => (hheld p hmem).1 heq
      exact (hsound.pids q hq p hmem heq).symm
    · cases hdisturb
  | join pid other =>
    simp only [Kernel.disturb] at hdisturb
    split at hdisturb
    · rename_i p hp
      cases hdisturb
      obtain ⟨hmem, -⟩ := Kernel.mem_of_find hp
      refine h.of_processes (hsound.regroup (hsound.positive p hmem).2 fun q hq => ⟨fun heq => ?_,
        fun heq => hsound.groups q hq p hmem heq⟩) rfl rfl rfl (fun _ => le_rfl)
        fun held token _ hheld => hheld.regroup fun heq => (hheld p hmem).2 heq
      exact hsound.founders q hq p hmem heq.symm
    · cases hdisturb

/-- **Signals and strangers.** If every record that is loaded pairs its PIDs with tokens,
and no PID is given to another process between the read of its start time and a signal
of the same thread, then every signal of a stop or of a start timeout reaches only a
process that its record names, or members of the group that this process founded. -/
theorem signals_reach_ours (task : ℕ → Task) {s : Config StopAct StopAct.Response Unit Kernel}
    (h : stops.Reaches (fun k i a c => LoadsPairs k i a c ∧ NotReused k i a c) (stopsStart task) s) :
    ∀ d ∈ s.world.deliveries, d.Safe := by
  have hcovers : Covers stops watchful (fun _ _ => True) (fun _ g _ => g) := ⟨nofun, nofun⟩
  have hpreserves : Preserves stops watchful (fun _ g _ => g)
      (fun k i a c => LoadsPairs k i a c ∧ NotReused k i a c) Guarded :=
    ⟨fun hJ _ hok hpre hperform => hJ.act hok.1 hok.2 hpre hperform,
      fun hJ hdisturb => hJ.disturb hdisturb⟩
  have hstart : Outlined watchful (fun _ _ => True) Guarded (stopsStart task) :=
    ⟨fun _ => {}, ⟨⟨nofun, nofun, nofun, nofun⟩, fun _ => rfl, nofun, nofun⟩,
      fun i => follows_task (task i)⟩
  obtain ⟨γ, hguarded, -⟩ := h.outline hcovers hpreserves hstart
  exact hguarded.safe

/-- The record of a running session whose child has PID 5. -/
def runningRecord : SessionMetadata where
  name := "demo"
  cwd := "/"
  command := ["sh"]
  status := .running
  supervisorPid := none
  childPid := some 5
  supervisorStartTime := none
  childStartTime := some 100
  generation := 1
  rows := 40
  cols := 140
  exitStatus := none
  exitCode := none
  origin := 0

/-- Both PIDs of that record come with tokens. -/
theorem paired_runningRecord : Paired runningRecord :=
  ⟨fun pid hpid => ⟨by cases hpid; decide, 100, rfl⟩, nofun⟩

/-- A tested condition under which a call loads no record but this one. -/
def loadsRunning (a : StopAct) (c : StopChoice) : Bool :=
  match a, c.record with
  | .loadMetadata _, .ok m => m = runningRecord
  | _, _ => true

/-- The test is sound. -/
theorem loadsPairs_of_loadsRunning {k : Kernel} {i : ℕ} {a : StopAct} {c : StopChoice}
    (h : loadsRunning a c = true) : LoadsPairs k i a c := by
  rintro name rfl m hm
  simp only [loadsRunning, hm] at h
  rw [of_decide_eq_true h]
  exact paired_runningRecord

/-- `NotReused`, as a test. -/
def notReused (k : Kernel) (i : ℕ) (a : StopAct) : Bool :=
  match a, k.checked i with
  | .kill .., some (pid, births) => k.births pid = births
  | _, _ => true

/-- The test for `NotReused` is sound. -/
theorem notReused_sound {k : Kernel} {i : ℕ} {a : StopAct} {c : StopChoice}
    (h : notReused k i a = true) : NotReused k i a c := by
  rintro target signal rfl pid births hchecked
  simp only [notReused, hchecked] at h
  exact of_decide_eq_true h

/-- Some steps of a thread, with the record at hand. -/
def stopSteps (i n : ℕ) : List (Move StopChoice KernelEvent) :=
  List.replicate n (.run i { record := .ok runningRecord })

/-- Two stops load the record. One signals the child and a process of the child's own, and
both exit; the other one finds the child's PID with a stranger, and signals nobody. -/
theorem signals_reach_ours_stop :
    ∃ s, stops.Reaches (fun k i a c => LoadsPairs k i a c ∧ NotReused k i a c)
      (stopsStart fun _ => .stop "demo") s ∧
      s.world.find 5 = some ⟨5, 200, 5, 200⟩ ∧
      (s.thread 0).head.isNone = true ∧ (s.thread 1).head.isNone = true ∧
      s.world.deliveries.map (fun d => (d.sender, d.recipients)) =
        [(1, [⟨6, 101, 5, 100⟩, ⟨5, 100, 5, 100⟩]), (1, [⟨5, 100, 5, 100⟩])] ∧
      ∀ d ∈ s.world.deliveries, d.Safe := by
  have htest : ∀ k i a c, (loadsRunning a c && notReused k i a) = true →
      LoadsPairs k i a c ∧ NotReused k i a c := by
    intro k i a c h
    obtain ⟨hloads, hreused⟩ := (Bool.and_eq_true _ _).mp h
    exact ⟨loadsPairs_of_loadsRunning hloads, notReused_sound hreused⟩
  obtain ⟨s, hreach, hcheck⟩ := System.exists_reaches_of_exec stops
    (fun k i a c => loadsRunning a c && notReused k i a)
    (.disturb (.spawn 5 100 0) :: .disturb (.spawn 6 101 5) :: stopSteps 0 1 ++ stopSteps 1 5 ++
      .disturb (.reap 5) :: .disturb (.reap 6) :: stopSteps 1 2 ++
      .disturb (.spawn 5 200 0) :: stopSteps 0 3)
    (stopsStart fun _ => .stop "demo")
    (fun s => decide (s.world.find 5 = some ⟨5, 200, 5, 200⟩) &&
      (s.thread 0).head.isNone && (s.thread 1).head.isNone &&
      decide (s.world.deliveries.map (fun d => (d.sender, d.recipients)) =
        [(1, [⟨6, 101, 5, 100⟩, ⟨5, 100, 5, 100⟩]), (1, [⟨5, 100, 5, 100⟩])]))
    htest (by decide +kernel)
  simp only [Bool.and_eq_true, decide_eq_true_eq] at hcheck
  obtain ⟨⟨⟨hstranger, hfirst⟩, hsecond⟩, hdeliveries⟩ := hcheck
  exact ⟨s, hreach, hstranger, hfirst, hsecond, hdeliveries, signals_reach_ours _ hreach⟩

/-- The recipients of the first signal. -/
def firstRecipients (s : Config StopAct StopAct.Response Unit Kernel) : List Proc :=
  match s.world.deliveries with
  | d :: _ => d.recipients
  | [] => []

/-- The child exits after its start time was read, and its PID goes to a stranger, which
is sent the SIGTERM. -/
theorem signal_reaches_stranger :
    ∃ s, stops.Reaches LoadsPairs (stopsStart fun _ => .stop "demo") s ∧
      firstRecipients s = [⟨5, 200, 5, 200⟩] ∧ ¬Ours runningRecord ⟨5, 200, 5, 200⟩ := by
  obtain ⟨s, hreach, hcheck⟩ := System.exists_reaches_of_exec stops
    (fun _ _ a c => loadsRunning a c)
    (.disturb (.spawn 5 100 0) :: stopSteps 0 3 ++ .disturb (.reap 5) ::
      .disturb (.spawn 5 200 0) :: stopSteps 0 1)
    (stopsStart fun _ => .stop "demo")
    (fun s => firstRecipients s = [⟨5, 200, 5, 200⟩])
    (fun k i a c htest => loadsPairs_of_loadsRunning htest) (by decide +kernel)
  refine ⟨s, hreach, of_decide_eq_true hcheck, ?_⟩
  rintro ⟨pid, token, ⟨-, htoken⟩ | ⟨hpid, -⟩, hours⟩
  · obtain rfl : 100 = token := Option.some.inj htoken
    rcases hours with ⟨-, hstranger⟩ | ⟨-, hstranger⟩ <;> exact absurd hstranger (by decide)
  · cases hpid

end IgnibyteBridge.Termination
