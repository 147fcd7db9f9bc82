import KatagoWs.Worker

/-!
# One cluster session: remote analysis and teardown

The lease loops of a session run `handle` with the remote executor, whose calls act on the
session: the map `pending` from job ids to the senders of their waiters, and the bounded channel
of requests.  Beside the loops the session task moves: its I/O loop, and the teardown (leave the
loop, cancel the token, clear `pending`, return and so drop the receiver of the channel).

* `RemoteExecutor.analyze`   register a waiter, send the request, wait for the outcome;
* `sessionSys`               the loops, the session task and the rest of the deployment;
* `sendInTime`               no request is accepted between the clear and the drop from a loop
                             whose sender is stored;
* `session_strands_none`     then a finished session leaves no call waiting on a stored sender;
* `strandedSession`          without it one can: the loops are cancelled only between jobs.
-/

set_option linter.unusedSectionVars false

namespace KatagoWs
open Lib

structure JobRequest where
  jobId : Uuid
  sgf : String
  humanProfile : Option String
deriving DecidableEq, Repr

/-- a worker's `Outcome`: the analysis, or the message of its failure -/
abbrev JobOutcome := Except String Json

/-- a oneshot channel, named by the loop that made it -/
structure Tx (ι : Type) where
  owner : ι
  serial : Nat
deriving DecidableEq, Repr

section
variable {ι : Type}

/-! ## the remote executor -/

inductive RemoteCall (ι : Type) where
  | oneshot
  | insert (jobId : Uuid) (tx : Tx ι)
  | send (request : JobRequest)
  | remove (jobId : Uuid)
  | recv (tx : Tx ι)

/-- `send` fails once the receiver is gone, `recv` answers `none` once the sender is -/
def RemoteAnswer : RemoteCall ι → Type
  | .oneshot => Tx ι
  | .insert _ _ => Unit
  | .send _ => Bool
  | .remove _ => Unit
  | .recv _ => Option JobOutcome

def RemoteExecutor.analyze : Executor (RemoteCall ι) RemoteAnswer :=
  fun jobId sgf humanProfile => do
    let tx : Tx ι ← Prog.perform RemoteCall.oneshot
    -- the waiter is registered before the request is sent
    let _ : Unit ← Prog.perform (RemoteCall.insert jobId tx)
    let sent : Bool ← Prog.perform (RemoteCall.send { jobId, sgf, humanProfile })
    if sent then
      let outcome : Option JobOutcome ← Prog.perform (RemoteCall.recv tx)
      match outcome with
      | some (.ok value) => return .ok value
      | some (.error message) => return .error (.inference message)
      | none => return .error (.queue "worker disconnected before result")
    else
      let _ : Unit ← Prog.perform (RemoteCall.remove jobId)
      return .error (.queue "worker socket closed before dispatch")

/-! ## the session -/

/-- where `run_session` is: in its I/O loop, at one of the teardown steps, or returned -/
inductive Phase where
  | running
  | left
  | cancelled
  | cleared
  | finished
deriving DecidableEq, Repr

def Phase.torn : Phase → Bool
  | .cleared => true
  | .finished => true
  | _ => false

structure Session (ι : Type) where
  phase : Phase
  out : List JobRequest
  pending : List (Uuid × Tx ι)
  outcomes : List (Tx ι × JobOutcome)
  nextTx : Nat

def Session.new : Session ι := ⟨.running, [], [], [], 0⟩

def Session.forget (s : Session ι) (jobId : Uuid) : Session ι :=
  { s with pending := s.pending.filter fun e => e.1 ≠ jobId }

def Session.Holds (s : Session ι) (tx : Tx ι) : Prop := ∃ e ∈ s.pending, e.2 = tx

variable [DecidableEq ι]

instance (s : Session ι) (tx : Tx ι) : Decidable (s.Holds tx) :=
  inferInstanceAs (Decidable (∃ e ∈ s.pending, e.2 = tx))

/-- the calls of loop `i`, with a channel of `slots` requests -/
def RemoteCall.step (slots : Nat) : ExecutorStep ι (RemoteCall ι) (Session ι) Unit RemoteAnswer
  | i, .oneshot, _, s => some ((⟨i, s.nextTx⟩ : Tx ι), { s with nextTx := s.nextTx + 1 })
  | _, .insert jobId tx, _, s =>
    some ((), { s with pending := (jobId, tx) :: (s.forget jobId).pending })
  | _, .send request, _, s =>
    if s.phase = .finished then some (false, s)
    else if s.out.length < slots then some (true, { s with out := s.out ++ [request] })
    else none
  | _, .remove jobId, _, s => some ((), s.forget jobId)
  | _, .recv tx, _, s =>
    match s.outcomes.find? fun o => o.1 = tx with
    | some o => some (some o.2, s)
    | none => if s.Holds tx then none else some (none, s)

inductive SessionIo where
  | dispatch
  | completeJob (jobId : Uuid) (outcome : JobOutcome)
  | leave
  | cancel
  | clear
  | finish

def Session.dispatch (s : Session ι) : Option (Session ι) :=
  match s.out with
  | [] => none
  | _ :: out => some { s with out }

/-- deliver an outcome to its waiter; a stale or unknown one is ignored -/
def Session.completeJob (s : Session ι) (jobId : Uuid) (outcome : JobOutcome) : Session ι :=
  match s.pending.find? fun e => e.1 = jobId with
  | some e => { s.forget jobId with outcomes := (e.2, outcome) :: s.outcomes }
  | none => s

def Session.io (s : Session ι) : SessionIo → Option (Session ι)
  | .dispatch => if s.phase = .running then s.dispatch else none
  | .completeJob jobId outcome =>
    if s.phase = .running then some (s.completeJob jobId outcome) else none
  | .leave => if s.phase = .running then some { s with phase := .left } else none
  | .cancel => if s.phase = .left then some { s with phase := .cancelled } else none
  | .clear =>
    if s.phase = .cancelled then some { s with phase := .cleared, pending := [] } else none
  | .finish =>
    if s.phase = .cleared then some { s with phase := .finished, out := [] } else none

/-! ## loops and session together -/

/-- a loop leases or calls, the session task moves, or the rest of the deployment changes the
store -/
inductive SessionAct (ι : Type) where
  | lease (i : ι) (msgId : Nat)
  | call (i : ι) (x : CallOutcome Unit)
  | io (a : SessionIo)
  | store (jobs : Jobs) (queue : Queue) (now : Timestamp)

abbrev SessionPool (ι : Type) := WorkerPool ι (RemoteCall ι) (Session ι) RemoteAnswer

def sessionStep (cfg : WorkerConfig) (slots : Nat) (s : SessionPool ι) :
    SessionAct ι → Option (SessionPool ι)
  | .lease i msgId =>
    workerStep RemoteExecutor.analyze cfg (RemoteCall.step slots) s (.lease i msgId)
  | .call i x => workerStep RemoteExecutor.analyze cfg (RemoteCall.step slots) s (.call i x)
  | .io a =>
    (s.mem.executor.io a).map fun executor => { s with mem := { s.mem with executor } }
  | .store jobs queue now =>
    some { s with mem := { s.mem with jobs, queue, clock := now } }

/-- a session at its Hello, any number of loops, on any store -/
def sessionSys (cfg : WorkerConfig) (slots : Nat) : Sys (SessionPool ι) (SessionAct ι) where
  init s := s.mem.executor = Session.new ∧ ∀ i, s.thread i = none
  step := sessionStep cfg slots

/-- the call is not a send of a loop whose sender is stored, between the clear and the drop of
the receiver -/
def RemoteCall.inTime (i : ι) (c : Call (RemoteCall ι)) (s : Session ι) : Bool :=
  match c with
  | .exec (.send _) => s.phase ≠ .cleared || s.pending.all fun e => e.2.owner ≠ i
  | _ => true

def sendInTime (s : SessionPool ι) : SessionAct ι → Bool
  | .call i _ =>
    match s.thread i with
    | some (.call c _) => RemoteCall.inTime i c s.mem.executor
    | _ => true
  | _ => true

/-! ## what the loops rely on -/

def Session.Gone (s : Session ι) (tx : Tx ι) : Prop := s.phase.torn = true → ¬ s.Holds tx

/-- what others do to the channels of loop `i`: they store none of them after the clear -/
def Session.Keeps (i : ι) (s t : Session ι) : Prop :=
  ∀ tx : Tx ι, tx.owner = i → s.Gone tx → t.Gone tx

theorem Session.Keeps.of_subset {i : ι} {s t : Session ι} (hp : t.phase = s.phase)
    (hsub : ∀ e ∈ t.pending, e.2.owner = i → e ∈ s.pending) : s.Keeps i t := by
  intro tx ho hg ht hh
  obtain ⟨e, he, rfl⟩ := hh
  rw [hp] at ht
  exact hg ht ⟨e, hsub e he ho, rfl⟩

theorem Session.mem_forget {s : Session ι} {jobId : Uuid} {e : Uuid × Tx ι}
    (h : e ∈ (s.forget jobId).pending) : e ∈ s.pending := (List.mem_filter.mp h).1

theorem Session.dispatch_spec {s t : Session ι} (h : s.dispatch = some t) :
    t.phase = s.phase ∧ t.pending = s.pending := by
  unfold Session.dispatch at h
  split at h
  · cases h
  · cases h
    exact ⟨rfl, rfl⟩

theorem Session.completeJob_spec (s : Session ι) (jobId : Uuid) (outcome : JobOutcome) :
    (s.completeJob jobId outcome).phase = s.phase ∧
      ∀ e ∈ (s.completeJob jobId outcome).pending, e ∈ s.pending := by
  unfold Session.completeJob
  split
  · exact ⟨rfl, fun e he => Session.mem_forget he⟩
  · exact ⟨rfl, fun e he => he⟩

/-- **A step of the session task** stores no sender, and its clear misses none. -/
theorem Session.io_keeps {s t : Session ι} {a : SessionIo} (h : s.io a = some t) (i : ι) :
    s.Keeps i t := by
  cases a with
  | dispatch =>
    obtain ⟨_, hd⟩ := Option.ite_none_right_eq_some.mp h
    obtain ⟨hp, hq⟩ := Session.dispatch_spec hd
    refine Session.Keeps.of_subset hp fun e he _ => ?_
    rw [hq] at he
    exact he
  | completeJob jobId outcome =>
    obtain ⟨_, hd⟩ := Option.ite_none_right_eq_some.mp h
    cases hd
    obtain ⟨hp, hsub⟩ := Session.completeJob_spec s jobId outcome
    exact Session.Keeps.of_subset hp fun e he _ => hsub e he
  | leave =>
    obtain ⟨_, hd⟩ := Option.ite_none_right_eq_some.mp h
    cases hd
    exact fun tx _ _ ht => by cases ht
  | cancel =>
    obtain ⟨_, hd⟩ := Option.ite_none_right_eq_some.mp h
    cases hd
    exact fun tx _ _ ht => by cases ht
  | clear =>
    obtain ⟨_, hd⟩ := Option.ite_none_right_eq_some.mp h
    cases hd
    rintro tx _ _ _ ⟨e, he, _⟩
    cases he
  | finish =>
    obtain ⟨hp, hd⟩ := Option.ite_none_right_eq_some.mp h
    cases hd
    have ht : s.phase.torn = true := by rw [hp]; rfl
    exact fun tx _ hg _ => hg ht

/-- the discipline of the loops: none waits for a sender that is stored after the clear; only
calls in time are considered -/
def delivery (slots : Nat) :
    Discipline ι (Store (Session ι)) (Call (RemoteCall ι)) (CallOutcome Unit)
      (Answer RemoteAnswer) where
  exec i c x s :=
    if RemoteCall.inTime i c s.executor then Call.step (RemoteCall.step slots) i c x s else none
  inv _ := True
  rely i s t := s.executor.Keeps i t.executor
  pre _ c s :=
    match c with
    | .exec (.recv tx) => s.executor.Gone tx
    | _ => True
  refl _ _ := fun _ _ h => h
  trans _ _ _ _ h k := fun tx ho hg => k tx ho (h tx ho hg)

variable {slots : Nat}

theorem delivery_exec {i : ι} {e : RemoteCall ι} {x : CallOutcome Unit}
    {s t : Store (Session ι)} {r : RemoteAnswer e}
    (h : (delivery slots).exec i (.exec e) x s = some (r, t)) :
    RemoteCall.inTime i (.exec e) s.executor = true ∧
      RemoteCall.step slots i e () s.executor = some (r, t.executor) := by
  obtain ⟨hin, he⟩ := Option.ite_none_right_eq_some.mp h
  refine ⟨hin, ?_⟩
  cases x with
  | exec y =>
    obtain ⟨⟨r', m⟩, h1, h2⟩ := Option.map_eq_some_iff.mp he
    cases h2
    exact h1
  | ok => cases he
  | err msg => cases he
  | lost msg => cases he

theorem oneshot_spec {i : ι} {s t : Session ι} {tx : Tx ι}
    (h : RemoteCall.step slots i .oneshot () s = some (tx, t)) : tx.owner = i := by
  cases h
  rfl

theorem send_cases {i : ι} {request : JobRequest} {s t : Session ι} {sent : Bool}
    (h : RemoteCall.step slots i (.send request) () s = some (sent, t)) :
    (s.phase = .finished ∧ sent = false ∧ t = s) ∨
      (s.phase ≠ .finished ∧ sent = true ∧ t = { s with out := s.out ++ [request] }) := by
  unfold RemoteCall.step at h
  dsimp only at h
  split at h
  case isTrue hf =>
    cases h
    exact Or.inl ⟨hf, rfl, rfl⟩
  case isFalse hf =>
    obtain ⟨_, he⟩ := Option.ite_none_right_eq_some.mp h
    cases he
    exact Or.inr ⟨hf, rfl, rfl⟩

/-- what a wait that is over tells: an outcome of its channel, or that nobody stores it -/
theorem recv_cases {i : ι} {tx : Tx ι} {s t : Session ι} {r : Option JobOutcome}
    (h : RemoteCall.step slots i (.recv tx) () s = some (r, t)) : t = s ∧
      ((∃ o ∈ s.outcomes, o.1 = tx ∧ r = some o.2) ∨
        (r = none ∧ ¬ s.Holds tx ∧ ∀ o ∈ s.outcomes, o.1 ≠ tx)) := by
  unfold RemoteCall.step at h
  dsimp only at h
  split at h
  case h_1 o ho =>
    cases h
    exact ⟨rfl, Or.inl ⟨o, List.mem_of_find?_eq_some ho,
      of_decide_eq_true (List.find?_some ho :), rfl⟩⟩
  case h_2 hn =>
    split at h
    · cases h
    · rename_i hh
      cases h
      refine ⟨rfl, Or.inr ⟨rfl, hh, fun o ho => ?_⟩⟩
      have hne := List.find?_eq_none.mp hn o ho
      exact fun he => hne (decide_eq_true he)

theorem others_keep {i : ι} {c : RemoteCall ι} {s t : Session ι} {r : RemoteAnswer c}
    (hc : ∀ jobId tx, c = .insert jobId tx → tx.owner = i)
    (h : RemoteCall.step slots i c () s = some (r, t)) : ∀ j, j ≠ i → s.Keeps j t := by
  intro j hj
  cases c with
  | oneshot =>
    cases h
    exact fun _ _ hg => hg
  | insert jobId tx =>
    cases h
    refine Session.Keeps.of_subset rfl fun e he ho => ?_
    rcases List.mem_cons.mp he with rfl | he
    · exact absurd (ho.symm.trans (hc jobId tx rfl)) hj
    · exact Session.mem_forget he
  | send request =>
    rcases send_cases h with ⟨_, _, rfl⟩ | ⟨_, _, rfl⟩
    · exact fun _ _ hg => hg
    · exact Session.Keeps.of_subset rfl fun e he _ => he
  | remove jobId =>
    cases h
    exact Session.Keeps.of_subset rfl fun e he _ => Session.mem_forget he
  | recv tx =>
    rw [(recv_cases h).1]
    exact fun _ _ hg => hg

theorem remote_safe {α : Type} {i : ι} {post : α → Store (Session ι) → Prop} {c : RemoteCall ι}
    {k : RemoteAnswer c → Prog (Call (RemoteCall ι)) (Answer RemoteAnswer) α}
    {s : Store (Session ι)} (hc : ∀ jobId tx, c = .insert jobId tx → tx.owner = i)
    (hpre : ∀ tx, c = .recv tx → tx.owner = i ∧ s.executor.Gone tx)
    (hk : ∀ s' r t, RemoteCall.inTime i (.exec c) s' = true →
      RemoteCall.step slots i c () s' = some (r, t.executor) →
      Safe (delivery slots) i post (k r) t) :
    Safe (delivery slots) i post (.call (.exec c) k) s := by
  intro s' hr _
  refine ⟨?_, fun x r t he => ?_⟩
  · cases c with
    | recv tx =>
      obtain ⟨ho, hg⟩ := hpre tx rfl
      exact hr tx ho hg
    | _ => exact True.intro
  · obtain ⟨hin, hs⟩ := delivery_exec he
    exact ⟨True.intro, others_keep hc hs, hk s'.executor r t hin hs⟩

/-- a request accepted in time: its sender is in `pending` only as long as that is not cleared -/
theorem gone_of_sent {i : ι} {request : JobRequest} {tx : Tx ι} {s t : Session ι}
    (ho : tx.owner = i) (hin : RemoteCall.inTime i (.exec (.send request)) s = true)
    (h : RemoteCall.step slots i (.send request) () s = some (true, t)) : t.Gone tx := by
  rcases send_cases h with ⟨_, hsent, _⟩ | ⟨hf, _, rfl⟩
  · cases hsent
  rintro ht ⟨e, he, rfl⟩
  have hcl : s.phase = .cleared := by
    cases hph : s.phase with
    | cleared => rfl
    | finished => exact absurd hph hf
    | running => rw [hph] at ht; cases ht
    | left => rw [hph] at ht; cases ht
    | cancelled => rw [hph] at ht; cases ht
  have hall : (s.pending.all fun e => e.2.owner ≠ i) = true := by
    simpa [RemoteCall.inTime, hcl] using hin
  have hne := List.all_eq_true.mp hall e he
  exact (of_decide_eq_true hne) ho

/-- **One remote analysis**: with its send in time, it waits for no sender that stays stored. -/
theorem remote_analysis_safe {i : ι} (msg : JobMessage) (s : Store (Session ι)) :
    Safe (delivery slots) i (fun _ _ => True) (analysis RemoteExecutor.analyze msg) s := by
  have hret : ∀ (r : AppResult Json) t, Safe (delivery slots) i (fun _ _ => True)
      (Prog.ret r : Prog (Call (RemoteCall ι)) (Answer RemoteAnswer) _) t :=
    fun _ _ _ _ _ => True.intro
  refine remote_safe (c := .oneshot) (fun _ _ h => by cases h) (fun _ h => by cases h) ?_
  intro s1 tx t1 _ h1
  have ho : Tx.owner tx = i := oneshot_spec h1
  refine remote_safe (c := .insert msg.jobId tx) (fun _ _ h => by cases h; exact ho)
    (fun _ h => by cases h) ?_
  intro s2 _ t2 _ _
  refine remote_safe (c := .send ⟨msg.jobId, msg.sgf, msg.humanProfile⟩) (fun _ _ h => by cases h)
    (fun _ h => by cases h) ?_
  intro s3 sent t3 hin h3
  cases sent with
  | true =>
    have hg : t3.executor.Gone tx := gone_of_sent ho hin h3
    refine remote_safe (c := .recv tx) (fun _ _ h => by cases h)
      (fun _ h => by cases h; exact ⟨ho, hg⟩) ?_
    intro s4 outcome t4 _ _
    match outcome with
    | some (.ok value) => exact hret _ t4
    | some (.error message) => exact hret _ t4
    | none => exact hret _ t4
  | false =>
    refine remote_safe (c := .remove msg.jobId) (fun _ _ h => by cases h) (fun _ h => by cases h) ?_
    exact fun _ _ t4 _ _ => hret _ t4

theorem remote_handle_safe {i : ι} (cfg : WorkerConfig) (msg : Message) (s : Store (Session ι)) :
    Safe (delivery slots) i (fun _ _ => True) (handle RemoteExecutor.analyze cfg msg).run s := by
  refine handle_safe_of (fun c hc s _ => ⟨?_, fun x r t he => ⟨True.intro, fun j _ => ?_⟩⟩)
    RemoteExecutor.analyze cfg (fun s _ => remote_analysis_safe msg.message s) True.intro
  · cases c with
    | exec e => exact absurd rfl (hc e)
    | _ => exact True.intro
  · obtain ⟨_, hs⟩ := Option.ite_none_right_eq_some.mp he
    have hex : t.executor = s.executor := Call.step_executor hc hs
    show s.executor.Keeps j t.executor
    rw [hex]
    exact fun _ _ hg => hg

/-! ## every run whose sends are in time -/

variable {cfg : WorkerConfig}

theorem session_run_inTime {s : SessionPool ι} {i : ι} {x : CallOutcome Unit}
    (hok : sendInTime s (.call i x) = true) :
    s.run (delivery slots).exec i x = s.run (Call.step (RemoteCall.step slots)) i x := by
  unfold Pool.run
  unfold sendInTime at hok
  dsimp only at hok
  split
  case h_2 => rfl
  case h_1 c k hi =>
    rw [hi] at hok
    have he : (delivery slots).exec i c x s.mem = Call.step (RemoteCall.step slots) i c x s.mem :=
      if_pos hok
    rw [he]

theorem sessionStep_safe {s t : SessionPool ι} {a : SessionAct ι}
    (h : s.AllSafe (delivery slots) fun _ _ => True) (hok : sendInTime s a = true)
    (hs : sessionStep cfg slots s a = some t) : t.AllSafe (delivery slots) fun _ _ => True := by
  cases a with
  | lease i msgId =>
    have hl : workerStep RemoteExecutor.analyze cfg (RemoteCall.step slots) s (.lease i msgId)
      = some t := hs
    obtain ⟨_, msg, queue, _, rfl⟩ := lease_some hl
    refine (h.env (m := { s.mem with queue }) True.intro fun _ _ _ hg => hg).set i _ fun p hp => ?_
    cases hp
    exact remote_handle_safe cfg msg _
  | call i x =>
    have hs' : s.run (delivery slots).exec i x = some t := (session_run_inTime hok).trans hs
    exact h.run hs'
  | io a =>
    obtain ⟨e, he, rfl⟩ := Option.map_eq_some_iff.mp hs
    exact h.env True.intro fun i => Session.io_keeps he i
  | store jobs queue now =>
    cases hs
    exact h.env True.intro fun _ _ _ hg => hg

/-- **A closed session strands no job**, in every run whose sends are in time: once the session
is finished, the sender of a waiting call is not stored in `pending`, and the wait is answered. -/
theorem session_strands_none {s : SessionPool ι}
    (h : (sessionSys cfg slots).ReachableIf (fun s a => sendInTime s a = true) s)
    (hf : s.mem.executor.phase = .finished) {i : ι} {tx : Tx ι}
    {k : Option JobOutcome → Prog (Call (RemoteCall ι)) (Answer RemoteAnswer) (AppResult Unit)}
    (hw : s.thread i = some (.call (.exec (.recv tx)) k)) :
    ¬ s.mem.executor.Holds tx ∧
      (RemoteCall.step slots i (.recv tx) () s.mem.executor).isSome = true := by
  have hsafe : s.AllSafe (delivery slots) fun _ _ => True := by
    refine h.rule ?_ fun s a t hs hok he => sessionStep_safe hs hok he
    rintro s₀ ⟨_, h0⟩
    refine ⟨True.intro, fun i p hp => ?_⟩
    rw [h0 i] at hp
    cases hp
  have hg : s.mem.executor.Gone tx := hsafe.pre hw
  have hn : ¬ s.mem.executor.Holds tx := hg (by rw [hf]; rfl)
  refine ⟨hn, ?_⟩
  unfold RemoteCall.step
  dsimp only
  split
  · rfl
  · rw [if_neg hn]
    rfl

end

/-! ## the race at teardown -/

def oneJobSession : SessionPool ℕ :=
  ⟨⟨Jobs.empty, Queue.empty.send ⟨7, "(;B[pd])", none⟩, 0, [], Session.new⟩, fun _ => none⟩

def toAnalyze : List (SessionAct ℕ) := [.lease 0 1, .call 0 .ok, .call 0 .ok]

def register : List (SessionAct ℕ) := [.call 0 (.exec ()), .call 0 (.exec ())]

def upToClear : List (SessionAct ℕ) := [.io .leave, .io .cancel, .io .clear]

/-- the loop sends before the teardown, which fails its waiter -/
def sendFirst : List (SessionAct ℕ) :=
  toAnalyze ++ register ++ [.call 0 (.exec ())] ++ upToClear ++ [.io .finish]

def closedSession : SessionPool ℕ :=
  ((sessionSys ⟨3⟩ 1).exec oneJobSession sendFirst).getD oneJobSession

theorem session_strands_none_closed :
    ¬ closedSession.mem.executor.Holds ⟨0, 0⟩ ∧
      (RemoteCall.step 1 0 (.recv ⟨0, 0⟩) () closedSession.mem.executor).isSome = true := by
  have hr : (sessionSys ⟨3⟩ 1).ReachableIf (fun s a => sendInTime s a = true) closedSession :=
    ⟨oneJobSession, sendFirst, ⟨rfl, fun _ => rfl⟩, rfl, Sys.Meets.of_check rfl⟩
  exact session_strands_none hr rfl (i := 0) (k := _) rfl

/-- the loop registers and sends between the clear and the drop of the receiver -/
def sendLate : List (SessionAct ℕ) :=
  toAnalyze ++ upToClear ++ register ++ [.call 0 (.exec ()), .io .finish]

def strandedSession : SessionPool ℕ :=
  ((sessionSys ⟨3⟩ 1).exec oneJobSession sendLate).getD oneJobSession

theorem session_strands : ¬ ∀ s : SessionPool ℕ, (sessionSys ⟨3⟩ 1).Reachable s →
    s.mem.executor.phase = .finished → ∀ i tx k,
      s.thread i = some (.call (.exec (.recv tx)) k) → ¬ s.mem.executor.Holds tx := by
  intro h
  have hr : (sessionSys ⟨3⟩ 1).Reachable strandedSession :=
    ⟨oneJobSession, sendLate, ⟨rfl, fun _ => rfl⟩, rfl⟩
  have hw := h strandedSession hr rfl 0 ⟨0, 0⟩ _ rfl
  exact hw ⟨(7, ⟨0, 0⟩), List.mem_cons_self, rfl⟩

end KatagoWs
