import KatagoWs.Lib.Simulation
import KatagoWs.Service
import KatagoWs.Cluster.Message

/-!
# What a worker does to one connection

For the orchestrator, a worker is the far end of one socket: it takes the frames in order, analyses
the jobs side by side, and writes the outcome of each under the job's id.  Permits, parking, the
channel of results and the reconnects of the client are nothing it can tell.

* `WorkerEnd`       the far end: the frames to it, its analyses, the frames from it;
* `Client.view`     what the current session of the client shows of it;
* `Client.Viewed`   the invariant: besides the view, an outcome that waits to be posted is the
                    engine's on its own job;
* `client_refines`  the client is a worker's end in each of its sessions, and begins a new one
                    with each.
-/

namespace KatagoWs
open Lib

def runJob {χ : Type} (engine : EngineRun χ) (job : JobRequest) (x : χ) : JobOutcome :=
  match engine job.sgf job.humanProfile x with
  | .ok value => .ok value
  | .error err => .error err.toString

structure WorkerEnd where
  inbox : List Json
  tasks : List JobRequest
  outbox : List Json

inductive EndAct (χ : Type) where
  | push (f : JobFrame)
  | take
  | analysed (n : Nat) (x : χ)
  | answered
  | hangUp

def WorkerEnd.new : WorkerEnd := ⟨[], [], []⟩

section
variable {χ : Type} (U : UuidText) (engine : EngineRun χ)

def resultFrame (m : ResultMsg) : Json := ClientMsg.encode U (.result m)

def WorkerEnd.step (w : WorkerEnd) : EndAct χ → Option WorkerEnd
  | .push f => some { w with inbox := w.inbox ++ [JobFrame.encode U f] }
  -- an unparseable job is skipped
  | .take =>
    match w.inbox with
    | frame :: inbox =>
      some { w with
        inbox
        tasks := w.tasks ++ ((JobFrame.decode U frame).map JobFrame.request).toList }
    | [] => none
  | .analysed n x =>
    (w.tasks[n]?).map fun job =>
      { w with
        tasks := w.tasks.eraseIdx n
        outbox := w.outbox ++ [resultFrame U ⟨job.jobId, runJob engine job x⟩] }
  | .answered =>
    match w.outbox with
    | _ :: outbox => some { w with outbox }
    | [] => none
  | .hangUp => some WorkerEnd.new

def workerEndSys : Sys WorkerEnd (EndAct χ) where
  init w := w = WorkerEnd.new
  step := WorkerEnd.step U engine

end

/-! ## the view of a client -/

def Task.analyses (id : Nat) (t : Task) : Option JobRequest :=
  match t.phase with
  | .posted => none
  | _ => if t.session = id then some t.job else none

def Frame.request? : Frame → Option JobRequest
  | .job request => some request
  | _ => none

def LoopAt.parkedJob : LoopAt → List JobRequest
  | .parked job => [job]
  | _ => []

def LoopAt.sentResult : LoopAt → List ResultMsg
  | .sending message => [message]
  | _ => []

section
variable {slots : Nat} {χ : Type} (U : UuidText)

/-- the jobs that have come in, and have no task yet -/
def Link.requests (l : Link slots) : List JobRequest :=
  l.loop.parkedJob ++ l.inbound.filterMap Frame.request?

/-- the results on their way, oldest first -/
def Link.results (l : Link slots) : List ResultMsg :=
  l.outbound ++ l.loop.sentResult ++ l.out.items

def Link.view (l : Link slots) (tasks : List Task) : WorkerEnd where
  inbox := l.requests.map fun request => JobFrame.encode U { request, trace := none }
  tasks := tasks.filterMap (Task.analyses l.id)
  outbox := l.results.map (resultFrame U)

def Client.view (s : Client slots) : WorkerEnd :=
  match s.state with
  | .serving l => l.view U s.tasks
  | _ => WorkerEnd.new

variable (engine : EngineRun χ)

/-- the step takes its outcome from the engine, on the job of its task -/
def EngineOutcome (s : Client slots) : ClientAct → Prop
  | .engine n outcome => ∀ t, s.tasks[n]? = some t → ∃ x, outcome = runJob engine t.job x
  | _ => True

structure Client.Viewed (s : Client slots) (w : WorkerEnd) : Prop where
  inv : s.Inv
  view : w = s.view U
  honest : ∀ t ∈ s.tasks, ∀ outcome, t.phase = .posting outcome →
    ∃ x, outcome = runJob engine t.job x

end

/-! ## one of the tasks -/

section
variable {A B : Type} {f : A → Option B}

theorem filterMap_set_same {l : List A} {n : Nat} {a u : A} (h : l[n]? = some a)
    (hu : f u = f a) : (l.set n u).filterMap f = l.filterMap f := by
  induction l generalizing n with
  | nil => cases h
  | cons b l ih =>
    cases n with
    | zero =>
      cases h
      rw [List.set_cons_zero, List.filterMap_cons, List.filterMap_cons, hu]
    | succ n =>
      rw [List.set_cons_succ, List.filterMap_cons, List.filterMap_cons, ih h]

theorem filterMap_eraseIdx {l : List A} {n : Nat} {a : A} (h : l[n]? = some a)
    (ha : f a = none) : (l.eraseIdx n).filterMap f = l.filterMap f := by
  induction l generalizing n with
  | nil => cases h
  | cons b l ih =>
    cases n with
    | zero =>
      cases h
      rw [List.eraseIdx_cons_zero, List.filterMap_cons_none ha]
    | succ n =>
      rw [List.eraseIdx_cons_succ, List.filterMap_cons, List.filterMap_cons, ih h]

theorem filterMap_set_none {l : List A} {n : Nat} {a u : A} {b : B} (h : l[n]? = some a)
    (ha : f a = some b) (hu : f u = none) : ∃ k, (l.filterMap f)[k]? = some b ∧
      (l.set n u).filterMap f = (l.filterMap f).eraseIdx k := by
  induction l generalizing n with
  | nil => cases h
  | cons c l ih =>
    cases n with
    | zero =>
      cases h
      refine ⟨0, ?_, ?_⟩
      · rw [List.filterMap_cons_some ha]
        rfl
      · rw [List.set_cons_zero, List.filterMap_cons_none hu, List.filterMap_cons_some ha]
        rfl
    | succ n =>
      obtain ⟨k, hk, he⟩ := ih h
      rw [List.set_cons_succ]
      cases hc : f c with
      | none =>
        rw [List.filterMap_cons_none hc, List.filterMap_cons_none hc]
        exact ⟨k, hk, he⟩
      | some d =>
        rw [List.filterMap_cons_some hc, List.filterMap_cons_some hc]
        exact ⟨k + 1, hk, by rw [he]; rfl⟩

end

/-! ## one step -/

section
variable {slots : Nat} {χ : Type} {U : UuidText} {engine : EngineRun χ}

theorem Client.view_serving {s : Client slots} {l : Link slots} (h : s.state = .serving l) :
    s.view U = l.view U s.tasks := by
  unfold Client.view
  rw [h]

theorem Client.view_away {s : Client slots} (h : ∀ l, s.state ≠ .serving l) :
    s.view U = WorkerEnd.new := by
  unfold Client.view
  split
  · rename_i l hl
    exact absurd hl (h l)
  · rfl

theorem Link.view_congr {l l' : Link slots} {tasks tasks' : List Task}
    (hreq : l'.requests = l.requests) (hres : l'.results = l.results)
    (ht : tasks'.filterMap (Task.analyses l'.id) = tasks.filterMap (Task.analyses l.id)) :
    l'.view U tasks' = l.view U tasks := by
  unfold Link.view
  rw [hreq, hres, ht]

theorem Link.onInbound_view {l : Link slots} {frame : Frame} {state : ClientState slots}
    (h : l.onInbound frame = state) (hl : l.loop = .select) (tasks : List Task) :
    (∃ l', state = .serving l' ∧ l'.view U tasks
      = Link.view U { l with inbound := frame :: l.inbound } tasks) ∨ state = .backoff := by
  cases frame with
  | job request =>
    refine Or.inl ⟨_, h.symm, Link.view_congr ?_ ?_ rfl⟩
    · show [request] ++ l.inbound.filterMap Frame.request? = l.loop.parkedJob ++ (request :: _)
      rw [hl]
      rfl
    · show l.outbound ++ [] ++ l.out.items = l.outbound ++ l.loop.sentResult ++ l.out.items
      rw [hl]
      rfl
  | unparseable => exact Or.inl ⟨_, h.symm, rfl⟩
  | ping => exact Or.inl ⟨_, h.symm, rfl⟩
  | other => exact Or.inl ⟨_, h.symm, rfl⟩
  | close => exact Or.inr h.symm
  | error => exact Or.inr h.symm

variable (U engine) in
/-- **A step of the session**: the orchestrator's own push or receipt, the end of the session, or
nothing the orchestrator can tell. -/
theorem Link.step_view {l : Link slots} {a : LinkAct} {state : ClientState slots}
    (h : l.step a = some state) (tasks : List Task) :
    (∃ l' ops, state = .serving l' ∧
      (workerEndSys U engine).exec (l.view U tasks) ops = some (l'.view U tasks)) ∨
      state = .backoff := by
  cases a with
  | push frame =>
    cases h
    have hquiet : frame.request? = none →
        Link.view U { l with inbound := l.inbound ++ [frame] } tasks = l.view U tasks := by
      intro hf
      refine Link.view_congr ?_ rfl rfl
      unfold Link.requests
      dsimp only
      rw [List.filterMap_append, List.filterMap_cons_none hf, List.filterMap_nil, List.append_nil]
    cases frame with
    | job request =>
      refine Or.inl ⟨_, [.push ⟨request, none⟩], rfl, Sys.exec_one (congrArg some ?_)⟩
      have hreq : Link.requests { l with
          inbound := l.inbound ++ [.job request]
          unanswered := request.jobId :: l.unanswered } = l.requests ++ [request] := by
        unfold Link.requests
        dsimp only
        rw [List.filterMap_append, ← List.append_assoc]
        rfl
      unfold Link.view Link.push
      rw [hreq, List.map_append]
      rfl
    | _ => exact Or.inl ⟨_, [], rfl, congrArg some (hquiet rfl).symm⟩
  | inbound =>
    unfold Link.step at h
    dsimp only at h
    split at h
    case h_2 => cases h
    case h_1 frame inbound hloop hin =>
      rcases Link.onInbound_view (U := U) (Option.some.inj h) hloop tasks with
        ⟨l', hs, hv⟩ | hb
      · refine Or.inl ⟨l', [], hs, congrArg some ?_⟩
        rw [hv]
        refine Link.view_congr ?_ rfl rfl
        unfold Link.requests
        rw [hin]
      · exact Or.inr hb
  | lost =>
    unfold Link.step at h
    dsimp only at h
    split at h
    · cases h
      exact Or.inr rfl
    · cases h
  | outbound =>
    unfold Link.step at h
    dsimp only at h
    split at h
    case h_2 => cases h
    case h_1 hloop =>
      obtain ⟨⟨message, out⟩, hr, rfl⟩ := Option.map_eq_some_iff.mp h
      refine Or.inl ⟨{ l with out, loop := .sending message }, [], rfl, congrArg some (Eq.symm ?_)⟩
      refine Link.view_congr ?_ ?_ rfl
      · unfold Link.requests
        rw [hloop]
        rfl
      · unfold Link.results
        rw [hloop, Chan.recv_items hr, List.append_assoc, List.append_assoc]
        rfl
  | written ok =>
    unfold Link.step at h
    dsimp only at h
    split at h
    case h_2 => cases h
    case h_1 message hloop =>
      split at h
      case isFalse =>
        cases h
        exact Or.inr rfl
      case isTrue =>
        cases h
        refine Or.inl ⟨_, [], rfl, congrArg some (Eq.symm ?_)⟩
        refine Link.view_congr ?_ ?_ rfl
        · unfold Link.requests
          rw [hloop]
          rfl
        · unfold Link.results
          rw [hloop]
          show l.outbound ++ [message] ++ [] ++ l.out.items = l.outbound ++ [message] ++ l.out.items
          rw [List.append_nil]
  | answered =>
    unfold Link.step at h
    dsimp only at h
    split at h
    case h_2 => cases h
    case h_1 message outbound hout =>
      cases h
      refine Or.inl ⟨_, [.answered], rfl, Sys.exec_one ?_⟩
      unfold workerEndSys WorkerEnd.step Link.view Link.results
      dsimp only
      rw [hout]
      rfl

/-- a step that leaves the session: the orchestrator sees the socket close -/
theorem Client.view_hangUp {s t : Client slots} (h : ∀ l, t.state ≠ .serving l) :
    (workerEndSys U engine).exec (s.view U) [.hangUp] = some (t.view U) := by
  rw [Client.view_away h]
  rfl

theorem Link.view_new {id : Nat} {tasks : List Task} (h : ∀ t ∈ tasks, t.session < id) :
    (Link.new id : Link slots).view U tasks = WorkerEnd.new := by
  have hnone : tasks.filterMap (Task.analyses id) = [] := by
    refine List.filterMap_eq_nil_iff.mpr fun t ht => ?_
    have hne : t.session ≠ id := Nat.ne_of_lt (h t ht)
    unfold Task.analyses
    rw [if_neg hne]
    cases t.phase <;> rfl
  unfold Link.view
  rw [show (Link.new id : Link slots).id = id from rfl, hnone]
  rfl

theorem Client.view_task {s : Client slots} {n : Nat} {t u : Task} (ht : s.tasks[n]? = some t)
    (hu : ∀ id, u.analyses id = t.analyses id) :
    Client.view U { s with tasks := s.tasks.set n u } = s.view U := by
  unfold Client.view
  cases s.state with
  | serving l => exact Link.view_congr rfl rfl (filterMap_set_same ht (hu l.id))
  | _ => rfl

theorem Client.view_release {s : Client slots} {n : Nat} {t : Task} (ht : s.tasks[n]? = some t)
    (hn : ∀ id, t.analyses id = none) (permits : Nat) :
    Client.view U { s with tasks := s.tasks.eraseIdx n, permits } = s.view U := by
  unfold Client.view
  cases s.state with
  | serving l => exact Link.view_congr rfl rfl (filterMap_eraseIdx ht (hn l.id))
  | _ => rfl

theorem Link.view_acquire {l : Link slots} {job : JobRequest} (hp : l.loop = .parked job)
    (tasks : List Task) : (workerEndSys U engine).step (l.view U tasks) .take
      = some (Link.view U { l with loop := .select } (tasks ++ [⟨l.id, job, .running⟩])) := by
  have hreq : l.requests = job :: Link.requests { l with loop := .select } := by
    unfold Link.requests
    rw [hp]
    rfl
  have hres : l.results = Link.results { l with loop := .select } := by
    unfold Link.results
    rw [hp]
    rfl
  have htask : (tasks ++ [Task.mk l.id job .running]).filterMap (Task.analyses l.id)
      = tasks.filterMap (Task.analyses l.id) ++ [job] := by
    have hone : Task.analyses l.id (Task.mk l.id job .running) = some job := if_pos rfl
    rw [List.filterMap_append, List.filterMap_cons_some hone]
    rfl
  unfold workerEndSys WorkerEnd.step Link.view
  dsimp only
  rw [hreq, hres, htask, List.map_cons]
  dsimp only
  rw [JobFrame.decode_encode]
  rfl

/-- the outcome of a task goes on the socket of its session, or nowhere -/
theorem Client.view_post {s : Client slots} {n session : Nat} {job : JobRequest}
    {outcome : JobOutcome} {state : ClientState slots} (hx : ∃ x, outcome = runJob engine job x)
    (ht : s.tasks[n]? = some ⟨session, job, .posting outcome⟩)
    (hs : s.post session ⟨job.jobId, outcome⟩ = some state) :
    ∃ ops, (workerEndSys U engine).exec (s.view U) ops = some (Client.view U
      { s with state, tasks := s.tasks.set n ⟨session, job, .posted⟩ }) := by
  obtain ⟨x, rfl⟩ := hx
  have hposted : ∀ id, Task.analyses id ⟨session, job, .posted⟩ = none := fun _ => rfl
  unfold Client.post at hs
  split at hs
  case h_1 l hl =>
    rw [Client.view_serving hl]
    split at hs
    case isTrue hid =>
      obtain ⟨out, hout, rfl⟩ := Option.map_eq_some_iff.mp hs
      have hjob : Task.analyses l.id ⟨session, job, .posting (runJob engine job x)⟩ = some job :=
        if_pos hid.symm
      obtain ⟨k, hk, he⟩ := filterMap_set_none ht hjob (hposted l.id)
      refine ⟨[.analysed k x], Sys.exec_one ?_⟩
      show ((s.tasks.filterMap (Task.analyses l.id))[k]?).map _
        = some (Link.view U { l with out } _)
      rw [hk]
      refine congrArg some ?_
      have hres : Link.results { l with out }
          = l.results ++ [⟨job.jobId, runJob engine job x⟩] := by
        unfold Link.results
        dsimp only
        rw [Chan.send_items hout, ← List.append_assoc]
      unfold Link.view
      rw [hres, he, List.map_append]
      rfl
    case isFalse hid =>
      cases hs
      have hother : Task.analyses l.id ⟨session, job, .posting (runJob engine job x)⟩ = none :=
        if_neg fun e => hid e.symm
      refine ⟨[], congrArg some (Eq.symm ?_)⟩
      exact Link.view_congr rfl rfl (filterMap_set_same ht ((hposted l.id).trans hother.symm))
  case h_2 hno =>
    cases hs
    refine ⟨[], congrArg some ?_⟩
    rw [Client.view_away hno]
    refine (Client.view_away ?_).symm
    exact hno

/-- every outcome that waits to be posted is the engine's -/
def Client.Honest (engine : EngineRun χ) (tasks : List Task) : Prop :=
  ∀ t ∈ tasks, ∀ outcome, t.phase = .posting outcome → ∃ x, outcome = runJob engine t.job x

theorem Client.Honest.set {tasks : List Task} {n : Nat} {u : Task}
    (h : Client.Honest engine tasks)
    (hu : ∀ outcome, u.phase = .posting outcome → ∃ x, outcome = runJob engine u.job x) :
    Client.Honest engine (tasks.set n u) := by
  intro t ht
  rcases List.mem_or_eq_of_mem_set ht with ht | rfl
  · exact h t ht
  · exact hu

/-- **One step of the client** is one of its worker's end, or none. -/
theorem Client.Viewed.stepped {s t : Client slots} {w : WorkerEnd} {a : ClientAct}
    (h : s.Viewed U engine w) (hok : EngineOutcome engine s a) (hs : clientStep s a = some t) :
    ∃ ops v, (workerEndSys U engine).exec w ops = some v ∧ t.Viewed U engine v := by
  have hinv := h.inv.stepped hs
  obtain ⟨hI, rfl, hhonest⟩ := h
  suffices hkey : (∃ ops, (workerEndSys U engine).exec (s.view U) ops = some (t.view U)) ∧
      Client.Honest engine t.tasks by
    obtain ⟨⟨ops, ho⟩, ht⟩ := hkey
    exact ⟨ops, _, ho, hinv, rfl, ht⟩
  unfold clientStep at hs
  cases a with
  | dialed =>
    dsimp only at hs
    split at hs
    case h_2 => cases hs
    case h_1 hst =>
      cases hs
      refine ⟨⟨[], congrArg some ?_⟩, hhonest⟩
      rw [Client.view_away fun l hl => by rw [hst] at hl; cases hl]
      exact (Link.view_new hI.old).symm
  | dialFailed =>
    dsimp only at hs
    split at hs <;> cases hs
    exact ⟨⟨_, Client.view_hangUp fun l hl => by cases hl⟩, hhonest⟩
  | slept =>
    dsimp only at hs
    split at hs <;> cases hs
    exact ⟨⟨_, Client.view_hangUp fun l hl => by cases hl⟩, hhonest⟩
  | shutdown =>
    dsimp only at hs
    split at hs
    · cases hs
      exact ⟨⟨_, Client.view_hangUp fun l hl => by cases hl⟩, hhonest⟩
    · cases hs
      exact ⟨⟨_, Client.view_hangUp fun l hl => by cases hl⟩, hhonest⟩
    · split at hs <;> cases hs
      exact ⟨⟨_, Client.view_hangUp fun l hl => by cases hl⟩, hhonest⟩
    · cases hs
  | link a =>
    dsimp only at hs
    split at hs
    case h_2 => cases hs
    case h_1 l hl =>
      obtain ⟨state, hstep, rfl⟩ := Option.map_eq_some_iff.mp hs
      refine ⟨?_, hhonest⟩
      rcases Link.step_view U engine hstep s.tasks with ⟨l', ops, rfl, ho⟩ | rfl
      · rw [Client.view_serving hl]
        exact ⟨ops, ho⟩
      · exact ⟨_, Client.view_hangUp fun l hl => by cases hl⟩
  | acquire =>
    dsimp only at hs
    split at hs
    case h_2 => cases hs
    case h_1 l hl =>
      split at hs
      case h_2 => cases hs
      case h_1 job hp =>
        obtain ⟨_, he⟩ := Option.ite_none_right_eq_some.mp hs
        cases he
        refine ⟨⟨[.take], Sys.exec_one ?_⟩, fun t ht => ?_⟩
        · rw [Client.view_serving hl]
          exact Link.view_acquire hp s.tasks
        · rcases List.mem_append.mp ht with ht | ht
          · exact hhonest t ht
          · rw [List.mem_singleton.mp ht]
            exact fun outcome hph => by cases hph
  | engine n outcome =>
    dsimp only at hs
    split at hs
    case h_2 => cases hs
    case h_1 session job ht =>
      cases hs
      refine ⟨⟨[], congrArg some (Eq.symm ?_)⟩, Client.Honest.set hhonest fun o ho => ?_⟩
      · exact Client.view_task ht fun id => rfl
      · cases ho
        exact hok ⟨session, job, .running⟩ ht
  | post n =>
    dsimp only at hs
    split at hs
    case h_2 => cases hs
    case h_1 session job outcome ht =>
      obtain ⟨state, hpost, rfl⟩ := Option.map_eq_some_iff.mp hs
      have hx := hhonest _ (List.mem_of_getElem? ht) outcome rfl
      exact ⟨Client.view_post hx ht hpost, Client.Honest.set hhonest fun o ho => by cases ho⟩
  | release n =>
    dsimp only at hs
    split at hs
    case h_2 => cases hs
    case h_1 session job ht =>
      cases hs
      refine ⟨⟨[], congrArg some (Eq.symm ?_)⟩,
        fun t ht => hhonest t (List.mem_of_mem_eraseIdx ht)⟩
      exact Client.view_release ht (fun id => rfl) (s.permits + 1)

/-- **The client is a worker's end** for whoever holds the other end of its socket: whatever its
permits, its other sessions and its results still on the way, each of its results is the engine's
outcome on a job of the same session, taken once. -/
theorem client_refines (U : UuidText) (engine : EngineRun χ) (slots : Nat) :
    (clientSys slots).Refines (workerEndSys U engine) (EngineOutcome engine)
      (Client.Viewed U engine) where
  init s h := by
    obtain rfl : s = Client.new := h
    exact ⟨WorkerEnd.new, rfl, inv_new, rfl, fun t ht => by cases ht⟩
  step s a t w h hok hs := h.stepped hok hs

end

end KatagoWs
