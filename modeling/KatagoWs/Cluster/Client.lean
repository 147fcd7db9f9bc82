import Mathlib.Data.List.Perm.Basic
import KatagoWs.Cluster.Session
import KatagoWs.Lib.Chan

/-!
# The worker client: one loop, shared permits

The client serves one session at a time: a loop that sends finished results and takes pushed
jobs, and parks for a permit of the limiter when every slot is busy.  An analysis runs in a task
of its own, which holds its permit until its result is posted on the channel of the session it
was pushed on, so tasks of a lost session hold permits in the next one.

* `Link.step`     the loop of `on_serving`, the socket and the orchestrator at its other end;
* `clientStep`    the states of the client, its permits and its tasks;
* `Client.Inv`    every permit is free or held by a task, and what the orchestrator waits for is
                  on the socket, with the loop, with a task or in the channel;
* `withinSlots`   an orchestrator that keeps to the slots announced;
* `never_stuck`   with such orchestrators a result always finds room, and no permit waits for the
                  loop.
-/

namespace KatagoWs
open Lib

/-- `u32::try_from(concurrency.max(1)).unwrap_or(u32::MAX)` -/
def WorkerClient.slots (concurrency : Nat) : Nat := min (max concurrency 1) 4294967295

theorem WorkerClient.slots_pos (concurrency : Nat) : 0 < WorkerClient.slots concurrency :=
  lt_min (lt_of_lt_of_le Nat.zero_lt_one (le_max_right _ _)) (by decide)

/-- `ClientMsg::Result`, the only message a session posts -/
structure ResultMsg where
  jobId : Uuid
  outcome : JobOutcome

inductive Frame where
  | job (request : JobRequest)
  | unparseable
  | ping
  | other
  | close
  | error

def Frame.job? : Frame → Option Uuid
  | .job request => some request.jobId
  | _ => none

/-- where the loop of `on_serving` is: at its `select!`, writing to the sink, or in `dispatch` -/
inductive LoopAt where
  | select
  | sending (message : ResultMsg)
  | parked (job : JobRequest)

/-- an established session: the frames pushed on its socket, the loop, the channel of results,
the results on the socket, and the jobs whose Result the orchestrator waits for -/
structure Link (slots : Nat) where
  id : Nat
  inbound : List Frame
  loop : LoopAt
  out : Chan ResultMsg (slots + 1)
  outbound : List ResultMsg
  unanswered : List Uuid

inductive ClientState (slots : Nat) where
  | connecting
  | serving (link : Link slots)
  | backoff
  | stopped

inductive TaskPhase where
  | running
  | posting (outcome : JobOutcome)
  | posted

/-- a spawned analysis; it holds a permit until it ends -/
structure Task where
  session : Nat
  job : JobRequest
  phase : TaskPhase

structure Client (slots : Nat) where
  state : ClientState slots
  permits : Nat
  tasks : List Task
  sessions : Nat

variable {slots : Nat}

def Link.new (id : Nat) : Link slots := ⟨id, [], .select, Chan.empty, [], []⟩

def Client.new : Client slots := ⟨.connecting, slots, [], 0⟩

/-! ## the session -/

inductive LinkAct where
  | push (frame : Frame)
  | inbound
  | lost
  | outbound
  | written (ok : Bool)
  | answered

def Link.push (l : Link slots) (frame : Frame) : Link slots :=
  match frame with
  | .job request =>
    { l with
      inbound := l.inbound ++ [frame]
      unanswered := request.jobId :: l.unanswered }
  | _ => { l with inbound := l.inbound ++ [frame] }

/-- one frame of the stream; a ping is answered on the sink -/
def Link.onInbound (l : Link slots) : Frame → ClientState slots
  | .job request => .serving { l with loop := .parked request }
  | .unparseable => .serving l
  | .ping => .serving l
  | .other => .serving l
  | .close => .backoff
  | .error => .backoff

def Link.step (l : Link slots) : LinkAct → Option (ClientState slots)
  | .push frame => some (.serving (l.push frame))
  | .inbound =>
    match l.loop, l.inbound with
    | .select, frame :: inbound => some (Link.onInbound { l with inbound } frame)
    | _, _ => none
  | .lost =>
    match l.loop with
    | .select => some .backoff
    | _ => none
  | .outbound =>
    match l.loop with
    | .select => l.out.recv.map fun (message, out) =>
        .serving { l with out, loop := .sending message }
    | _ => none
  | .written ok =>
    match l.loop with
    | .sending message =>
      if ok then some (.serving { l with loop := .select, outbound := l.outbound ++ [message] })
      else some .backoff
    | _ => none
  | .answered =>
    match l.outbound with
    | message :: outbound =>
      some (.serving { l with outbound, unanswered := l.unanswered.erase message.jobId })
    | [] => none

/-! ## the client -/

inductive ClientAct where
  | dialed
  | dialFailed
  | slept
  | shutdown
  | link (a : LinkAct)
  | acquire
  | engine (n : Nat) (outcome : JobOutcome)
  | post (n : Nat)
  | release (n : Nat)

/-- `out_tx.send`: an error once the session's receiver is dropped, and it waits while the
channel is full -/
def Client.post (s : Client slots) (session : Nat) (reply : ResultMsg) :
    Option (ClientState slots) :=
  match s.state with
  | .serving l =>
    if l.id = session then (l.out.send reply).map fun out => .serving { l with out }
    else some (.serving l)
  | state => some state

def clientStep (s : Client slots) : ClientAct → Option (Client slots)
  | .dialed =>
    match s.state with
    | .connecting =>
      some { s with state := .serving (Link.new s.sessions), sessions := s.sessions + 1 }
    | _ => none
  | .dialFailed =>
    match s.state with
    | .connecting => some { s with state := .backoff }
    | _ => none
  | .slept =>
    match s.state with
    | .backoff => some { s with state := .connecting }
    | _ => none
  | .shutdown =>
    match s.state with
    | .connecting => some { s with state := .stopped }
    | .backoff => some { s with state := .stopped }
    | .serving l =>
      match l.loop with
      | .select => some { s with state := .stopped }
      | _ => none
    | .stopped => none
  | .link a =>
    match s.state with
    | .serving l => (l.step a).map fun state => { s with state }
    | _ => none
  -- `dispatch` gets its permit and spawns the analysis
  | .acquire =>
    match s.state with
    | .serving l =>
      match l.loop with
      | .parked job =>
        if 0 < s.permits then
          some { s with
            state := .serving { l with loop := .select }
            permits := s.permits - 1
            tasks := s.tasks ++ [⟨l.id, job, .running⟩] }
        else none
      | _ => none
    | _ => none
  | .engine n outcome =>
    match s.tasks[n]? with
    | some ⟨session, job, .running⟩ =>
      some { s with tasks := s.tasks.set n ⟨session, job, .posting outcome⟩ }
    | _ => none
  | .post n =>
    match s.tasks[n]? with
    | some ⟨session, job, .posting outcome⟩ =>
      (s.post session ⟨job.jobId, outcome⟩).map fun state =>
        { s with state, tasks := s.tasks.set n ⟨session, job, .posted⟩ }
    | _ => none
  | .release n =>
    match s.tasks[n]? with
    | some ⟨_, _, .posted⟩ =>
      some { s with tasks := s.tasks.eraseIdx n, permits := s.permits + 1 }
    | _ => none

def clientSys (slots : Nat) : Sys (Client slots) ClientAct where
  init s := s = Client.new
  step := clientStep

/-- the jobs whose Result the orchestrator of the session waits for -/
def Client.unanswered (s : Client slots) : List Uuid :=
  match s.state with
  | .serving l => l.unanswered
  | _ => []

/-- the orchestrator sends a job only while it waits for fewer than `slots` Results -/
def withinSlots (s : Client slots) : ClientAct → Bool
  | .link (.push (.job _)) => s.unanswered.length < slots
  | _ => true

/-! ## where the unanswered jobs are -/

def LoopAt.jobs : LoopAt → List Uuid
  | .select => []
  | .sending message => [message.jobId]
  | .parked job => [job.jobId]

/-- the jobs on the socket, with the loop and in the channel -/
def Link.carried (l : Link slots) : List Uuid :=
  l.inbound.filterMap Frame.job? ++ l.loop.jobs ++
    l.out.items.map ResultMsg.jobId ++ l.outbound.map ResultMsg.jobId

/-- the job whose Result the task has still to post on session `id` -/
def Task.owes (id : Nat) (t : Task) : Option Uuid :=
  match t.phase with
  | .posted => none
  | _ => if t.session = id then some t.job.jobId else none

def owed (id : Nat) (tasks : List Task) : List Uuid := tasks.filterMap (Task.owes id)

/-- the orchestrator waits for what is carried or owed, and for nothing else -/
def Link.Balanced (l : Link slots) (tasks : List Task) : Prop :=
  ∀ jobId, l.unanswered.count jobId = l.carried.count jobId + (owed l.id tasks).count jobId

structure Client.Inv (s : Client slots) : Prop where
  permits : s.permits + s.tasks.length = slots
  old : ∀ t ∈ s.tasks, t.session < s.sessions
  session : ∀ l, s.state = .serving l → l.id < s.sessions
  balanced : ∀ l, s.state = .serving l → l.Balanced s.tasks

theorem Link.Balanced.length {l : Link slots} {tasks : List Task} (h : l.Balanced tasks) :
    l.unanswered.length = l.carried.length + (owed l.id tasks).length := by
  have hp : l.unanswered.Perm (l.carried ++ owed l.id tasks) := by
    refine List.perm_iff_count.mpr fun jobId => ?_
    rw [List.count_append]
    exact h jobId
  rw [hp.length_eq, List.length_append]

theorem Link.carried_count (l : Link slots) (jobId : Uuid) :
    l.carried.count jobId = (l.inbound.filterMap Frame.job?).count jobId +
      l.loop.jobs.count jobId + (l.out.items.map ResultMsg.jobId).count jobId +
      (l.outbound.map ResultMsg.jobId).count jobId := by
  unfold Link.carried
  rw [List.count_append, List.count_append, List.count_append]

theorem Link.out_le_carried (l : Link slots) : l.out.items.length ≤ l.carried.length := by
  unfold Link.carried
  simp only [List.length_append, List.length_map]
  omega

/-- what a session newly waits for, it newly carries -/
theorem Link.Balanced.shift {l l' : Link slots} {tasks : List Task} (h : l.Balanced tasks)
    (hid : l'.id = l.id) (hc : ∀ jobId, l'.unanswered.count jobId + l.carried.count jobId
      = l.unanswered.count jobId + l'.carried.count jobId) : l'.Balanced tasks := by
  intro jobId
  have h1 := h jobId
  have h2 := hc jobId
  rw [hid]
  omega

/-! ## one step -/

theorem Link.push_spec (l : Link slots) (frame : Frame) : (l.push frame).id = l.id ∧
    ∀ jobId, (l.push frame).unanswered.count jobId + l.carried.count jobId
      = l.unanswered.count jobId + (l.push frame).carried.count jobId := by
  have hinbound : ∀ frame jobId, ((l.inbound ++ [frame]).filterMap Frame.job?).count jobId
      = (l.inbound.filterMap Frame.job?).count jobId + frame.job?.toList.count jobId := by
    intro frame jobId
    rw [List.filterMap_append, List.count_append]
    cases frame <;> rfl
  cases frame with
  | job request =>
    refine ⟨rfl, fun jobId => ?_⟩
    dsimp only [Link.push]
    rw [Link.carried_count, Link.carried_count, hinbound, List.count_cons]
    dsimp only [Frame.job?, Option.toList]
    rw [List.count_singleton]
    omega
  | _ =>
    refine ⟨rfl, fun jobId => ?_⟩
    dsimp only [Link.push]
    rw [Link.carried_count, Link.carried_count, hinbound]
    rfl

/-- a frame that leaves the socket is dropped, ends the session, or parks the loop -/
theorem Link.onInbound_spec {l l' : Link slots} {frame : Frame}
    (h : l.onInbound frame = .serving l') (hl : l.loop.jobs = []) : l'.id = l.id ∧
      l'.unanswered = l.unanswered ∧ ∀ jobId, l'.carried.count jobId
        = l.carried.count jobId + frame.job?.toList.count jobId := by
  cases frame with
  | job request =>
    cases h
    refine ⟨rfl, rfl, fun jobId => ?_⟩
    rw [Link.carried_count, Link.carried_count, hl]
    dsimp only [Frame.job?, Option.toList, LoopAt.jobs]
    rw [List.count_nil]
    omega
  | close => cases h
  | error => cases h
  | _ =>
    cases h
    exact ⟨rfl, rfl, fun jobId => rfl⟩

/-- **A step of the session** keeps the balance: a Result that is answered was awaited, and only
a job that is pushed is newly waited for. -/
theorem Link.step_spec {l l' : Link slots} {a : LinkAct} (h : l.step a = some (.serving l')) :
    l'.id = l.id ∧ (l'.unanswered.length ≤ l.unanswered.length ∨ ∃ request,
      a = .push (.job request) ∧ l'.unanswered.length = l.unanswered.length + 1) ∧
      ∀ tasks, l.Balanced tasks → l'.Balanced tasks := by
  cases a with
  | push frame =>
    cases h
    obtain ⟨hid, hc⟩ := Link.push_spec l frame
    refine ⟨hid, ?_, fun tasks hb => hb.shift hid hc⟩
    cases frame with
    | job request => exact Or.inr ⟨request, rfl, rfl⟩
    | _ => exact Or.inl (le_refl _)
  | inbound =>
    unfold Link.step at h
    dsimp only at h
    split at h
    case h_2 => cases h
    case h_1 frame inbound hloop hin =>
      have hl : l.loop.jobs = [] := by rw [hloop]; rfl
      obtain ⟨hid, hun, hc⟩ := Link.onInbound_spec (Option.some.inj h) hl
      refine ⟨hid, Or.inl (le_of_eq (congrArg List.length hun)),
        fun tasks hb => hb.shift hid fun jobId => ?_⟩
      have hcj := hc jobId
      rw [Link.carried_count { l with inbound }] at hcj
      dsimp only at hcj
      have hin' : (l.inbound.filterMap Frame.job?).count jobId
          = frame.job?.toList.count jobId + (inbound.filterMap Frame.job?).count jobId := by
        rw [hin, List.filterMap_cons]
        cases frame.job? with
        | none => exact (Nat.zero_add _).symm
        | some id =>
          show (id :: _).count jobId = [id].count jobId + _
          rw [List.count_cons, List.count_singleton]
          omega
      rw [hun, Link.carried_count l, hin']
      dsimp only
      omega
  | lost =>
    unfold Link.step at h
    dsimp only at h
    split at h <;> cases h
  | outbound =>
    unfold Link.step at h
    dsimp only at h
    split at h
    case h_2 => cases h
    case h_1 hloop =>
      obtain ⟨⟨message, out⟩, hr, he⟩ := Option.map_eq_some_iff.mp h
      cases he
      refine ⟨rfl, Or.inl (le_refl _), fun tasks hb => hb.shift rfl fun jobId => ?_⟩
      rw [Link.carried_count, Link.carried_count, Chan.recv_items hr, hloop, List.map_cons,
        List.count_cons]
      dsimp only [LoopAt.jobs]
      rw [List.count_nil, List.count_singleton]
      omega
  | written ok =>
    unfold Link.step at h
    dsimp only at h
    split at h
    case h_2 => cases h
    case h_1 message hloop =>
      split at h
      case isFalse => cases h
      case isTrue =>
        cases h
        refine ⟨rfl, Or.inl (le_refl _), fun tasks hb => hb.shift rfl fun jobId => ?_⟩
        rw [Link.carried_count, Link.carried_count, hloop, List.map_append, List.count_append]
        dsimp only [LoopAt.jobs, List.map]
        rw [List.count_nil]
        omega
  | answered =>
    unfold Link.step at h
    dsimp only at h
    split at h
    case h_2 => cases h
    case h_1 message outbound hout =>
      cases h
      refine ⟨rfl, Or.inl List.length_erase_le, fun tasks hb jobId => ?_⟩
      have hj := hb jobId
      rw [Link.carried_count, hout, List.map_cons, List.count_cons] at hj
      show (l.unanswered.erase message.jobId).count jobId = _ + _
      rw [List.count_erase, Link.carried_count]
      dsimp only
      split at hj
      case isTrue he =>
        rw [if_pos he]
        omega
      case isFalse he =>
        rw [if_neg he]
        omega

theorem owed_cons (id : Nat) (tasks : List Task) (t : Task) (jobId : Uuid) :
    (owed id (t :: tasks)).count jobId
      = (t.owes id).toList.count jobId + (owed id tasks).count jobId := by
  unfold owed
  rw [List.filterMap_cons]
  cases t.owes id with
  | none => exact (Nat.zero_add _).symm
  | some i =>
    show (i :: _).count jobId = [i].count jobId + _
    rw [List.count_cons, List.count_singleton]
    omega

theorem owed_append (id : Nat) (tasks : List Task) (t : Task) (jobId : Uuid) :
    (owed id (tasks ++ [t])).count jobId
      = (t.owes id).toList.count jobId + (owed id tasks).count jobId := by
  rw [← owed_cons]
  exact ((List.perm_append_singleton t tasks).filterMap _).count_eq jobId

theorem owed_erase {tasks : List Task} {n : Nat} {t : Task} (h : tasks[n]? = some t) (id : Nat)
    (jobId : Uuid) : (owed id tasks).count jobId
      = (t.owes id).toList.count jobId + (owed id (tasks.eraseIdx n)).count jobId := by
  obtain ⟨hn, rfl⟩ := List.getElem?_eq_some_iff.mp h
  rw [← owed_cons]
  exact ((List.getElem_cons_eraseIdx_perm hn).symm.filterMap _).count_eq jobId

theorem owed_set {tasks : List Task} {n : Nat} {t : Task} (h : tasks[n]? = some t) (u : Task)
    (id : Nat) (jobId : Uuid) : (owed id (tasks.set n u)).count jobId
      = (u.owes id).toList.count jobId + (owed id (tasks.eraseIdx n)).count jobId := by
  obtain ⟨hn, _⟩ := List.getElem?_eq_some_iff.mp h
  rw [← owed_cons]
  exact ((List.set_perm_cons_eraseIdx hn u).filterMap _).count_eq jobId

theorem owed_new {tasks : List Task} {id : Nat} (h : ∀ t ∈ tasks, t.session < id) :
    owed id tasks = [] := by
  refine List.filterMap_eq_nil_iff.mpr fun t ht => ?_
  unfold Task.owes
  split
  · rfl
  · exact if_neg (Nat.ne_of_lt (h t ht))

theorem inv_new : Client.Inv (Client.new : Client slots) :=
  ⟨Nat.add_zero _, fun _ h => (by cases h), fun _ h => (by cases h), fun _ h => (by cases h)⟩

theorem Client.Inv.away {s : Client slots} (h : s.Inv) {state : ClientState slots}
    (hs : ∀ l, state ≠ .serving l) : Client.Inv { s with state } :=
  ⟨h.permits, h.old, fun l hl => absurd hl (hs l), fun l hl => absurd hl (hs l)⟩

theorem Client.Inv.dialed {s : Client slots} (h : s.Inv) :
    Client.Inv ({ s with state := .serving (Link.new s.sessions), sessions := s.sessions + 1 } :
      Client slots) := by
  refine ⟨h.permits, fun t ht => Nat.lt_succ_of_lt (h.old t ht), ?_, ?_⟩
  · intro l hl
    cases hl
    exact Nat.lt_succ_self _
  · intro l hl jobId
    cases hl
    show 0 = 0 + (owed s.sessions s.tasks).count jobId
    rw [owed_new h.old]
    rfl

theorem Client.Inv.link {s : Client slots} (h : s.Inv) {l : Link slots} {a : LinkAct}
    {state : ClientState slots} (hl : s.state = .serving l) (hs : l.step a = some state) :
    Client.Inv { s with state } := by
  refine ⟨h.permits, h.old, fun l' hl' => ?_, fun l' hl' => ?_⟩ <;>
    obtain rfl : state = .serving l' := hl' <;> obtain ⟨hid, _, hb⟩ := Link.step_spec hs
  · rw [hid]
    exact h.session l hl
  · exact hb _ (h.balanced l hl)

/-- `dispatch` turns a permit and the parked job into a task -/
theorem Client.Inv.acquire {s : Client slots} (h : s.Inv) {l : Link slots} {job : JobRequest}
    (hl : s.state = .serving l) (hp : l.loop = .parked job) (hfree : 0 < s.permits) :
    Client.Inv { s with
      state := .serving { l with loop := .select }
      permits := s.permits - 1
      tasks := s.tasks ++ [⟨l.id, job, .running⟩] } := by
  refine ⟨?_, ?_, ?_, ?_⟩
  · have hperm := h.permits
    show s.permits - 1 + (s.tasks ++ [_]).length = slots
    rw [List.length_append, List.length_singleton]
    omega
  · intro t ht
    rcases List.mem_append.mp ht with ht | ht
    · exact h.old t ht
    · rw [List.mem_singleton.mp ht]
      exact h.session l hl
  · intro l' hl'
    cases hl'
    exact h.session l hl
  · intro l' hl' jobId
    cases hl'
    have hb := h.balanced l hl jobId
    rw [Link.carried_count, hp] at hb
    rw [Link.carried_count, owed_append]
    have howes : Task.owes l.id ⟨l.id, job, .running⟩ = some job.jobId := if_pos rfl
    rw [howes]
    dsimp only [LoopAt.jobs, Option.toList] at hb ⊢
    rw [List.count_nil]
    omega

theorem Client.Inv.task {s : Client slots} (h : s.Inv) {n : Nat} {t u : Task}
    (ht : s.tasks[n]? = some t) (hsession : u.session = t.session)
    (howes : ∀ id, u.owes id = t.owes id) : Client.Inv { s with tasks := s.tasks.set n u } := by
  refine ⟨?_, ?_, h.session, ?_⟩
  · show s.permits + (s.tasks.set n u).length = slots
    rw [List.length_set]
    exact h.permits
  · intro v hv
    rcases List.mem_or_eq_of_mem_set hv with hv | rfl
    · exact h.old v hv
    · rw [hsession]
      exact h.old t (List.mem_of_getElem? ht)
  · intro l hl jobId
    have hb := h.balanced l hl jobId
    rw [owed_erase ht] at hb
    show _ = _ + (owed l.id (s.tasks.set n u)).count jobId
    rw [owed_set ht, howes]
    exact hb

/-- the result of a task is with the session that waits for it, or nobody waits -/
theorem Client.Inv.post {s : Client slots} (h : s.Inv) {n session : Nat} {job : JobRequest}
    {outcome : JobOutcome} {state : ClientState slots}
    (ht : s.tasks[n]? = some ⟨session, job, .posting outcome⟩)
    (hs : s.post session ⟨job.jobId, outcome⟩ = some state) :
    Client.Inv { s with state, tasks := s.tasks.set n ⟨session, job, .posted⟩ } := by
  have hlen : s.permits + (s.tasks.set n ⟨session, job, .posted⟩).length = slots := by
    rw [List.length_set]
    exact h.permits
  have hold : ∀ t ∈ s.tasks.set n ⟨session, job, .posted⟩, t.session < s.sessions := by
    intro t hm
    rcases List.mem_or_eq_of_mem_set hm with hm | rfl
    · exact h.old t hm
    · have hlt := h.old _ (List.mem_of_getElem? ht)
      exact hlt
  have hposted : ∀ id, Task.owes id ⟨session, job, .posted⟩ = none := fun _ => rfl
  have howes : ∀ id, Task.owes id ⟨session, job, .posting outcome⟩
      = if session = id then some job.jobId else none := fun _ => rfl
  unfold Client.post at hs
  split at hs
  case h_1 l hl =>
    have hb := h.balanced l hl
    split at hs
    case isTrue hid =>
      obtain ⟨out, hout, he⟩ := Option.map_eq_some_iff.mp hs
      cases he
      refine ⟨hlen, hold, fun l' hl' => ?_, fun l' hl' jobId => ?_⟩ <;> cases hl'
      · exact h.session l hl
      · have hj := hb jobId
        rw [owed_erase ht, howes, if_pos hid.symm, Link.carried_count] at hj
        rw [owed_set ht, hposted, Link.carried_count]
        dsimp only [Option.toList] at hj ⊢
        rw [Chan.send_items hout, List.map_append, List.count_append, List.count_nil]
        dsimp only [List.map]
        omega
    case isFalse hid =>
      cases hs
      refine ⟨hlen, hold, fun l' hl' => ?_, fun l' hl' jobId => ?_⟩ <;> cases hl'
      · exact h.session l hl
      · have hj := hb jobId
        rw [owed_erase ht, howes, if_neg (Ne.symm hid)] at hj
        show _ = _ + (owed l.id (s.tasks.set n _)).count jobId
        rw [owed_set ht, hposted]
        exact hj
  case h_2 hno =>
    cases hs
    exact ⟨hlen, hold, fun l hl => absurd hl (hno l), fun l hl => absurd hl (hno l)⟩

theorem Client.Inv.release {s : Client slots} (h : s.Inv) {n session : Nat} {job : JobRequest}
    (ht : s.tasks[n]? = some ⟨session, job, .posted⟩) :
    Client.Inv { s with tasks := s.tasks.eraseIdx n, permits := s.permits + 1 } := by
  obtain ⟨hn, _⟩ := List.getElem?_eq_some_iff.mp ht
  refine ⟨?_, fun t hm => h.old t (List.mem_of_mem_eraseIdx hm), h.session, ?_⟩
  · have hperm := h.permits
    show s.permits + 1 + (s.tasks.eraseIdx n).length = slots
    rw [List.length_eraseIdx_of_lt hn]
    omega
  · intro l hl jobId
    have hb := h.balanced l hl jobId
    rw [owed_erase ht] at hb
    show _ = _ + (owed l.id (s.tasks.eraseIdx n)).count jobId
    rw [hb]
    exact congrArg _ (Nat.zero_add _)

theorem Client.Inv.stepped {s t : Client slots} {a : ClientAct} (h : s.Inv)
    (hs : clientStep s a = some t) : t.Inv := by
  unfold clientStep at hs
  cases a with
  | dialed =>
    dsimp only at hs
    split at hs <;> cases hs
    exact h.dialed
  | dialFailed =>
    dsimp only at hs
    split at hs <;> cases hs
    exact h.away fun l => by simp
  | slept =>
    dsimp only at hs
    split at hs <;> cases hs
    exact h.away fun l => by simp
  | shutdown =>
    dsimp only at hs
    split at hs
    · cases hs
      exact h.away fun l => by simp
    · cases hs
      exact h.away fun l => by simp
    · split at hs <;> cases hs
      exact h.away fun l => by simp
    · cases hs
  | link a =>
    dsimp only at hs
    split at hs
    case h_1 l hl =>
      obtain ⟨state, hstep, rfl⟩ := Option.map_eq_some_iff.mp hs
      exact h.link hl hstep
    case h_2 => cases hs
  | acquire =>
    dsimp only at hs
    split at hs
    case h_1 l hl =>
      split at hs
      case h_1 job hp =>
        obtain ⟨hfree, he⟩ := Option.ite_none_right_eq_some.mp hs
        cases he
        exact h.acquire hl hp hfree
      case h_2 => cases hs
    case h_2 => cases hs
  | engine n outcome =>
    dsimp only at hs
    split at hs
    case h_1 session job ht =>
      cases hs
      exact h.task ht rfl fun _ => rfl
    case h_2 => cases hs
  | post n =>
    dsimp only at hs
    split at hs
    case h_1 session job outcome ht =>
      obtain ⟨state, hpost, rfl⟩ := Option.map_eq_some_iff.mp hs
      exact h.post ht hpost
    case h_2 => cases hs
  | release n =>
    dsimp only at hs
    split at hs
    case h_1 session job ht =>
      cases hs
      exact h.release ht
    case h_2 => cases hs

theorem client_inv {s : Client slots} (h : (clientSys slots).Reachable s) : s.Inv := by
  refine h.rule ?_ fun s a t hI hs => hI.stepped hs
  rintro s₀ rfl
  exact inv_new

/-! ## the slots kept -/

def Client.Kept (s : Client slots) : Prop :=
  ∀ l, s.state = .serving l → l.unanswered.length ≤ slots

theorem Client.post_unanswered {s : Client slots} {session : Nat} {reply : ResultMsg}
    {state : ClientState slots} (hs : s.post session reply = some state) {l' : Link slots}
    (hl' : state = .serving l') : ∃ l, s.state = .serving l ∧ l'.unanswered = l.unanswered := by
  subst hl'
  unfold Client.post at hs
  split at hs
  case h_1 l hl =>
    split at hs
    case isTrue =>
      obtain ⟨out, _, he⟩ := Option.map_eq_some_iff.mp hs
      cases he
      exact ⟨l, hl, rfl⟩
    case isFalse =>
      cases hs
      exact ⟨l', hl, rfl⟩
  case h_2 hno => exact absurd (Option.some.inj hs) (hno l')

theorem Client.Kept.stepped {s t : Client slots} {a : ClientAct} (h : s.Kept)
    (hok : withinSlots s a = true) (hs : clientStep s a = some t) : t.Kept := by
  -- a step waits for no more, but for a job that is pushed
  suffices hkey : ∀ l', t.state = .serving l' → l'.unanswered = [] ∨
      ∃ l, s.state = .serving l ∧ (l'.unanswered.length ≤ l.unanswered.length ∨ ∃ request,
        a = .link (.push (.job request)) ∧ l'.unanswered.length = l.unanswered.length + 1) by
    intro l' hl'
    rcases hkey l' hl' with hnil | ⟨l, hl, hle | ⟨request, rfl, he⟩⟩
    · rw [hnil]
      exact Nat.zero_le _
    · exact le_trans hle (h l hl)
    · have hlt : s.unanswered.length < slots := of_decide_eq_true hok
      unfold Client.unanswered at hlt
      rw [hl] at hlt
      exact le_trans (le_of_eq he) hlt
  unfold clientStep at hs
  intro l' hl'
  cases a with
  | dialed =>
    dsimp only at hs
    split at hs <;> cases hs
    cases hl'
    exact Or.inl rfl
  | dialFailed =>
    dsimp only at hs
    split at hs <;> cases hs
    cases hl'
  | slept =>
    dsimp only at hs
    split at hs <;> cases hs
    cases hl'
  | shutdown =>
    dsimp only at hs
    split at hs
    · cases hs
      cases hl'
    · cases hs
      cases hl'
    · split at hs <;> cases hs
      cases hl'
    · cases hs
  | link a =>
    dsimp only at hs
    split at hs
    case h_1 l hl =>
      obtain ⟨state, hstep, rfl⟩ := Option.map_eq_some_iff.mp hs
      obtain rfl : state = .serving l' := hl'
      obtain ⟨_, hle, _⟩ := Link.step_spec hstep
      refine Or.inr ⟨l, hl, hle.imp_right ?_⟩
      rintro ⟨request, rfl, he⟩
      exact ⟨request, rfl, he⟩
    case h_2 => cases hs
  | acquire =>
    dsimp only at hs
    split at hs
    case h_1 l hl =>
      split at hs
      case h_1 =>
        obtain ⟨_, he⟩ := Option.ite_none_right_eq_some.mp hs
        cases he
        cases hl'
        exact Or.inr ⟨l, hl, Or.inl (le_refl _)⟩
      case h_2 => cases hs
    case h_2 => cases hs
  | engine n outcome =>
    dsimp only at hs
    split at hs <;> cases hs
    exact Or.inr ⟨l', hl', Or.inl (le_refl _)⟩
  | post n =>
    dsimp only at hs
    split at hs
    case h_1 =>
      obtain ⟨state, hpost, rfl⟩ := Option.map_eq_some_iff.mp hs
      obtain ⟨l, hl, he⟩ := Client.post_unanswered hpost hl'
      exact Or.inr ⟨l, hl, Or.inl (le_of_eq (congrArg List.length he))⟩
    case h_2 => cases hs
  | release n =>
    dsimp only at hs
    split at hs <;> cases hs
    exact Or.inr ⟨l', hl', Or.inl (le_refl _)⟩

theorem client_kept {s : Client slots}
    (h : (clientSys slots).ReachableIf (fun s a => withinSlots s a = true) s) : s.Kept := by
  refine h.rule (I := Client.Kept) ?_ fun s a t hK hok hs => hK.stepped hok hs
  rintro s₀ rfl l hl
  cases hl

/-! ## no permit waits for the loop -/

theorem Client.Inv.room {s : Client slots} (h : s.Inv) (hkept : s.Kept) {l : Link slots}
    (hl : s.state = .serving l) : l.out.items.length ≤ slots :=
  calc l.out.items.length ≤ l.carried.length := l.out_le_carried
    _ ≤ l.carried.length + (owed l.id s.tasks).length := Nat.le_add_right _ _
    _ = l.unanswered.length := (h.balanced l hl).length.symm
    _ ≤ slots := hkept l hl

theorem Client.Inv.post_some {s : Client slots} (h : s.Inv) (hkept : s.Kept) (session : Nat)
    (reply : ResultMsg) : ∃ state, s.post session reply = some state ∧ ∀ l, s.state = .serving l →
      ∃ l', state = .serving l' ∧ l'.loop = l.loop := by
  unfold Client.post
  cases hstate : s.state with
  | serving l =>
    dsimp only
    by_cases hid : l.id = session
    · obtain ⟨out, hout⟩ := Option.isSome_iff_exists.mp
        ((Chan.send_isSome (c := l.out) (a := reply)).mpr
          (Nat.lt_succ_of_le (h.room hkept hstate)))
      refine ⟨.serving { l with out }, ?_, fun l' hl' => ?_⟩
      · rw [if_pos hid, hout]
        rfl
      · cases hl'
        exact ⟨_, rfl, rfl⟩
    · refine ⟨.serving l, if_neg hid, fun l' hl' => ?_⟩
      cases hl'
      exact ⟨_, rfl, rfl⟩
  | _ => exact ⟨_, rfl, fun l' hl' => (by cases hl')⟩

/-- the task at `n` gives its permit back by steps of its own, and the loop stays where it is -/
def Client.CanRelease (s : Client slots) (n : Nat) : Prop :=
  ∃ acts t, (∀ a ∈ acts, a = .post n ∨ a = .release n) ∧
    (clientSys slots).exec s acts = some t ∧ t.permits = s.permits + 1 ∧
    ∀ l, s.state = .serving l → ∃ l', t.state = .serving l' ∧ l'.loop = l.loop

theorem release_some {s : Client slots} {n session : Nat} {job : JobRequest}
    (ht : s.tasks[n]? = some ⟨session, job, .posted⟩) : clientStep s (.release n)
      = some { s with tasks := s.tasks.eraseIdx n, permits := s.permits + 1 } := by
  unfold clientStep
  dsimp only
  rw [ht]

theorem post_step {s : Client slots} {n session : Nat} {job : JobRequest} {outcome : JobOutcome}
    (ht : s.tasks[n]? = some ⟨session, job, .posting outcome⟩) {state : ClientState slots}
    (hs : s.post session ⟨job.jobId, outcome⟩ = some state) : clientStep s (.post n)
      = some { s with state, tasks := s.tasks.set n ⟨session, job, .posted⟩ } := by
  unfold clientStep
  dsimp only
  rw [ht]
  dsimp only
  rw [hs]
  rfl

/-- **The holder of a permit** is in the engine, or frees it without the loop. -/
theorem Client.Inv.releases {s : Client slots} (h : s.Inv) (hkept : s.Kept) {n : Nat} {t : Task}
    (ht : s.tasks[n]? = some t) : t.phase = .running ∨ s.CanRelease n := by
  obtain ⟨session, job, phase⟩ := t
  cases phase with
  | running => exact Or.inl rfl
  | posting outcome =>
    right
    obtain ⟨state, hpost, hloop⟩ := h.post_some hkept session ⟨job.jobId, outcome⟩
    have hn := (List.getElem?_eq_some_iff.mp ht).1
    have hset : (s.tasks.set n ⟨session, job, .posted⟩)[n]? = some ⟨session, job, .posted⟩ :=
      List.getElem?_set_self hn
    refine ⟨[.post n, .release n], ⟨state, s.permits + 1,
      (s.tasks.set n ⟨session, job, .posted⟩).eraseIdx n, s.sessions⟩, ?_, ?_, rfl, hloop⟩
    · intro a ha
      rcases List.mem_cons.mp ha with rfl | ha
      · exact Or.inl rfl
      · exact Or.inr (List.mem_singleton.mp ha)
    · show (clientStep s (.post n)).bind (fun u => (clientStep u (.release n)).bind some) = _
      rw [post_step ht hpost]
      dsimp only [Option.bind_some]
      rw [release_some (s := { s with state, tasks := s.tasks.set n ⟨session, job, .posted⟩ }) hset]
      rfl
  | posted =>
    right
    refine ⟨[.release n], { s with tasks := s.tasks.eraseIdx n, permits := s.permits + 1 },
      fun a ha => Or.inr (List.mem_singleton.mp ha), ?_, rfl, fun l hl => ⟨l, hl, rfl⟩⟩
    show (clientStep s (.release n)).bind some = _
    rw [release_some ht]
    rfl

/-- what keeps the client from waiting for itself -/
structure SlotsFree (s : Client slots) : Prop where
  room : ∀ l, s.state = .serving l → l.out.items.length ≤ slots
  posts : ∀ n t outcome, s.tasks[n]? = some t → t.phase = .posting outcome →
    (clientStep s (.post n)).isSome = true
  holders : s.permits + s.tasks.length = slots
  releases : ∀ n t, s.tasks[n]? = some t → t.phase = .running ∨ s.CanRelease n
  parked : ∀ l job, s.state = .serving l → l.loop = .parked job →
    (clientStep s .acquire).isSome = true ∨ (s.permits = 0 ∧ 0 < s.tasks.length)

/-- **The client never waits for itself**, while its orchestrators keep to the slots: a finished
analysis posts its result at once, and whatever holds a permit while the loop is parked is in the
engine or frees it without the loop. -/
theorem never_stuck (hslots : 0 < slots) {s : Client slots}
    (hr : (clientSys slots).ReachableIf (fun s a => withinSlots s a = true) s) :
    SlotsFree s := by
  have h := client_inv hr.reachable
  have hkept := client_kept hr
  refine ⟨fun l hl => h.room hkept hl, ?_, h.permits, fun n t ht => h.releases hkept ht, ?_⟩
  · rintro n ⟨session, job, phase⟩ outcome ht rfl
    obtain ⟨state, hpost, _⟩ := h.post_some hkept session ⟨job.jobId, outcome⟩
    rw [post_step ht hpost]
    rfl
  · intro l job hl hp
    have hperm := h.permits
    by_cases hfree : 0 < s.permits
    · left
      unfold clientStep
      dsimp only
      rw [hl]
      dsimp only
      rw [hp]
      dsimp only
      rw [if_pos hfree]
      rfl
    · exact Or.inr (by omega)

/-- one slot: the first session is lost while job 7 is analysed, and the second one parks for
its permit -/
def reconnect : List ClientAct :=
  [.dialed, .link (.push (.job ⟨7, "(;B[pd])", none⟩)), .link .inbound, .acquire, .link .lost,
   .slept, .dialed, .link (.push .ping), .link (.push (.job ⟨8, "(;B[dd])", none⟩)),
   .link .inbound, .link .inbound, .engine 0 (.ok .null)]

def parkedClient : Client (WorkerClient.slots 1) :=
  ((clientSys (WorkerClient.slots 1)).exec Client.new reconnect).getD Client.new

theorem never_stuck_parked : parkedClient.permits = 0 ∧ parkedClient.tasks.length = 1 ∧
    parkedClient.CanRelease 0 := by
  have hr : (clientSys (WorkerClient.slots 1)).ReachableIf (fun s a => withinSlots s a = true)
      parkedClient := ⟨Client.new, reconnect, rfl, rfl, Sys.Meets.of_check rfl⟩
  have h := never_stuck (WorkerClient.slots_pos 1) hr
  refine ⟨rfl, rfl, (h.releases 0 ⟨0, ⟨7, "(;B[pd])", none⟩, .posting (.ok .null)⟩
    rfl).resolve_left ?_⟩
  exact fun hp => (by cases hp)

end KatagoWs
