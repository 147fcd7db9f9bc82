import KatagoWs.Cluster.WorkerEnd

/-!
# The cluster: sessions, sockets and workers on one store

The orchestrator runs lease loops for any number of worker connections, each loop with the remote
executor of its connection.  A request is encoded on the socket, decoded by the worker, analysed
by its engine in any order with the others, and its `Result` is encoded, decoded and delivered to
whoever waits under its job id.  A connection may be torn down at any time, at either end.

* `Socket`               a connection: the session, and the worker's end of its socket;
* `Socket.Sound`         every request in it was submitted, and every result in it is an answer of
                       an engine to the game submitted under its job id;
* `Mine`               what a loop knows of its oneshot channel, whatever the others do;
* `cluster_sincere`    so the remote executor returns only such answers;
* `cluster_refines`    and the cluster refines the same service as one process does.
-/

set_option linter.unusedSectionVars false

namespace KatagoWs
open Lib

/-! ## one connection -/

structure Socket (ι : Type) where
  session : Session ι
  worker : WorkerEnd

inductive SocketAct (χ : Type) where
  | dispatch (trace : Option String)
  | worker (a : EndAct χ)
  | arrive
  | teardown (a : SessionIo)

section
variable {ι χ : Type}

def Socket.new : Socket ι := ⟨Session.new, WorkerEnd.new⟩

def Session.onFrame (U : UuidText) (s : Session ι) (frame : Json) : Session ι :=
  match ClientMsg.decode U frame with
  | some (.result message) => s.completeJob message.jobId message.outcome
  | some (.hello _ _) => s
  | none => s

def Socket.step (U : UuidText) (engine : EngineRun χ) (c : Socket ι) :
    SocketAct χ → Option (Socket ι)
  | .dispatch trace =>
    match c.session.phase, c.session.out with
    | .running, request :: out =>
      (c.worker.step U engine (.push { request, trace })).map fun worker =>
        { session := { c.session with out }, worker }
    | _, _ => none
  | .worker a =>
    match a with
    | .push _ => none
    | .answered => none
    | a => (c.worker.step U engine a).map fun worker => { c with worker }
  | .arrive =>
    match c.session.phase, c.worker.outbox with
    | .running, frame :: _ =>
      (c.worker.step U engine .answered).map fun worker =>
        { session := c.session.onFrame U frame, worker }
    | _, _ => none
  | .teardown a =>
    match a with
    | .dispatch => none
    | .completeJob _ _ => none
    | a => (c.session.io a).map fun session => { c with session }

end

/-! ## the deployment -/

section
variable {ι κ χ : Type} [DecidableEq ι] [DecidableEq κ]

/-- the calls of loop `i` go to its connection `home i` -/
def Socket.call (home : ι → κ) (slots : κ → Nat) :
    ExecutorStep ι (RemoteCall ι) (κ → Socket ι) Unit RemoteAnswer :=
  fun i c x conns =>
    (RemoteCall.step (slots (home i)) i c x (conns (home i)).session).map fun a =>
      (a.1, Function.update conns (home i) { conns (home i) with session := a.2 })

abbrev ClusterPool (ι κ : Type) := WorkerPool ι (RemoteCall ι) (κ → Socket ι) RemoteAnswer

inductive ClusterAct (ι κ χ : Type) where
  | loops (a : WorkerAct ι Empty Unit)
  | conn (k : κ) (a : SocketAct χ)

/-- an action of the loops, none of which moves an executor by itself -/
def WorkerAct.elim {τ : Type} : WorkerAct ι Empty Unit → WorkerAct ι τ Unit
  | .submit jobId job => .submit jobId job
  | .submitMany jobs => .submitMany jobs
  | .lease i msgId => .lease i msgId
  | .leaseLost msgId => .leaseLost msgId
  | .call i x => .call i x
  | .crash i => .crash i
  | .extendVt msgId => .extendVt msgId
  | .lapse msgId => .lapse msgId
  | .tick now => .tick now
  | .executor t => nomatch t

variable (U : UuidText) (engine : EngineRun χ) (cfg : WorkerConfig) (home : ι → κ)
  (slots : κ → Nat)

def clusterStep (s : ClusterPool ι κ) : ClusterAct ι κ χ → Option (ClusterPool ι κ)
  | .loops a => workerStep RemoteExecutor.analyze cfg (Socket.call home slots) s a.elim
  | .conn k a =>
    ((s.mem.executor k).step U engine a).map fun c =>
      { s with mem := { s.mem with executor := Function.update s.mem.executor k c } }

def clusterSys : Sys (ClusterPool ι κ) (ClusterAct ι κ χ) where
  init s := s.mem.jobs = Jobs.empty ∧ s.mem.queue = Queue.empty ∧ s.mem.submitted = [] ∧
    (∀ i, s.thread i = none) ∧ s.mem.executor = fun _ => Socket.new
  step := clusterStep U engine cfg home slots

end

/-! ## what is on a connection -/

section
variable {ι χ : Type} {l l' : List (Uuid × NewJob)}

def Submitted (l : List (Uuid × NewJob)) (r : JobRequest) : Prop :=
  ∃ job, (r.jobId, job) ∈ l ∧ r.sgf = job.sgf ∧ r.humanProfile = job.humanProfile

def Truthful (engine : EngineRun χ) (l : List (Uuid × NewJob)) (id : Uuid)
    (outcome : JobOutcome) : Prop :=
  ∀ v, outcome = .ok v → ∃ job, (id, job) ∈ l ∧ Answered engine job v

variable {engine : EngineRun χ} {U : UuidText}

theorem Submitted.grow {r : JobRequest} (h : Submitted l r) (hl : l ⊆ l') : Submitted l' r := by
  obtain ⟨job, hjob, e⟩ := h
  exact ⟨job, hl hjob, e⟩

theorem Truthful.grow {id : Uuid} {outcome : JobOutcome} (h : Truthful engine l id outcome)
    (hl : l ⊆ l') : Truthful engine l' id outcome := by
  intro v hv
  obtain ⟨job, hjob, ha⟩ := h v hv
  exact ⟨job, hl hjob, ha⟩

theorem truthful_runJob {r : JobRequest} (h : Submitted l r) (x : χ) :
    Truthful engine l r.jobId (runJob engine r x) := by
  intro v hv
  obtain ⟨job, hjob, hsgf, hprofile⟩ := h
  refine ⟨job, hjob, x, ?_⟩
  rw [← hsgf, ← hprofile]
  unfold runJob at hv
  cases he : engine r.sgf r.humanProfile x with
  | ok value =>
    rw [he] at hv
    cases hv
    rfl
  | error err =>
    rw [he] at hv
    cases hv

structure Session.Sound (l : List (Uuid × NewJob)) (s : Session ι) : Prop where
  out : ∀ r ∈ s.out, Submitted l r
  pending : ∀ e ∈ s.pending, e.2.serial < s.nextTx
  outcomes : ∀ o ∈ s.outcomes, o.1.serial < s.nextTx

variable (engine U) in
/-- what is at the worker's end was submitted, and what it answered is the truth -/
structure WorkerEnd.Sound (l : List (Uuid × NewJob)) (w : WorkerEnd) : Prop where
  inbox : ∀ frame ∈ w.inbox, ∀ f, JobFrame.decode U frame = some f → Submitted l f.request
  tasks : ∀ r ∈ w.tasks, Submitted l r
  outbox : ∀ frame ∈ w.outbox, ∀ m, ClientMsg.decode U frame = some (.result m) →
    Truthful engine l m.jobId m.outcome

variable (engine U) in
/-- **The invariant of a connection.** -/
structure Socket.Sound (l : List (Uuid × NewJob)) (c : Socket ι) : Prop where
  session : c.session.Sound l
  worker : c.worker.Sound engine U l

variable (engine) in
/-- the channel `tx` waits for the job `id`, and has received nothing but the truth -/
structure Mine (l : List (Uuid × NewJob)) (s : Session ι) (id : Uuid) (tx : Tx ι) : Prop where
  pending : ∀ e ∈ s.pending, e.2 = tx → e.1 = id
  outcomes : ∀ o ∈ s.outcomes, o.1 = tx → Truthful engine l id o.2

/-- what the others leave of the channels of loop `i` -/
structure Respects (engine : EngineRun χ) (i : ι) (l : List (Uuid × NewJob)) (s : Session ι)
    (l' : List (Uuid × NewJob)) (s' : Session ι) : Prop where
  serials : s.nextTx ≤ s'.nextTx
  mine : ∀ id (tx : Tx ι), tx.owner = i → tx.serial < s.nextTx → Mine engine l s id tx →
    Mine engine l' s' id tx

theorem Mine.grow {s : Session ι} {id : Uuid} {tx : Tx ι} (h : Mine engine l s id tx)
    (hl : l ⊆ l') : Mine engine l' s id tx :=
  ⟨h.pending, fun o ho e => (h.outcomes o ho e).grow hl⟩

theorem Respects.trans {i : ι} {l₁ l₂ l₃ : List (Uuid × NewJob)} {s₁ s₂ s₃ : Session ι}
    (h : Respects engine i l₁ s₁ l₂ s₂) (k : Respects engine i l₂ s₂ l₃ s₃) :
    Respects engine i l₁ s₁ l₃ s₃ :=
  ⟨h.serials.trans k.serials, fun id tx ho hs hm =>
    k.mine id tx ho (lt_of_lt_of_le hs h.serials) (h.mine id tx ho hs hm)⟩

theorem Respects.refl (i : ι) (l : List (Uuid × NewJob)) (s : Session ι) :
    Respects engine i l s l s := ⟨le_refl _, fun _ _ _ _ h => h⟩

theorem Respects.grow {i : ι} {s : Session ι} (hl : l ⊆ l') : Respects engine i l s l' s :=
  ⟨le_refl _, fun _ _ _ _ h => h.grow hl⟩

theorem Respects.of_subset {i : ι} {s t : Session ι} (hn : s.nextTx ≤ t.nextTx)
    (hp : ∀ e ∈ t.pending, e.2.owner = i → e ∈ s.pending) (ho : t.outcomes = s.outcomes) :
    Respects engine i l s l t := by
  refine ⟨hn, fun id tx hi _ hm => ⟨fun e he htx => ?_, fun o h htx => ?_⟩⟩
  · exact hm.pending e (hp e he (htx ▸ hi)) htx
  · rw [ho] at h
    exact hm.outcomes o h htx

theorem Session.Sound.grow {s : Session ι} (h : s.Sound l) (hl : l ⊆ l') : s.Sound l' :=
  ⟨fun r hr => (h.out r hr).grow hl, h.pending, h.outcomes⟩

theorem WorkerEnd.Sound.grow {w : WorkerEnd} (h : w.Sound engine U l) (hl : l ⊆ l') :
    w.Sound engine U l' :=
  ⟨fun frame hf f hd => (h.inbox frame hf f hd).grow hl, fun r hr => (h.tasks r hr).grow hl,
    fun frame hf m hd => (h.outbox frame hf m hd).grow hl⟩

theorem WorkerEnd.sound_new : WorkerEnd.new.Sound engine U l :=
  ⟨List.forall_mem_nil _, List.forall_mem_nil _, List.forall_mem_nil _⟩

theorem Socket.Sound.grow {c : Socket ι} (h : c.Sound engine U l) (hl : l ⊆ l') :
    c.Sound engine U l' := ⟨h.session.grow hl, h.worker.grow hl⟩

/-! ## the calls of a loop -/

/-- a loop stores its own channels, and sends what was submitted -/
def RemoteCall.Proper (l : List (Uuid × NewJob)) (i : ι) (s : Session ι) : RemoteCall ι → Prop
  | .insert _ tx => tx.owner = i ∧ tx.serial < s.nextTx
  | .send request => Submitted l request
  | _ => True

variable [DecidableEq ι] {slots : Nat}

variable (engine) in
/-- **One call of a loop** keeps the session sound and the channels of the others. -/
theorem RemoteCall.step_sound {i : ι} {c : RemoteCall ι} {s t : Session ι} {r : RemoteAnswer c}
    (hs : s.Sound l) (hc : c.Proper l i s) (h : RemoteCall.step slots i c () s = some (r, t)) :
    t.Sound l ∧ ∀ j, j ≠ i → Respects engine j l s l t := by
  cases c with
  | oneshot =>
    cases h
    refine ⟨⟨hs.out, fun e he => ?_, fun o ho => ?_⟩, fun j _ => ?_⟩
    · exact Nat.lt_succ_of_lt (hs.pending e he)
    · exact Nat.lt_succ_of_lt (hs.outcomes o ho)
    · exact Respects.of_subset (Nat.le_succ _) (fun e he _ => he) rfl
  | insert jobId tx =>
    cases h
    refine ⟨⟨hs.out, fun e he => ?_, hs.outcomes⟩, fun j hj => ?_⟩
    · rcases List.mem_cons.mp he with rfl | he
      · exact hc.2
      · exact hs.pending e (Session.mem_forget he)
    · refine Respects.of_subset (le_refl _) (fun e he ho => ?_) rfl
      rcases List.mem_cons.mp he with rfl | he
      · exact absurd (ho.symm.trans hc.1) hj
      · exact Session.mem_forget he
  | send request =>
    rcases send_cases h with ⟨_, _, rfl⟩ | ⟨_, _, rfl⟩
    · exact ⟨hs, fun j _ => Respects.refl j l _⟩
    · refine ⟨⟨fun r hr => ?_, hs.pending, hs.outcomes⟩, fun j _ => ?_⟩
      · rcases List.mem_append.mp hr with hr | hr
        · exact hs.out r hr
        · rw [List.mem_singleton.mp hr]
          exact hc
      · exact Respects.of_subset (le_refl _) (fun e he _ => he) rfl
  | remove jobId =>
    cases h
    refine ⟨⟨hs.out, fun e he => hs.pending e (Session.mem_forget he), hs.outcomes⟩, fun j _ => ?_⟩
    exact Respects.of_subset (le_refl _) (fun e he _ => Session.mem_forget he) rfl
  | recv tx =>
    rw [(recv_cases h).1]
    exact ⟨hs, fun j _ => Respects.refl j l s⟩

variable (engine) in
theorem Mine.oneshot {i : ι} {s t : Session ι} {tx : Tx ι} (hs : s.Sound l)
    (h : RemoteCall.step slots i .oneshot () s = some (tx, t)) (id : Uuid) :
    tx.serial < t.nextTx ∧ Mine engine l t id tx := by
  cases h
  refine ⟨Nat.lt_succ_self _, ⟨fun e he htx => ?_, fun o ho htx => ?_⟩⟩
  · have hlt := hs.pending e he
    rw [htx] at hlt
    exact absurd hlt (lt_irrefl _)
  · have hlt := hs.outcomes o ho
    rw [htx] at hlt
    exact absurd hlt (lt_irrefl _)

theorem Mine.insert {i : ι} {s t : Session ι} {id : Uuid} {tx : Tx ι} {r : Unit}
    (h : Mine engine l s id tx)
    (hstep : RemoteCall.step slots i (.insert id tx) () s = some (r, t)) :
    t.nextTx = s.nextTx ∧ Mine engine l t id tx := by
  cases hstep
  refine ⟨rfl, ⟨fun e he htx => ?_, h.outcomes⟩⟩
  rcases List.mem_cons.mp he with rfl | he
  · rfl
  · exact h.pending e (Session.mem_forget he) htx

theorem Mine.send {i : ι} {s t : Session ι} {id : Uuid} {tx : Tx ι} {request : JobRequest}
    {sent : Bool} (h : Mine engine l s id tx)
    (hstep : RemoteCall.step slots i (.send request) () s = some (sent, t)) :
    t.nextTx = s.nextTx ∧ Mine engine l t id tx := by
  rcases send_cases hstep with ⟨_, _, rfl⟩ | ⟨_, _, rfl⟩
  · exact ⟨rfl, h⟩
  · exact ⟨rfl, h.pending, h.outcomes⟩

/-! ## the steps of a connection -/

/-- an outcome that is delivered tells its waiter the truth about its own job -/
theorem Session.completeJob_sound {s : Session ι} {jobId : Uuid} {outcome : JobOutcome}
    (hs : s.Sound l) (ht : Truthful engine l jobId outcome) :
    (s.completeJob jobId outcome).Sound l ∧
      ∀ i, Respects engine i l s l (s.completeJob jobId outcome) := by
  unfold Session.completeJob
  split
  case h_2 => exact ⟨hs, fun i => Respects.refl i l s⟩
  case h_1 e he =>
    have hmem := List.mem_of_find?_eq_some he
    have hid : e.1 = jobId := of_decide_eq_true (List.find?_some he :)
    refine ⟨⟨hs.out, fun e he => hs.pending e (Session.mem_forget he), fun o ho => ?_⟩, fun i => ?_⟩
    · rcases List.mem_cons.mp ho with rfl | ho
      · exact hs.pending e hmem
      · exact hs.outcomes o ho
    · refine ⟨le_refl _, fun id tx _ _ hm => ⟨fun e he => hm.pending e (Session.mem_forget he),
        fun o ho htx => ?_⟩⟩
      rcases List.mem_cons.mp ho with rfl | ho
      · rw [← hm.pending e hmem htx, hid]
        exact ht
      · exact hm.outcomes o ho htx

variable (engine) in
theorem Session.io_sound {s t : Session ι} {a : SessionIo} (hs : s.Sound l)
    (hc : ∀ jobId outcome, a ≠ .completeJob jobId outcome) (h : s.io a = some t) :
    t.Sound l ∧ ∀ i, Respects engine i l s l t := by
  cases a with
  | dispatch =>
    obtain ⟨_, hd⟩ := Option.ite_none_right_eq_some.mp h
    unfold Session.dispatch at hd
    split at hd
    · cases hd
    · rename_i r out he
      cases hd
      refine ⟨⟨fun r' hr => ?_, hs.pending, hs.outcomes⟩, fun i => ?_⟩
      · exact hs.out r' (he ▸ List.mem_cons_of_mem r hr)
      · exact Respects.of_subset (le_refl _) (fun e he _ => he) rfl
  | completeJob jobId outcome => exact absurd rfl (hc jobId outcome)
  | leave =>
    obtain ⟨_, hd⟩ := Option.ite_none_right_eq_some.mp h
    cases hd
    exact ⟨⟨hs.out, hs.pending, hs.outcomes⟩,
      fun i => Respects.of_subset (le_refl _) (fun e he _ => he) rfl⟩
  | cancel =>
    obtain ⟨_, hd⟩ := Option.ite_none_right_eq_some.mp h
    cases hd
    exact ⟨⟨hs.out, hs.pending, hs.outcomes⟩,
      fun i => Respects.of_subset (le_refl _) (fun e he _ => he) rfl⟩
  | clear =>
    obtain ⟨_, hd⟩ := Option.ite_none_right_eq_some.mp h
    cases hd
    exact ⟨⟨hs.out, fun e he => (by cases he), hs.outcomes⟩,
      fun i => Respects.of_subset (le_refl _) (fun e he _ => (by cases he)) rfl⟩
  | finish =>
    obtain ⟨_, hd⟩ := Option.ite_none_right_eq_some.mp h
    cases hd
    exact ⟨⟨fun r hr => (by cases hr), hs.pending, hs.outcomes⟩,
      fun i => Respects.of_subset (le_refl _) (fun e he _ => he) rfl⟩

theorem WorkerEnd.step_sound {w v : WorkerEnd} {a : EndAct χ} (hs : w.Sound engine U l)
    (hp : ∀ f, a = .push f → Submitted l f.request) (h : w.step U engine a = some v) :
    v.Sound engine U l := by
  cases a with
  | push f =>
    cases h
    refine ⟨fun frame hf g hd => ?_, hs.tasks, hs.outbox⟩
    rcases List.mem_append.mp hf with hf | hf
    · exact hs.inbox frame hf g hd
    · rw [List.mem_singleton.mp hf, JobFrame.decode_encode] at hd
      cases hd
      exact hp f rfl
  | take =>
    unfold WorkerEnd.step at h
    dsimp only at h
    split at h
    case h_2 => cases h
    case h_1 frame inbox hin =>
      cases h
      refine ⟨fun g hg => hs.inbox g (hin ▸ List.mem_cons_of_mem frame hg), fun r hr => ?_,
        hs.outbox⟩
      rcases List.mem_append.mp hr with hr | hr
      · exact hs.tasks r hr
      · obtain ⟨f, hd, rfl⟩ := Option.map_eq_some_iff.mp (Option.mem_toList.mp hr)
        exact hs.inbox frame (hin ▸ List.mem_cons_self) f hd
  | analysed n x =>
    obtain ⟨job, hj, rfl⟩ := Option.map_eq_some_iff.mp h
    refine ⟨hs.inbox, fun r hr => hs.tasks r (List.mem_of_mem_eraseIdx hr), fun frame hf m hd => ?_⟩
    rcases List.mem_append.mp hf with hf | hf
    · exact hs.outbox frame hf m hd
    · have hread := ClientMsg.decode_encode (U := U)
        (.result { jobId := job.jobId, outcome := runJob engine job x })
      rw [List.mem_singleton.mp hf, resultFrame, hread] at hd
      cases hd
      exact truthful_runJob (hs.tasks job (List.mem_of_getElem? hj)) x
  | answered =>
    unfold WorkerEnd.step at h
    dsimp only at h
    split at h
    case h_2 => cases h
    case h_1 frame outbox hout =>
      cases h
      exact ⟨hs.inbox, hs.tasks, fun g hg => hs.outbox g (hout ▸ List.mem_cons_of_mem frame hg)⟩
  | hangUp =>
    cases h
    exact WorkerEnd.sound_new

/-- **One step of a connection** keeps it sound, and the channels of every loop. -/
theorem Socket.step_sound {c d : Socket ι} {a : SocketAct χ} (hs : c.Sound engine U l)
    (h : c.step U engine a = some d) :
    d.Sound engine U l ∧ ∀ i, Respects engine i l c.session l d.session := by
  unfold Socket.step at h
  cases a with
  | dispatch trace =>
    dsimp only at h
    split at h
    case h_2 => cases h
    case h_1 request out hph hout =>
      obtain ⟨worker, hw, rfl⟩ := Option.map_eq_some_iff.mp h
      refine ⟨⟨⟨fun r hr => ?_, hs.session.pending, hs.session.outcomes⟩, ?_⟩,
        fun i => Respects.of_subset (le_refl _) (fun e he _ => he) rfl⟩
      · exact hs.session.out r (hout ▸ List.mem_cons_of_mem request hr)
      · refine WorkerEnd.step_sound hs.worker (fun f hf => ?_) hw
        cases hf
        exact hs.session.out request (hout ▸ List.mem_cons_self)
  | worker a =>
    dsimp only at h
    split at h
    case h_1 => cases h
    case h_2 => cases h
    case h_3 hpush _ =>
      obtain ⟨worker, hw, rfl⟩ := Option.map_eq_some_iff.mp h
      exact ⟨⟨hs.session, WorkerEnd.step_sound hs.worker (fun f hf => absurd hf (hpush f)) hw⟩,
        fun i => Respects.refl i l _⟩
  | arrive =>
    dsimp only at h
    split at h
    case h_2 => cases h
    case h_1 frame outbox hph hout =>
      obtain ⟨worker, hw, rfl⟩ := Option.map_eq_some_iff.mp h
      have hworker : worker.Sound engine U l :=
        WorkerEnd.step_sound hs.worker (fun f hf => by cases hf) hw
      have hkey : (c.session.onFrame U frame).Sound l ∧
          ∀ i, Respects engine i l c.session l (c.session.onFrame U frame) := by
        unfold Session.onFrame
        split
        case h_1 message hd =>
          exact Session.completeJob_sound hs.session
            (hs.worker.outbox frame (hout ▸ List.mem_cons_self) message hd)
        case h_2 => exact ⟨hs.session, fun i => Respects.refl i l _⟩
        case h_3 => exact ⟨hs.session, fun i => Respects.refl i l _⟩
      exact ⟨⟨hkey.1, hworker⟩, hkey.2⟩
  | teardown a =>
    dsimp only at h
    split at h
    case h_1 => cases h
    case h_2 => cases h
    case h_3 _ hne =>
      obtain ⟨session, hstep, rfl⟩ := Option.map_eq_some_iff.mp h
      obtain ⟨hsound, hresp⟩ := Session.io_sound engine hs.session
        (fun jobId outcome => hne jobId outcome) hstep
      exact ⟨⟨hsound, hs.worker⟩, hresp⟩

end

/-! ## the remote executor is sincere -/

section
variable {ι κ χ : Type} [DecidableEq ι] [DecidableEq κ]

/-- the connections are sound, and a loop relies on the channels of its own connection -/
def clusterGround (engine : EngineRun χ) (U : UuidText) (home : ι → κ) :
    Ground ι (κ → Socket ι) where
  inv l conns := ∀ k, (conns k).Sound engine U l
  rely i l conns l' conns' :=
    Respects engine i l (conns (home i)).session l' (conns' (home i)).session
  grow hl h := ⟨fun k => (h k).grow hl, fun _ => Respects.grow hl⟩
  trans h k := h.trans k
  refl i l conns := Respects.refl i l (conns (home i)).session

variable {engine : EngineRun χ} {U : UuidText} {home : ι → κ} {slots : κ → Nat}

/-- one connection moves, and keeps the channels of the loops it keeps -/
theorem clusterGround_update {l : List (Uuid × NewJob)} {conns : κ → Socket ι} {k : κ}
    {d : Socket ι}
    (hI : (clusterGround engine U home).inv l conns) (hd : d.Sound engine U l) :
    (clusterGround engine U home).inv l (Function.update conns k d) ∧
      ∀ i, (home i = k → Respects engine i l (conns k).session l d.session) →
        (clusterGround engine U home).rely i l conns l (Function.update conns k d) := by
  refine ⟨fun k' => ?_, fun i hi => ?_⟩
  · by_cases hk : k' = k
    · subst hk
      rw [Function.update_self]
      exact hd
    · rw [Function.update_of_ne hk]
      exact hI k'
  · show Respects engine i l (conns (home i)).session l (Function.update conns k d (home i)).session
    by_cases hk : home i = k
    · subst hk
      rw [Function.update_self]
      exact hi rfl
    · rw [Function.update_of_ne hk]
      exact Respects.refl i l _

abbrev clusterRules (engine : EngineRun χ) (U : UuidText) (home : ι → κ) (slots : κ → Nat) :
    Discipline ι (Store (κ → Socket ι)) (Call (RemoteCall ι)) (CallOutcome Unit)
      (Answer RemoteAnswer) :=
  sincerity (Answered engine) (Socket.call home slots) (clusterGround engine U home)

abbrev sessionOf (home : ι → κ) (i : ι) (s : Store (κ → Socket ι)) : Session ι :=
  (s.executor (home i)).session

/-- a call of the remote executor, and the rest of its program: `P` is what the loop knows -/
theorem cluster_call {α : Type} {i : ι} {post : α → Store (κ → Socket ι) → Prop} {c : RemoteCall ι}
    {k : RemoteAnswer c → Prog (Call (RemoteCall ι)) (Answer RemoteAnswer) α}
    (P : Store (κ → Socket ι) → Prop) {s : Store (κ → Socket ι)} (hs : P s)
    (hP : ∀ s t, (clusterRules engine U home slots).rely i s t → P s → P t)
    (hc : ∀ s, P s → c.Proper s.submitted i (sessionOf home i s))
    (hk : ∀ s r t, (clusterRules engine U home slots).inv s → P s → t.submitted = s.submitted →
      RemoteCall.step (slots (home i)) i c () (sessionOf home i s)
        = some (r, sessionOf home i t) → Safe (clusterRules engine U home slots) i post (k r) t) :
    Safe (clusterRules engine U home slots) i post (.call (.exec c) k) s := by
  intro s' hr hI
  have hs' := hP s s' hr hs
  refine ⟨True.intro, fun x r t he => ?_⟩
  cases x with
  | exec y =>
    obtain ⟨⟨r', conns⟩, h1, h2⟩ := Option.map_eq_some_iff.mp he
    obtain ⟨⟨r'', session⟩, h3, h4⟩ := Option.map_eq_some_iff.mp h1
    cases h2
    cases h4
    obtain ⟨hsound, hothers⟩ := RemoteCall.step_sound engine
      (hI.2 (home i)).session (hc s' hs') h3
    have hconn : Socket.Sound engine U s'.submitted
        { s'.executor (home i) with session } :=
      ⟨hsound, (hI.2 (home i)).worker⟩
    obtain ⟨hinv, hrely⟩ := clusterGround_update (k := home i) hI.2 hconn
    refine ⟨⟨hI.1, hinv⟩, fun j hj => ⟨List.Subset.refl _, hrely j fun _ => hothers j hj⟩, ?_⟩
    refine hk s' _ _ hI hs' rfl ?_
    have hses : (Function.update s'.executor (home i)
        { s'.executor (home i) with session } (home i)).session = session := by
      rw [Function.update_self]
    show _ = some (_, (Function.update s'.executor (home i) _ (home i)).session)
    rw [hses]
    exact h3
  | ok => cases he
  | err msg => cases he
  | lost msg => cases he

/-- what a loop knows of the channel it made: it is its own, and tells the truth about its job -/
structure Waits (engine : EngineRun χ) (home : ι → κ) (i : ι) (id : Uuid) (job : NewJob)
    (tx : Tx ι) (s : Store (κ → Socket ι)) : Prop where
  job : (id, job) ∈ s.submitted
  owner : tx.owner = i
  serial : tx.serial < (sessionOf home i s).nextTx
  mine : Mine engine s.submitted (sessionOf home i s) id tx

theorem Waits.stable {i : ι} {id : Uuid} {job : NewJob} {tx : Tx ι} {s t : Store (κ → Socket ι)}
    (hr : (clusterRules engine U home slots).rely i s t) (h : Waits engine home i id job tx s) :
    Waits engine home i id job tx t :=
  ⟨hr.1 h.job, h.owner, lt_of_lt_of_le h.serial hr.2.serials,
    hr.2.mine id tx h.owner h.serial h.mine⟩

/-- **The remote executor is sincere**: whatever the other loops, the sessions and the workers do,
a result it returns answers the game that was submitted under the job it was called with. -/
theorem cluster_sincere : Sincere (Answered engine) (Socket.call home slots)
    (clusterGround engine U home) RemoteExecutor.analyze := by
  intro i id job s hjob hI
  have hret : ∀ (r : AppResult Json) t, (∀ v, r = .ok v → ∃ job, (id, job) ∈ t.submitted ∧
      Answered engine job v) → Safe (clusterRules engine U home slots) i
      (fun r t => ∀ v, r = .ok v → ∃ job, (id, job) ∈ t.submitted ∧ Answered engine job v)
      (Prog.ret r : Prog (Call (RemoteCall ι)) (Answer RemoteAnswer) _) t := by
    intro r t hr t' hrely _ v hv
    obtain ⟨job', hjob', ha⟩ := hr v hv
    exact ⟨job', hrely.1 hjob', ha⟩
  have herr : ∀ (e : AppError) t, Safe (clusterRules engine U home slots) i
      (fun r t => ∀ v, r = .ok v → ∃ job, (id, job) ∈ t.submitted ∧ Answered engine job v)
      (Prog.ret (.error e) : Prog (Call (RemoteCall ι)) (Answer RemoteAnswer) (AppResult Json)) t :=
    fun e t => hret (.error e) t fun v hv => by cases hv
  refine cluster_call (c := .oneshot) (fun s => (id, job) ∈ s.submitted) hjob
    (fun s t hr h => hr.1 h) (fun _ _ => True.intro) ?_
  intro s1 tx t1 hI1 hjob1 hsub1 h1
  -- a new channel is in nobody's hands
  have hw1 : Waits engine home i id job tx t1 := by
    obtain ⟨hserial, hmine⟩ := Mine.oneshot engine (hI1.2 (home i)).session h1 id
    exact ⟨hsub1 ▸ hjob1, oneshot_spec h1, hserial, hsub1 ▸ hmine⟩
  refine cluster_call (c := .insert id tx) (Waits engine home i id job tx) hw1
    (fun s t hr h => h.stable hr) (fun s h => ⟨h.owner, h.serial⟩) ?_
  intro s2 _ t2 _ hw2 hsub2 h2
  have hw2' : Waits engine home i id job tx t2 := by
    obtain ⟨hnext, hmine⟩ := hw2.mine.insert h2
    exact ⟨hsub2 ▸ hw2.job, hw2.owner, hnext ▸ hw2.serial, hsub2 ▸ hmine⟩
  refine cluster_call (c := .send ⟨id, job.sgf, job.humanProfile⟩) (Waits engine home i id job tx)
    hw2' (fun s t hr h => h.stable hr) (fun s h => ⟨job, h.job, rfl, rfl⟩) ?_
  intro s3 sent t3 _ hw3 hsub3 h3
  have hw3' : Waits engine home i id job tx t3 := by
    obtain ⟨hnext, hmine⟩ := hw3.mine.send h3
    exact ⟨hsub3 ▸ hw3.job, hw3.owner, hnext ▸ hw3.serial, hsub3 ▸ hmine⟩
  cases sent with
  | true =>
    refine cluster_call (c := .recv tx) (Waits engine home i id job tx) hw3'
      (fun s t hr h => h.stable hr) (fun _ _ => True.intro) ?_
    intro s4 outcome t4 _ hw4 hsub4 h4
    match outcome with
    | some (.ok value) =>
      rcases (recv_cases h4).2 with ⟨o, ho, htx, heq⟩ | ⟨hnone, _⟩
      · refine hret (.ok value) t4 fun v hv => ?_
        rw [hsub4]
        exact hw4.mine.outcomes o ho htx v
          ((Option.some.inj heq).symm.trans (congrArg Except.ok (Except.ok.inj hv)))
      · cases hnone
    | some (.error message) => exact herr _ t4
    | none => exact herr _ t4
  | false =>
    refine cluster_call (c := .remove id) (fun _ => True) trivial (fun _ _ _ h => h)
      (fun _ _ => True.intro) ?_
    exact fun _ _ t4 _ _ _ _ => herr _ t4

/-! ## every run -/

variable {cfg : WorkerConfig} {s t : ClusterPool ι κ}

theorem clusterSys_refines :
    (clusterSys U engine cfg home slots).Refines (serviceSys (Answered engine)) (fun _ _ => True)
      (Served (Answered engine) (Socket.call home slots) (clusterGround engine U home)) := by
  refine ⟨fun s h => ?_, fun s a t v hR _ hs => ?_⟩
  · obtain ⟨hj, hq, hsub, hthread, hconns⟩ := h
    refine ⟨_, rfl, Served.empty hj hq hsub hthread ?_⟩
    rw [hconns]
    exact fun k => ⟨⟨List.forall_mem_nil _, List.forall_mem_nil _, List.forall_mem_nil _⟩,
      WorkerEnd.sound_new⟩
  · cases a with
    | loops a =>
      have hstep : workerStep RemoteExecutor.analyze cfg (Socket.call home slots) s a.elim
          = some t := hs
      refine hR.stepped cluster_sincere ?_ hstep
      cases a with
      | executor x => exact nomatch x
      | _ => exact True.intro
    | conn k a =>
      obtain ⟨d, hd, rfl⟩ := Option.map_eq_some_iff.mp hs
      have hI := hR.honest.1.2
      obtain ⟨hsound, hresp⟩ := Socket.step_sound (hI k) hd
      obtain ⟨hinv, hrely⟩ := clusterGround_update hI hsound
      have hstep : workerStep RemoteExecutor.analyze cfg (Socket.call home slots) s
          (.executor (Function.update s.mem.executor k d)) = some _ := rfl
      refine hR.stepped cluster_sincere ?_ hstep
      exact ⟨hinv, fun i => hrely i fun _ => hresp i⟩

theorem cluster_served (h : (clusterSys U engine cfg home slots).Reachable s) :
    Served (Answered engine) (Socket.call home slots) (clusterGround engine U home) s
      s.mem.entry ∧ (serviceSys (Answered engine)).Reachable s.mem.entry := by
  obtain ⟨v, hv, hR⟩ := clusterSys_refines.reachable h.always
  obtain rfl := hR.shown
  exact ⟨hR, hv⟩

/-- **The cluster is the same service**: whatever the loops, the sessions, the sockets and the
workers do, the table shows a run of the service, and no result is anything but an answer of an
engine to the game submitted under its own id. -/
theorem cluster_refines (h : (clusterSys U engine cfg home slots).Reachable s) :
    (serviceSys (Answered engine)).Reachable s.mem.entry ∧ s.mem.Told (Answered engine) ∧
      ∀ as t, (clusterSys U engine cfg home slots).exec s as = some t →
        ∃ ops, (serviceSys (Answered engine)).exec s.mem.entry ops = some t.mem.entry := by
  obtain ⟨hserved, hv⟩ := cluster_served h
  refine ⟨hv, hserved.told hv, fun as t ht => ?_⟩
  obtain ⟨ops, w, hops, hR⟩ := clusterSys_refines.exec hserved (Sys.Meets.trivial s as) ht
  obtain rfl := hR.shown
  exact ⟨ops, hops⟩

end

/-! ## a worker lost on the way -/

def emptyCluster : ClusterPool ℕ ℕ :=
  ⟨⟨Jobs.empty, Queue.empty, 0, [], fun _ => Socket.new⟩, fun _ => none⟩

def request (i : ℕ) : List (ClusterAct ℕ ℕ (AppResult Json)) :=
  [.loops (.lease i 1), .loops (.call i .ok), .loops (.call i .ok), .loops (.call i (.exec ())),
   .loops (.call i (.exec ())), .loops (.call i (.exec ())), .conn i (.dispatch none),
   .conn i (.worker .take)]

/-- connection 0 is torn down while its worker analyses job 0, which connection 1 then answers -/
def lostWorker : List (ClusterAct ℕ ℕ (AppResult Json)) :=
  [.loops (.submit 0 ⟨"(;B[pd])", none⟩)] ++ request 0
    ++ [.conn 0 (.teardown .leave), .conn 0 (.teardown .cancel), .conn 0 (.teardown .clear),
        .loops (.call 0 (.exec ())), .loops (.call 0 .ok), .loops (.call 0 .ok),
        .loops (.lapse 1)]
    ++ request 1
    ++ [.conn 1 (.worker (.analysed 0 (.ok .null))), .conn 1 .arrive, .loops (.call 1 (.exec ())),
        .loops (.call 1 .ok), .loops (.call 1 .ok)]

abbrev anyCluster : Sys (ClusterPool ℕ ℕ) (ClusterAct ℕ ℕ (AppResult Json)) :=
  clusterSys nilText anyEngine ⟨3⟩ (fun i => i) fun _ => 1

def afterLostWorker : ClusterPool ℕ ℕ := (anyCluster.exec emptyCluster lostWorker).getD emptyCluster

theorem cluster_refines_lost :
    ∃ e, afterLostWorker.mem.entry 0 = some e ∧ e.fate = .done .null ∧
      Answered anyEngine e.job .null := by
  have hr : anyCluster.Reachable afterLostWorker :=
    ⟨emptyCluster, lostWorker, ⟨rfl, rfl, rfl, fun _ => rfl, rfl⟩, rfl⟩
  have htold := (cluster_refines hr).2.1
  exact ⟨_, rfl, rfl, htold.done 0 ⟨⟨"(;B[pd])", none⟩, .done .null⟩ .null rfl rfl⟩

end KatagoWs
