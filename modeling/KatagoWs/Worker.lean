import KatagoWs.Lib.Prog
import KatagoWs.Store.Jobs
import KatagoWs.Store.Queue

/-!
# Worker loops: leasing, handling and redelivering jobs

`handle` is the source's function as a program of calls (`Call`): the guarded writes of
`Store.Jobs`, the archive of `Store.Queue`, the heartbeat, and whatever calls the executor makes
(`.exec e`), so that the local and the remote executor share it.  A call of the store succeeds,
fails without effect, or takes effect although the caller sees an error (`CallOutcome`).

`workerSys` runs any number of loops `ι` on one store: leases, calls of the loops in any order,
crashes between any two calls, lapses, heartbeats, submissions.

* `handle_safe`        one delivery, among any others, never archives an unfinished job;
* `no_job_lost`        every unfinished job has its message in the active queue;
* `worker_jobs`        the table of a worker run is the table of a run of writes, so
                       `lifecycle_monotone` holds of it.
-/

set_option linter.unusedSectionVars false

namespace KatagoWs
open Lib

structure WorkerConfig where
  maxAttempts : Int
deriving DecidableEq, Repr

/-! ## the program of one delivery -/

inductive StoreCall where
  | setFailed (jobId : Uuid) (error : String)
  | setRunning (jobId : Uuid)
  | setDone (jobId : Uuid) (result : Json)
  | recordAttemptFailure (jobId : Uuid) (error : String)
  | archive (msgId : Nat)

inductive Call (E : Type) where
  | store (c : StoreCall)
  | startHeartbeat (msgId : Nat)
  | dropHeartbeat (msgId : Nat)
  | exec (e : E)

def Answer {E : Type} (A : E → Type) : Call E → Type
  | .store _ => AppResult Unit
  | .startHeartbeat _ => Unit
  | .dropHeartbeat _ => Unit
  | .exec e => A e

section
variable {E : Type} {A : E → Type}

abbrev HandleM (E : Type) (A : E → Type) := ExceptT AppError (Prog (Call E) (Answer A))

/-- a fallible call of the store, under `?` -/
def tryStore (c : StoreCall) : HandleM E A Unit := ExceptT.mk (Prog.perform (Call.store c))

def startHeartbeat (msgId : Nat) : HandleM E A Unit :=
  ExceptT.lift (Prog.perform (Call.startHeartbeat msgId))

def dropHeartbeat (msgId : Nat) : HandleM E A Unit :=
  ExceptT.lift (Prog.perform (Call.dropHeartbeat msgId))

/-- an `Executor`: the program of `analyze(job_id, sgf, human_profile)` -/
abbrev Executor (E : Type) (A : E → Type) :=
  Uuid → String → Option String → Prog E A (AppResult Json)

def analysis (analyze : Executor E A) (msg : JobMessage) :
    Prog (Call E) (Answer A) (AppResult Json) :=
  (analyze msg.jobId msg.sgf msg.humanProfile).embed .exec fun _ a => a

/-- Process one delivered message. -/
def handle (analyze : Executor E A) (cfg : WorkerConfig) (msg : Message) : HandleM E A Unit := do
  let jobId := msg.message.jobId
  let msgId := msg.msgId
  -- poison message: redelivered too many times, give up and remove it
  if (msg.readCt : Int) > cfg.maxAttempts then
    tryStore (.setFailed jobId "max delivery attempts exceeded")
    tryStore (.archive msgId)
  else
    tryStore (.setRunning jobId)
    startHeartbeat msgId
    let result ← ExceptT.lift (analysis analyze msg.message)
    dropHeartbeat msgId
    match result with
    | .ok value =>
      tryStore (.setDone jobId value)
      tryStore (.archive msgId)
    | .error err => tryStore (.recordAttemptFailure jobId err.toString)

end

/-! ## the shared store -/

/-- table, queue, clock and executor state; `submitted` records every submission -/
structure Store (τ : Type) where
  jobs : Jobs
  queue : Queue
  clock : Timestamp
  submitted : List (Uuid × NewJob)
  executor : τ

section
variable {ι E τ χ : Type} {A : E → Type}

/-- one job of a submit transaction: the row, and its message -/
def submitOne (s : Store τ) (p : Uuid × NewJob) : Option (Store τ) :=
  (s.jobs.insert s.clock p.1).map fun jobs =>
    { s with
      jobs
      queue := s.queue.send (p.2.intoMessage p.1)
      submitted := p :: s.submitted }

def submit (s : Store τ) (jobId : Uuid) (job : NewJob) : Option (Store τ) :=
  submitOne s (jobId, job)

/-- `submit_many`, with the ids the database mints: all jobs, or none -/
def submitMany (s : Store τ) (jobs : List (Uuid × NewJob)) : Option (Store τ) :=
  if jobs.isEmpty then some s else jobs.foldlM submitOne s

def StoreCall.apply (s : Store τ) : StoreCall → Option (Store τ)
  | .setFailed jobId error =>
    (s.jobs.setFailed s.clock jobId error).map fun jobs => { s with jobs }
  | .setRunning jobId => (s.jobs.setRunning s.clock jobId).map fun jobs => { s with jobs }
  | .setDone jobId result =>
    (s.jobs.setDone s.clock jobId result).map fun jobs => { s with jobs }
  | .recordAttemptFailure jobId error =>
    (s.jobs.recordAttemptFailure s.clock jobId error).map fun jobs => { s with jobs }
  | .archive msgId => some { s with queue := s.queue.archive msgId }

/-- `db_err` and `q_err` -/
def StoreCall.failure (msg : String) : StoreCall → AppError
  | .archive _ => .queue msg
  | _ => .db msg

/-- how a call goes: `lost` took effect, but its caller sees an error -/
inductive CallOutcome (χ : Type) where
  | ok
  | err (msg : String)
  | lost (msg : String)
  | exec (x : χ)

def StoreCall.exec (c : StoreCall) (x : CallOutcome χ) (s : Store τ) :
    Option (AppResult Unit × Store τ) :=
  match x, c.apply s with
  | .ok, some t => some (.ok (), t)
  | .ok, none => some (.error (c.failure "rejected"), s)
  | .err msg, _ => some (.error (c.failure msg), s)
  | .lost msg, t => some (.error (c.failure msg), t.getD s)
  | .exec _, _ => none

/-- the executor's own calls on its own state -/
abbrev ExecutorStep (ι E τ χ : Type) (A : E → Type) :=
  ι → (e : E) → χ → τ → Option (A e × τ)

def Call.step (step : ExecutorStep ι E τ χ A) (i : ι) (c : Call E) (x : CallOutcome χ)
    (s : Store τ) : Option (Answer A c × Store τ) :=
  match c, x with
  | .store c, x => c.exec x s
  | .startHeartbeat _, .ok => some ((), s)
  | .dropHeartbeat _, .ok => some ((), s)
  | .exec e, .exec y => (step i e y s.executor).map fun a => (a.1, { s with executor := a.2 })
  | _, _ => none

/-! ## worker loops on one store -/

inductive WorkerAct (ι τ χ : Type) where
  | submit (jobId : Uuid) (job : NewJob)
  | submitMany (jobs : List (Uuid × NewJob))
  | lease (i : ι) (msgId : Nat)
  | leaseLost (msgId : Nat)
  | call (i : ι) (x : CallOutcome χ)
  | crash (i : ι)
  | extendVt (msgId : Nat)
  | lapse (msgId : Nat)
  | tick (now : Timestamp)
  | executor (t : τ)

abbrev WorkerPool (ι E τ : Type) (A : E → Type) :=
  Pool ι (Store τ) (Call E) (Answer A) (Except AppError Unit)

/-- between two deliveries: no thread, or one that has returned -/
def idle {C : Type} {R : C → Type} {α : Type} : Option (Prog C R α) → Bool
  | none => true
  | some (.ret _) => true
  | some (.call _ _) => false

variable [DecidableEq ι]

def workerStep (analyze : Executor E A) (cfg : WorkerConfig) (step : ExecutorStep ι E τ χ A)
    (s : WorkerPool ι E τ A) : WorkerAct ι τ χ → Option (WorkerPool ι E τ A)
  | .submit jobId job => (submit s.mem jobId job).map fun m => { s with mem := m }
  | .submitMany jobs => (submitMany s.mem jobs).map fun m => { s with mem := m }
  | .lease i msgId =>
    if idle (s.thread i) then
      (s.mem.queue.read msgId).map fun (msg, queue) =>
        { mem := { s.mem with queue }
          thread := Function.update s.thread i (some (handle analyze cfg msg).run) }
    else none
  -- `read_one` failed after the lease was taken: the message waits for its timeout
  | .leaseLost msgId =>
    (s.mem.queue.read msgId).map fun (_, queue) => { s with mem := { s.mem with queue } }
  | .call i x => s.run (Call.step step) i x
  | .crash i => some { s with thread := Function.update s.thread i none }
  | .extendVt msgId =>
    some { s with mem := { s.mem with queue := s.mem.queue.setVisible msgId false } }
  | .lapse msgId =>
    some { s with mem := { s.mem with queue := s.mem.queue.setVisible msgId true } }
  | .tick now => some { s with mem := { s.mem with clock := now } }
  | .executor t => some { s with mem := { s.mem with executor := t } }

def workerSys (analyze : Executor E A) (cfg : WorkerConfig) (step : ExecutorStep ι E τ χ A) :
    Sys (WorkerPool ι E τ A) (WorkerAct ι τ χ) where
  init s := s.mem.jobs = Jobs.empty ∧ s.mem.queue = Queue.empty ∧ s.mem.submitted = [] ∧
    ∀ i, s.thread i = none
  step := workerStep analyze cfg step

/-! ## what the store keeps -/

/-- the writes of one store call on the table, as a list of table operations -/
theorem StoreCall.apply_spec {c : StoreCall} {s t : Store τ} (h : c.apply s = some t)
    (hch : s.jobs.Checked) :
    s.jobs.Evolves t.jobs ∧ t.jobs.Checked ∧ t.jobs.ids = s.jobs.ids ∧
      t.submitted = s.submitted ∧ s.queue.Follows t.queue ∧
      ∀ id, t.jobs.Unfinished id → s.jobs.Unfinished id := by
  have key : ∀ {jobId : Uuid} {l : JobSet}, l.Lawful →
      (s.jobs.update s.clock (guarded jobId) l).map (fun jobs => { s with jobs }) = some t →
      s.jobs.Evolves t.jobs ∧ t.jobs.Checked ∧ t.jobs.ids = s.jobs.ids ∧
        t.submitted = s.submitted ∧ s.queue.Follows t.queue ∧
        ∀ id, t.jobs.Unfinished id → s.jobs.Unfinished id := by
    intro jobId l hl hu
    obtain ⟨u, e, hev, hcu, hids, hrows⟩ := Jobs.update_spec s.clock jobId hl hch
    rw [e] at hu
    cases hu
    refine ⟨hev, hcu, hids, rfl, Queue.Follows.refl _, ?_⟩
    rintro id ⟨j', hj', rfl, hn⟩
    rcases hrows j' hj' with ⟨h1, _⟩ | ⟨j, hj, _, hjn, m, rfl⟩
    · exact ⟨j', h1, rfl, hn⟩
    · exact ⟨j, hj, rfl, hjn⟩
  cases c with
  | setFailed jobId error => exact key (lawful_failed error) h
  | setRunning jobId => exact key lawful_running h
  | setDone jobId result => exact key (lawful_done result) h
  | recordAttemptFailure jobId error => exact key (lawful_attempt error) h
  | archive msgId =>
    cases h
    exact ⟨Jobs.Evolves.refl _, hch, rfl, rfl, Queue.archive_follows _ _, fun _ hu => hu⟩

theorem StoreCall.apply_executor {c : StoreCall} {s t : Store τ} (h : c.apply s = some t) :
    t.executor = s.executor := by
  cases c with
  | archive msgId => cases h; rfl
  | _ =>
    obtain ⟨_, _, rfl⟩ := Option.map_eq_some_iff.mp h
    rfl

/-- a call that answers `Ok` took effect; one that took none answers an error -/
theorem StoreCall.exec_cases {c : StoreCall} {x : CallOutcome χ} {s t : Store τ}
    {r : AppResult Unit} (h : c.exec x s = some (r, t)) :
    c.apply s = some t ∨ (t = s ∧ ∃ e, r = .error e) := by
  unfold StoreCall.exec at h
  cases x with
  | ok =>
    cases ha : c.apply s with
    | some u => rw [ha] at h; cases h; exact Or.inl rfl
    | none => rw [ha] at h; cases h; exact Or.inr ⟨rfl, _, rfl⟩
  | err msg => cases h; exact Or.inr ⟨rfl, _, rfl⟩
  | lost msg =>
    cases ha : c.apply s with
    | some u => rw [ha] at h; cases h; exact Or.inl rfl
    | none => rw [ha] at h; cases h; exact Or.inr ⟨rfl, _, rfl⟩
  | exec y => cases h

theorem Jobs.update_settles {t t' : Jobs} {now : Timestamp} {jobId : Uuid} {c : JobSet}
    (h : t.update now (guarded jobId) c = some t') (hid : jobId ∈ t.ids)
    (hc : ∀ j : Job, (c.assign j).status ∉ nonTerminal) : t'.Settled jobId := by
  unfold Jobs.update at h
  split at h
  case isFalse => exact absurd h (by simp)
  case isTrue =>
    cases h
    refine ⟨?_, ?_⟩
    · show jobId ∈ (updateRows now (guarded jobId) c t.rows t.seq).1.map Job.id
      rw [updateRows_ids]
      exact hid
    · rintro ⟨j', hj', hji, hn⟩
      rcases mem_updateRows hj' with ⟨_, hg⟩ | ⟨j, _, _, m, _, _, rfl⟩
      · have hg' : guarded jobId j' = true := by
          rw [guarded, Bool.and_eq_true, beq_iff_eq, List.contains_iff_mem]
          exact ⟨hji, hn⟩
        rw [hg] at hg'
        exact absurd hg' (by simp)
      · exact hc j hn

/-- **The invariant of rows and queue**: every unfinished job has a message that carries what
was submitted, and a message belongs to a row. -/
structure Store.Inv (s : Store τ) : Prop where
  checked : s.jobs.Checked
  ids : s.submitted.map Prod.fst = s.jobs.ids.reverse
  known : ∀ m ∈ s.queue.active, m.message.jobId ∈ s.jobs.ids
  covered : ∀ id, s.jobs.Unfinished id → ∃ m ∈ s.queue.active, ∃ job,
    (id, job) ∈ s.submitted ∧ m.message = job.intoMessage id

/-- what any step may do to the store -/
structure Store.Follows (s t : Store τ) : Prop where
  jobs : s.jobs.Evolves t.jobs
  queue : s.queue.Follows t.queue

theorem Store.Follows.refl (s : Store τ) : s.Follows s :=
  ⟨Jobs.Evolves.refl _, Queue.Follows.refl _⟩

theorem Store.Follows.trans {s t u : Store τ} (h : s.Follows t) (k : t.Follows u) :
    s.Follows u := ⟨h.jobs.trans k.jobs, h.queue.trans k.queue⟩

/-- what a delivery knows of its message: while it is in the queue, it is the one delivered -/
structure Delivered (msg : Message) (s : Store τ) : Prop where
  issued : msg.msgId < s.queue.nextMsgId
  row : msg.message.jobId ∈ s.jobs.ids
  body : ∀ w ∈ s.queue.active, w.msgId = msg.msgId → w.message = msg.message

theorem Delivered.stable {msg : Message} {s t : Store τ} (h : Delivered msg s)
    (hf : s.Follows t) : Delivered msg t := by
  refine ⟨lt_of_lt_of_le h.issued hf.queue.next, hf.jobs.ids h.row, fun w' hw' e => ?_⟩
  obtain ⟨w, hw, e1, e2⟩ := hf.queue.old w' hw' (e ▸ h.issued)
  exact e2.symm.trans (h.body w hw (e1.trans e))

theorem Store.Inv.write {c : StoreCall} {s t : Store τ} (hI : s.Inv) (h : c.apply s = some t)
    (hq : t.queue = s.queue) : t.Inv ∧ s.Follows t := by
  obtain ⟨hev, hch, hids, hsub, hfol, hun⟩ := StoreCall.apply_spec h hI.checked
  refine ⟨⟨hch, ?_, ?_, fun id hu => ?_⟩, hev, hfol⟩
  · rw [hsub, hids]; exact hI.ids
  · rw [hq, hids]; exact hI.known
  · rw [hq, hsub]; exact hI.covered id (hun id hu)

/-- archiving the message of a settled job loses no unfinished one -/
theorem Store.Inv.archive {s : Store τ} {msg : Message} (hI : s.Inv) (hd : Delivered msg s)
    (hs : s.jobs.Settled msg.message.jobId) :
    Store.Inv { s with queue := s.queue.archive msg.msgId } := by
  refine ⟨hI.checked, hI.ids, fun m hm => hI.known m (List.mem_filter.mp hm).1, fun id hu => ?_⟩
  obtain ⟨m, hm, job, hjob, e⟩ := hI.covered id hu
  refine ⟨m, List.mem_filter.mpr ⟨hm, ?_⟩, job, hjob, e⟩
  rw [bne_iff_ne]
  intro hid
  have hj : m.message.jobId = id := by rw [e]; rfl
  rw [← hj, hd.body m hm hid] at hu
  exact hs.2 hu

theorem submitOne_spec {s t : Store τ} {p : Uuid × NewJob} (h : submitOne s p = some t)
    (hI : s.Inv) : t.Inv ∧ s.Follows t := by
  obtain ⟨jobs, hins, rfl⟩ := Option.map_eq_some_iff.mp h
  obtain ⟨hnew, hrows, _⟩ := Jobs.insert_spec hins
  have hids : jobs.ids = s.jobs.ids ++ [p.1] := by
    show jobs.rows.map Job.id = _
    rw [hrows, List.map_append]
    rfl
  refine ⟨⟨Jobs.insert_checked hins hI.checked, ?_, ?_, ?_⟩, Jobs.insert_evolves hins,
    Queue.send_follows _ _⟩
  · show p.1 :: s.submitted.map Prod.fst = jobs.ids.reverse
    rw [hids, hI.ids, List.reverse_append]
    rfl
  · intro m hm
    rw [hids, List.mem_append]
    rcases List.mem_append.mp hm with hm | hm
    · exact Or.inl (hI.known m hm)
    · rw [List.mem_singleton.mp hm]
      exact Or.inr (List.mem_singleton.mpr rfl)
  · rintro id ⟨j, hj, rfl, hn⟩
    rw [hrows, List.mem_append, List.mem_singleton] at hj
    rcases hj with hj | rfl
    · obtain ⟨m, hm, job, hjob, e⟩ := hI.covered j.id ⟨j, hj, rfl, hn⟩
      exact ⟨m, List.mem_append_left _ hm, job, List.mem_cons_of_mem _ hjob, e⟩
    · exact ⟨_, List.mem_append_right _ (List.mem_singleton_self _), p.2, List.mem_cons_self, rfl⟩

theorem submitMany_spec {s t : Store τ} {jobs : List (Uuid × NewJob)}
    (h : submitMany s jobs = some t) (hI : s.Inv) : t.Inv ∧ s.Follows t := by
  have hfold : ∀ (l : List (Uuid × NewJob)) (s t : Store τ), s.Inv →
      l.foldlM submitOne s = some t → t.Inv ∧ s.Follows t := by
    intro l
    induction l with
    | nil => intro s t hI h; cases h; exact ⟨hI, Store.Follows.refl s⟩
    | cons p l ih =>
      intro s t hI h
      rw [List.foldlM_cons] at h
      obtain ⟨u, h1, h2⟩ := Option.bind_eq_some_iff.mp h
      obtain ⟨hIu, hfu⟩ := submitOne_spec h1 hI
      obtain ⟨hIt, hft⟩ := ih u t hIu h2
      exact ⟨hIt, hfu.trans hft⟩
  unfold submitMany at h
  split at h
  · cases h; exact ⟨hI, Store.Follows.refl s⟩
  · exact hfold jobs s t hI h

/-! ## one delivery -/

/-- threads on the store: `Store.Inv` is kept, and everyone moves inside `Store.Follows` -/
def coverage (step : ExecutorStep ι E τ χ A) :
    Discipline ι (Store τ) (Call E) (CallOutcome χ) (Answer A) where
  exec := Call.step step
  inv := Store.Inv
  rely _ := Store.Follows
  pre _ _ _ := True
  refl _ := Store.Follows.refl
  trans _ _ _ _ := Store.Follows.trans

variable {step : ExecutorStep ι E τ χ A}

variable (step) in
theorem write_safe {i : ι} {c : StoreCall} {P Q : Store τ → Prop} {s : Store τ} (hs : P s)
    (hP : ∀ s t, s.Follows t → P s → P t) (hQ : ∀ s t, s.Follows t → Q s → Q t)
    (hq : ∀ s t : Store τ, c.apply s = some t → t.queue = s.queue)
    (hpost : ∀ s t : Store τ, P s → c.apply s = some t → s.Follows t → Q t) :
    Safe (coverage step) i (fun r t => ∀ a, r = .ok a → Q t) (tryStore (A := A) c).run s := by
  refine Safe.perform (fun r t t' hf h a ha => hQ t t' hf (h a ha)) fun s' hf hI => ⟨trivial, ?_⟩
  intro x r t he
  rcases StoreCall.exec_cases he with ha | ⟨rfl, e, rfl⟩
  · obtain ⟨hIt, hft⟩ := Store.Inv.write hI ha (hq s' t ha)
    exact ⟨hIt, fun _ _ => hft, fun _ _ => hpost s' t (hP s s' hf hs) ha hft⟩
  · exact ⟨hI, fun _ _ => Store.Follows.refl _, fun a ha => by cases ha⟩

theorem archive_safe {i : ι} {msg : Message} {s : Store τ} (hd : Delivered msg s)
    (hs : s.jobs.Settled msg.message.jobId) :
    Safe (coverage step) i (fun r _ => ∀ a, r = .ok a → True)
      (tryStore (A := A) (.archive msg.msgId)).run s := by
  refine Safe.perform (fun _ _ _ _ _ _ _ => trivial) fun s' hf hI => ⟨trivial, ?_⟩
  intro x r t he
  rcases StoreCall.exec_cases he with ha | ⟨rfl, e, rfl⟩
  · cases ha
    exact ⟨Store.Inv.archive hI (hd.stable hf) (hs.evolves hf.jobs),
      fun _ _ => ⟨Jobs.Evolves.refl _, Queue.archive_follows _ _⟩, fun _ _ => trivial⟩
  · exact ⟨hI, fun _ _ => Store.Follows.refl _, fun _ _ => trivial⟩

variable (step) in
/-- the executor's calls do not touch rows or queue, whatever program it runs -/
theorem analysis_safe {i : ι} {msg : Message} (p : Prog E A (AppResult Json)) {s : Store τ}
    (hd : Delivered msg s) :
    Safe (coverage step) i (fun _ t => Delivered msg t) (p.embed Call.exec fun _ a => a) s := by
  induction p generalizing s with
  | ret a => exact fun s' h1 _ => hd.stable h1
  | call e k ih =>
    intro s' h1 hI
    refine ⟨trivial, fun x r t he => ?_⟩
    cases x with
    | exec y =>
      obtain ⟨⟨a, ex⟩, _, e2⟩ := Option.map_eq_some_iff.mp he
      cases e2
      have hfol : s'.Follows { s' with executor := ex } :=
        ⟨Jobs.Evolves.refl _, Queue.Follows.refl _⟩
      have hIt : Store.Inv { s' with executor := ex } :=
        ⟨hI.checked, hI.ids, hI.known, hI.covered⟩
      exact ⟨hIt, fun _ _ => hfol, ih _ ((hd.stable h1).stable hfol)⟩
    | ok => cases he
    | err msg => cases he
    | lost msg => cases he

theorem startHeartbeat_step {i : ι} {msgId : Nat} {x : CallOutcome χ} {s t : Store τ} {r : Unit}
    (h : Call.step step i (.startHeartbeat msgId) x s = some (r, t)) : t = s := by
  cases x with
  | ok => cases h; rfl
  | err msg => cases h
  | lost msg => cases h
  | exec y => cases h

theorem dropHeartbeat_step {i : ι} {msgId : Nat} {x : CallOutcome χ} {s t : Store τ} {r : Unit}
    (h : Call.step step i (.dropHeartbeat msgId) x s = some (r, t)) : t = s := by
  cases x with
  | ok => cases h; rfl
  | err msg => cases h
  | lost msg => cases h
  | exec y => cases h

theorem Call.step_executor {i : ι} {c : Call E} (hc : ∀ e, c ≠ .exec e) {x : CallOutcome χ}
    {s t : Store τ} {r : Answer A c} (h : Call.step step i c x s = some (r, t)) :
    t.executor = s.executor := by
  cases c with
  | store c =>
    rcases StoreCall.exec_cases h with ha | ⟨rfl, _⟩
    · exact StoreCall.apply_executor ha
    · rfl
  | startHeartbeat msgId => rw [startHeartbeat_step h]
  | dropHeartbeat msgId => rw [dropHeartbeat_step h]
  | exec e => exact absurd rfl (hc e)

variable (step) in
theorem heartbeat_safe {i : ι} {msg : Message} {c : Call E} {s : Store τ}
    (hc : ∀ x (s : Store τ) r t, Call.step step i c x s = some (r, t) → t = s)
    (hd : Delivered msg s) : Safe (coverage step) i (fun _ t => Delivered msg t)
      (Prog.perform (R := Answer A) c) s := by
  refine Safe.perform (fun _ t t' hf h => h.stable hf) fun s' hf hI => ⟨trivial, ?_⟩
  intro x r t he
  rw [hc x s' r t he]
  exact ⟨hI, fun _ _ => Store.Follows.refl _, hd.stable hf⟩

/-- a success or a poison message is settled before it is archived -/
theorem settle_archive_safe {i : ι} {c : StoreCall} {msg : Message} {s : Store τ} (hI : s.Inv)
    (hd : Delivered msg s) (hq : ∀ s t : Store τ, c.apply s = some t → t.queue = s.queue)
    (hc : ∀ s t : Store τ, msg.message.jobId ∈ s.jobs.ids → c.apply s = some t →
      t.jobs.Settled msg.message.jobId) :
    Safe (coverage step) i (fun _ _ => True) (do
      tryStore (A := A) c
      tryStore (.archive msg.msgId)).run s := by
  have hw := write_safe step (A := A) (i := i) (c := c) (P := Delivered msg)
    (Q := fun t => Delivered msg t ∧ t.jobs.Settled msg.message.jobId) hd
    (fun _ _ hf h => h.stable hf) (fun _ _ hf h => ⟨h.1.stable hf, h.2.evolves hf.jobs⟩) hq
    (fun s t h ha hf => ⟨h.stable hf, hc s t h.row ha⟩)
  refine Safe.andThen hw hI fun _ t _ hm => ?_
  exact (archive_safe hm.1 hm.2).mono fun _ _ _ _ => trivial

/-- **One delivery is safe**: whatever the other threads and the environment do between its
calls, whatever its calls answer, and whatever program the executor runs. -/
theorem handle_safe (analyze : Executor E A) (cfg : WorkerConfig) {i : ι} {msg : Message}
    {s : Store τ} (hI : s.Inv) (hd : Delivered msg s) :
    Safe (coverage step) i (fun _ _ => True) (handle analyze cfg msg).run s := by
  unfold handle
  dsimp only
  split
  · refine settle_archive_safe hI hd (fun s t h => ?_) (fun s t hid h => ?_)
    · obtain ⟨_, _, rfl⟩ := Option.map_eq_some_iff.mp h
      rfl
    · obtain ⟨_, hu, rfl⟩ := Option.map_eq_some_iff.mp h
      exact Jobs.update_settles hu hid fun _ => by simp [JobSet.assign, nonTerminal]
  · have hw := write_safe step (A := A) (i := i) (c := .setRunning msg.message.jobId)
      (P := Delivered msg) (Q := Delivered msg) hd (fun _ _ hf h => h.stable hf)
      (fun _ _ hf h => h.stable hf)
      (fun s t h => by obtain ⟨_, _, rfl⟩ := Option.map_eq_some_iff.mp h; rfl)
      (fun s t h _ hf => h.stable hf)
    refine Safe.andThen hw hI fun _ s1 hI1 hd1 => ?_
    have hb := heartbeat_safe step (i := i) (c := .startHeartbeat msg.msgId)
      (fun x s r t h => startHeartbeat_step h) hd1
    refine Safe.andThen hb.lift hI1 fun _ s2 hI2 hd2 => ?_
    have ha := analysis_safe step (i := i)
      (analyze msg.message.jobId msg.message.sgf msg.message.humanProfile) hd2
    refine Safe.andThen ha.lift hI2 fun result s3 hI3 hd3 => ?_
    have hb := heartbeat_safe step (i := i) (c := .dropHeartbeat msg.msgId)
      (fun x s r t h => dropHeartbeat_step h) hd3
    refine Safe.andThen hb.lift hI3 fun _ s4 hI4 hd4 => ?_
    cases result with
    | ok value =>
      refine settle_archive_safe hI4 hd4 (fun s t h => ?_) (fun s t hid h => ?_)
      · obtain ⟨_, _, rfl⟩ := Option.map_eq_some_iff.mp h
        rfl
      · obtain ⟨_, hu, rfl⟩ := Option.map_eq_some_iff.mp h
        exact Jobs.update_settles hu hid fun _ => by simp [JobSet.assign, nonTerminal]
    | error err =>
      have hw := write_safe step (A := A) (i := i)
        (c := .recordAttemptFailure msg.message.jobId err.toString)
        (P := Delivered msg) (Q := fun _ => True) hd4 (fun _ _ hf h => h.stable hf)
        (fun _ _ _ _ => trivial)
        (fun s t h => by obtain ⟨_, _, rfl⟩ := Option.map_eq_some_iff.mp h; rfl)
        (fun _ _ _ _ _ => trivial)
      exact hw.mono fun _ _ _ _ => trivial

/-- a delivery under any discipline its store and heartbeat calls respect is safe as soon as the
executor's program is -/
theorem handle_safe_of {σ ω : Type} {D : Discipline ι σ (Call E) ω (Answer A)} {i : ι}
    (hcall : ∀ c : Call E, (∀ e, c ≠ .exec e) → ∀ s, D.inv s → D.pre i c s ∧
      ∀ x r t, D.exec i c x s = some (r, t) → D.inv t ∧ ∀ j, j ≠ i → D.rely j s t)
    (analyze : Executor E A) (cfg : WorkerConfig) {msg : Message}
    (hexec : ∀ s, D.inv s → Safe D i (fun _ _ => True) (analysis analyze msg.message) s)
    {s : σ} (hI : D.inv s) : Safe D i (fun _ _ => True) (handle analyze cfg msg).run s := by
  have hone : ∀ c : Call E, (∀ e, c ≠ .exec e) → ∀ s,
      Safe D i (fun _ _ => True) (Prog.perform (R := Answer A) c) s := by
    intro c hc s
    refine Safe.perform (fun _ _ _ _ _ => trivial) fun s' _ hI' => ?_
    obtain ⟨hp, hx⟩ := hcall c hc s' hI'
    exact ⟨hp, fun x r t he => ⟨(hx x r t he).1, (hx x r t he).2, trivial⟩⟩
  have hstore : ∀ c s, Safe D i (fun r _ => ∀ a, r = .ok a → True)
      (tryStore (A := A) c).run s := fun c s =>
    (hone (Call.store c) (fun e he => by cases he) s).mono fun _ _ _ _ _ _ => trivial
  have harchive : ∀ c c' s, D.inv s → Safe D i (fun _ _ => True) (do
      tryStore (A := A) c
      tryStore c').run s := fun c c' s hI =>
    Safe.andThen (hstore c s) hI fun _ t _ _ => (hstore c' t).mono fun _ _ _ _ => trivial
  unfold handle
  dsimp only
  split
  · exact harchive _ _ s hI
  · refine Safe.andThen (hstore _ s) hI fun _ s1 hI1 _ => ?_
    refine Safe.andThen (hone (.startHeartbeat msg.msgId) (fun e he => by cases he) s1).lift hI1
      fun _ s2 hI2 _ => ?_
    refine Safe.andThen (hexec s2 hI2).lift hI2 fun result s3 hI3 _ => ?_
    refine Safe.andThen (hone (.dropHeartbeat msg.msgId) (fun e he => by cases he) s3).lift hI3
      fun _ s4 hI4 _ => ?_
    cases result with
    | ok value => exact harchive _ _ s4 hI4
    | error err => exact (hstore _ s4).mono fun _ _ _ _ => trivial

/-! ## every run -/

variable {analyze : Executor E A} {cfg : WorkerConfig}

theorem delivered_of_read {s : Store τ} {queue : Queue} {msgId : Nat} {msg : Message}
    (hI : s.Inv) (h : s.queue.read msgId = some (msg, queue)) :
    Store.Inv { s with queue } ∧ s.Follows { s with queue } ∧
      Delivered msg { s with queue } := by
  obtain ⟨⟨w, hw, _, _, rfl⟩, hfol, hkeep, hnext⟩ := Queue.read_spec h
  have hst : s.Follows { s with queue } := ⟨Jobs.Evolves.refl _, hfol⟩
  have hd : Delivered w.deliver s :=
    ⟨s.queue.fresh w hw, hI.known w hw, fun v hv e => by rw [s.queue.msg_unique hv hw e]; rfl⟩
  refine ⟨⟨hI.checked, hI.ids, fun m hm => ?_, fun id hu => ?_⟩, hst, hd.stable hst⟩
  · by_cases hl : m.msgId < s.queue.nextMsgId
    · obtain ⟨v, hv, _, e⟩ := hfol.old m hm hl
      rw [← e]
      exact hI.known v hv
    · exact absurd (hnext ▸ queue.fresh m hm) hl
  · obtain ⟨m, hm, job, hjob, e⟩ := hI.covered id hu
    obtain ⟨m', hm', _, e'⟩ := hkeep m hm
    exact ⟨m', hm', job, hjob, e'.trans e⟩

theorem setVisible_inv {s : Store τ} (hI : s.Inv) (msgId : Nat) (v : Bool) :
    Store.Inv { s with queue := s.queue.setVisible msgId v } := by
  refine ⟨hI.checked, hI.ids, fun m hm => ?_, fun id hu => ?_⟩
  · obtain ⟨w, hw, _, e⟩ := (Queue.setVisible_follows s.queue msgId v).old m hm
      ((s.queue.setVisible msgId v).fresh m hm)
    rw [← e]
    exact hI.known w hw
  · obtain ⟨m, hm, job, hjob, e⟩ := hI.covered id hu
    obtain ⟨m', hm', _, e'⟩ := Queue.setVisible_keeps s.queue msgId v m hm
    exact ⟨m', hm', job, hjob, e'.trans e⟩

theorem lease_some {s t : WorkerPool ι E τ A} {i : ι} {msgId : Nat}
    (h : workerStep analyze cfg step s (.lease i msgId) = some t) :
    idle (s.thread i) = true ∧ ∃ msg queue, s.mem.queue.read msgId = some (msg, queue) ∧
      t = { mem := { s.mem with queue }
            thread := Function.update s.thread i (some (handle analyze cfg msg).run) } := by
  have h' : (if idle (s.thread i) = true then
      (s.mem.queue.read msgId).map fun (msg, queue) =>
        ({ mem := { s.mem with queue }
           thread := Function.update s.thread i (some (handle analyze cfg msg).run) } :
          WorkerPool ι E τ A)
    else none) = some t := h
  split at h'
  case isFalse => cases h'
  case isTrue hi =>
    obtain ⟨⟨msg, queue⟩, hr, rfl⟩ := Option.map_eq_some_iff.mp h'
    exact ⟨hi, msg, queue, hr, rfl⟩

theorem workerStep_safe {s t : WorkerPool ι E τ A} {a : WorkerAct ι τ χ}
    (h : s.AllSafe (coverage step) fun _ _ => True)
    (hs : workerStep analyze cfg step s a = some t) :
    t.AllSafe (coverage step) fun _ _ => True := by
  cases a with
  | submit jobId job =>
    obtain ⟨m, hm, rfl⟩ := Option.map_eq_some_iff.mp hs
    obtain ⟨hI, hf⟩ := submitOne_spec hm h.1
    exact h.env hI fun _ => hf
  | submitMany jobs =>
    obtain ⟨m, hm, rfl⟩ := Option.map_eq_some_iff.mp hs
    obtain ⟨hI, hf⟩ := submitMany_spec hm h.1
    exact h.env hI fun _ => hf
  | lease i msgId =>
    obtain ⟨_, msg, queue, hr, rfl⟩ := lease_some hs
    obtain ⟨hI, hf, hd⟩ := delivered_of_read h.1 hr
    refine (h.env hI fun _ => hf).set i _ fun p hp => ?_
    cases hp
    exact handle_safe analyze cfg hI hd
  | leaseLost msgId =>
    obtain ⟨⟨msg, queue⟩, hr, rfl⟩ := Option.map_eq_some_iff.mp hs
    obtain ⟨hI, hf, _⟩ := delivered_of_read h.1 hr
    exact h.env hI fun _ => hf
  | call i x => exact h.run hs
  | crash i =>
    cases hs
    exact h.set i none fun p hp => by cases hp
  | extendVt msgId =>
    cases hs
    exact h.env (setVisible_inv h.1 msgId false)
      fun _ => ⟨Jobs.Evolves.refl _, Queue.setVisible_follows _ _ _⟩
  | lapse msgId =>
    cases hs
    exact h.env (setVisible_inv h.1 msgId true)
      fun _ => ⟨Jobs.Evolves.refl _, Queue.setVisible_follows _ _ _⟩
  | tick now =>
    cases hs
    exact h.env ⟨h.1.checked, h.1.ids, h.1.known, h.1.covered⟩
      fun _ => ⟨Jobs.Evolves.refl _, Queue.Follows.refl _⟩
  | executor x =>
    cases hs
    exact h.env ⟨h.1.checked, h.1.ids, h.1.known, h.1.covered⟩
      fun _ => ⟨Jobs.Evolves.refl _, Queue.Follows.refl _⟩

theorem workerSys_safe {s : WorkerPool ι E τ A} (h : (workerSys analyze cfg step).Reachable s) :
    s.AllSafe (coverage step) fun _ _ => True := by
  refine h.rule (I := fun s => s.AllSafe (coverage step) fun _ _ => True) (fun s₀ h0 => ?_)
    fun s a t hs he => workerStep_safe hs he
  obtain ⟨h1, h2, h3, h4⟩ := h0
  refine ⟨⟨?_, ?_, ?_, ?_⟩, fun i p hp => ?_⟩
  · intro j hj
    rw [h1] at hj
    cases hj
  · rw [h1, h3]
    rfl
  · intro m hm
    rw [h2] at hm
    cases hm
  · rintro id ⟨j, hj, _⟩
    rw [h1] at hj
    cases hj
  · rw [h4 i] at hp
    cases hp

/-- **No job is ever lost**: in every state of every run, a job that is queued or running has a
message in the active queue, and that message carries the one submission made under its id. -/
theorem no_job_lost {s : WorkerPool ι E τ A} (h : (workerSys analyze cfg step).Reachable s) :
    ∀ j ∈ s.mem.jobs.rows, j.status ∈ nonTerminal → ∃ m ∈ s.mem.queue.active,
      m.message.jobId = j.id ∧ ∃ job, (j.id, job) ∈ s.mem.submitted ∧
        (∀ job', (j.id, job') ∈ s.mem.submitted → job' = job) ∧
        m.message.sgf = job.sgf ∧ m.message.humanProfile = job.humanProfile := by
  intro j hj hn
  have hI := (workerSys_safe h).1
  obtain ⟨m, hm, job, hjob, e⟩ := hI.covered j.id ⟨j, hj, rfl, hn⟩
  have hnd : (s.mem.submitted.map Prod.fst).Nodup := by
    rw [hI.ids]
    exact List.nodup_reverse.mpr s.mem.jobs.nodup
  refine ⟨m, hm, by rw [e]; rfl, job, hjob, fun job' hjob' => ?_, by rw [e]; rfl, by rw [e]; rfl⟩
  have hp := List.inj_on_of_nodup_map hnd hjob' hjob rfl
  exact congrArg Prod.snd hp

/-! ## the table of a worker run -/

/-- the table moved by a sequence of the program's writes -/
def Store.Writes (s t : Store τ) : Prop := ∃ ops, jobsSys.exec s.jobs ops = some t.jobs

theorem Store.Writes.of_eq {s t : Store τ} (h : t.jobs = s.jobs) : s.Writes t :=
  ⟨[], by rw [h]; rfl⟩

theorem Store.Writes.one {s t : Store τ} (op : JobsOp) (h : s.jobs.apply op = some t.jobs) :
    s.Writes t := ⟨[op], by show (s.jobs.apply op).bind _ = _; rw [h]; rfl⟩

theorem Store.Writes.trans {s t u : Store τ} (h : s.Writes t) (k : t.Writes u) : s.Writes u := by
  obtain ⟨as, ha⟩ := h
  obtain ⟨bs, hb⟩ := k
  refine ⟨as ++ bs, ?_⟩
  rw [Sys.exec_append, ha]
  exact hb

theorem StoreCall.writes {c : StoreCall} {s t : Store τ} (h : c.apply s = some t) :
    s.Writes t := by
  cases c with
  | setFailed jobId error =>
    obtain ⟨_, hu, rfl⟩ := Option.map_eq_some_iff.mp h
    exact Store.Writes.one (.setFailed s.clock jobId error) hu
  | setRunning jobId =>
    obtain ⟨_, hu, rfl⟩ := Option.map_eq_some_iff.mp h
    exact Store.Writes.one (.setRunning s.clock jobId) hu
  | setDone jobId result =>
    obtain ⟨_, hu, rfl⟩ := Option.map_eq_some_iff.mp h
    exact Store.Writes.one (.setDone s.clock jobId result) hu
  | recordAttemptFailure jobId error =>
    obtain ⟨_, hu, rfl⟩ := Option.map_eq_some_iff.mp h
    exact Store.Writes.one (.recordAttemptFailure s.clock jobId error) hu
  | archive msgId => cases h; exact Store.Writes.of_eq rfl

theorem submitOne_writes {s t : Store τ} {p : Uuid × NewJob} (h : submitOne s p = some t) :
    s.Writes t := by
  obtain ⟨_, hins, rfl⟩ := Option.map_eq_some_iff.mp h
  exact Store.Writes.one (.insert s.clock p.1) hins

theorem submitMany_writes {s t : Store τ} {jobs : List (Uuid × NewJob)}
    (h : submitMany s jobs = some t) : s.Writes t := by
  have hfold : ∀ (l : List (Uuid × NewJob)) (s t : Store τ), l.foldlM submitOne s = some t →
      s.Writes t := by
    intro l
    induction l with
    | nil => intro s t h; cases h; exact Store.Writes.of_eq rfl
    | cons p l ih =>
      intro s t h
      rw [List.foldlM_cons] at h
      obtain ⟨u, h1, h2⟩ := Option.bind_eq_some_iff.mp h
      exact (submitOne_writes h1).trans (ih u t h2)
  unfold submitMany at h
  split at h
  · cases h; exact Store.Writes.of_eq rfl
  · exact hfold jobs s t h

theorem Call.step_writes {i : ι} {c : Call E} {x : CallOutcome χ} {s t : Store τ} {r : Answer A c}
    (h : Call.step step i c x s = some (r, t)) : s.Writes t := by
  cases c with
  | store c =>
    rcases StoreCall.exec_cases h with ha | ⟨rfl, _⟩
    · exact StoreCall.writes ha
    · exact Store.Writes.of_eq rfl
  | startHeartbeat msgId => rw [startHeartbeat_step h]; exact Store.Writes.of_eq rfl
  | dropHeartbeat msgId => rw [dropHeartbeat_step h]; exact Store.Writes.of_eq rfl
  | exec e =>
    cases x with
    | exec y =>
      obtain ⟨⟨_, _⟩, _, e2⟩ := Option.map_eq_some_iff.mp h
      cases e2
      exact Store.Writes.of_eq rfl
    | ok => cases h
    | err msg => cases h
    | lost msg => cases h

theorem workerStep_writes {s t : WorkerPool ι E τ A} {a : WorkerAct ι τ χ}
    (hs : workerStep analyze cfg step s a = some t) : s.mem.Writes t.mem := by
  cases a with
  | submit jobId job =>
    obtain ⟨m, hm, rfl⟩ := Option.map_eq_some_iff.mp hs
    exact submitOne_writes hm
  | submitMany jobs =>
    obtain ⟨m, hm, rfl⟩ := Option.map_eq_some_iff.mp hs
    exact submitMany_writes hm
  | lease i msgId =>
    obtain ⟨_, msg, queue, hr, rfl⟩ := lease_some hs
    exact Store.Writes.of_eq rfl
  | leaseLost msgId =>
    obtain ⟨⟨msg, queue⟩, hr, rfl⟩ := Option.map_eq_some_iff.mp hs
    exact Store.Writes.of_eq rfl
  | call i x =>
    obtain ⟨c, k, r, m, _, he, rfl⟩ := Pool.run_some hs
    exact Call.step_writes he
  | crash i => cases hs; exact Store.Writes.of_eq rfl
  | extendVt msgId => cases hs; exact Store.Writes.of_eq rfl
  | lapse msgId => cases hs; exact Store.Writes.of_eq rfl
  | tick now => cases hs; exact Store.Writes.of_eq rfl
  | executor x => cases hs; exact Store.Writes.of_eq rfl

/-- **A worker run refines a run of writes**: its table is one `lifecycle_monotone` speaks
about. -/
theorem worker_jobs {s : WorkerPool ι E τ A} (h : (workerSys analyze cfg step).Reachable s) :
    jobsSys.Reachable s.mem.jobs := by
  refine h.rule (I := fun s => jobsSys.Reachable s.mem.jobs) ?_ ?_
  · rintro s₀ ⟨h1, _⟩
    exact Sys.Reachable.init h1
  · intro s a t hs he
    obtain ⟨ops, ho⟩ := workerStep_writes he
    exact hs.exec ho

end

/-! ## the local executor -/

inductive EngineCall where
  | analyze (sgf : String) (humanProfile : Option String)

def localExecutor : Executor EngineCall fun _ => AppResult Json :=
  fun _ sgf humanProfile => Prog.perform (.analyze sgf humanProfile)

def engineAnswers : ExecutorStep ℕ EngineCall Unit (AppResult Json) fun _ => AppResult Json :=
  fun _ _ r t => some (r, t)

def emptyWorkers : WorkerPool ℕ EngineCall Unit fun _ => AppResult Json :=
  ⟨⟨Jobs.empty, Queue.empty, 0, [], ()⟩, fun _ => none⟩

/-- job 1 is leased twice, done by loop 0, which crashes before it archives; loop 1 fails late;
job 2 is submitted -/
def redelivery : List (WorkerAct ℕ Unit (AppResult Json)) :=
  [.submit 1 ⟨"(;B[pd])", none⟩, .lease 0 1, .call 0 .ok, .call 0 .ok, .lapse 1, .lease 1 1,
   .call 1 .ok, .call 0 (.exec (.ok .null)), .call 0 .ok, .call 0 .ok, .crash 0, .call 1 .ok,
   .call 1 (.exec (.error .notFound)), .submit 2 ⟨"(;B[dd])", some "rank_5k"⟩]

def afterRedelivery : WorkerPool ℕ EngineCall Unit fun _ => AppResult Json :=
  ((workerSys localExecutor ⟨3⟩ engineAnswers).exec emptyWorkers redelivery).getD emptyWorkers

theorem afterRedelivery_reachable :
    (workerSys localExecutor ⟨3⟩ engineAnswers).Reachable afterRedelivery :=
  ⟨emptyWorkers, redelivery, ⟨rfl, rfl, rfl, fun _ => rfl⟩, rfl⟩

theorem no_job_lost_redelivery :
    afterRedelivery.mem.jobs.rows.map Job.status = [.done, .queued] ∧
    ∀ j ∈ afterRedelivery.mem.jobs.rows, j.status ∈ nonTerminal →
      ∃ m ∈ afterRedelivery.mem.queue.active, m.message.jobId = j.id := by
  refine ⟨rfl, fun j hj hn => ?_⟩
  obtain ⟨m, hm, e, _⟩ := no_job_lost afterRedelivery_reachable j hj hn
  exact ⟨m, hm, e⟩

end KatagoWs
