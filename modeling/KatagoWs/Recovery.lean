import KatagoWs.Lib.Drive
import KatagoWs.Service

/-!
# From any state, every job can be settled

After any run (crashes, lost answers, messages hidden or leased by other loops) one loop that is
left alone settles every unfinished job: it leases the message again when its timeout has lapsed,
and each delivery ends with the job settled or uses one of the attempts.

* `delivery_alone`      one delivery, alone: settled, or one attempt less;
* `standalone_recovers` so every accepted job can be settled, in at most `max_attempts + 1`
                        deliveries, whatever the engine answers.
-/

set_option linter.unusedSectionVars false

namespace KatagoWs
open Lib

section
variable {ι τ χ : Type}

def WorkerAct.isLease : WorkerAct ι τ χ → Bool
  | .lease _ _ => true
  | _ => false

def WorkerAct.answer? : WorkerAct ι τ χ → Option χ
  | .call _ (.exec x) => some x
  | _ => none

/-- the step is one of loop `i`, or the lapse of a timeout -/
def WorkerAct.Alone (i : ι) : WorkerAct ι τ χ → Prop
  | .lease j _ => j = i
  | .call j _ => j = i
  | .crash j => j = i
  | .lapse _ => True
  | _ => False

end

/-! ## leasing -/

theorem Queue.read_lapsed {q : Queue} {m : Message} (hm : m ∈ q.active) :
    ∃ msg q', (q.setVisible m.msgId true).read m.msgId = some (msg, q') ∧ msg ∈ q'.active ∧
      msg.msgId = m.msgId ∧ msg.message = m.message ∧ msg.readCt = m.readCt + 1 := by
  have hv : { m with visible := true } ∈ (q.setVisible m.msgId true).active := by
    refine List.mem_map.mpr ⟨m, hm, ?_⟩
    rw [if_pos rfl]
  cases hr : (q.setVisible m.msgId true).read m.msgId with
  | none =>
    unfold Queue.read at hr
    split at hr
    case h_1 => cases hr
    case h_2 hn =>
      exact absurd (by simp : (m.msgId == m.msgId && true) = true) (List.find?_eq_none.mp hn _ hv)
  | some p =>
    obtain ⟨msg, q'⟩ := p
    obtain ⟨w, hw, hid, _, rfl, rfl⟩ := Queue.read_cases hr
    have hsame := (q.setVisible m.msgId true).msg_unique hw hv hid
    refine ⟨_, _, rfl, ?_, hid, ?_, ?_⟩
    · refine List.mem_map.mpr ⟨w, hw, ?_⟩
      rw [if_pos hid]
    · rw [hsame]
      rfl
    · rw [hsame]
      rfl

section
variable {ι E τ χ : Type} {A : E → Type} [DecidableEq ι] {step : ExecutorStep ι E τ χ A}
  {analyze : Executor E A} {cfg : WorkerConfig}

/-- the step before a delivery: loop `i` starts over, the timeout lapses, the message is leased -/
def toLease (i : ι) (msgId : Nat) : List (WorkerAct ι τ χ) :=
  [.crash i, .lapse msgId, .lease i msgId]

variable (analyze cfg step) in
theorem toLease_exec {s : WorkerPool ι E τ A} {m : Message} (hm : m ∈ s.mem.queue.active)
    (i : ι) : ∃ msg queue, msg ∈ queue.active ∧ msg.msgId = m.msgId ∧ msg.message = m.message ∧
      msg.readCt = m.readCt + 1 ∧
      (workerSys analyze cfg step).exec s (toLease i m.msgId) = some
        { mem := { s.mem with queue }
          thread := Function.update s.thread i (some (handle analyze cfg msg).run) } := by
  obtain ⟨msg, queue, hr, hmem, hid, hbody, hct⟩ := Queue.read_lapsed hm
  refine ⟨msg, queue, hmem, hid, hbody, hct, ?_⟩
  have hidle : idle (Function.update s.thread i none i) = true := by
    rw [Function.update_self]
    rfl
  show (if idle (Function.update s.thread i none i) = true then
    ((s.mem.queue.setVisible m.msgId true).read m.msgId).map _ else none).bind _ = _
  rw [if_pos hidle, hr]
  show some ({ mem := { s.mem with queue }
               thread := Function.update (Function.update s.thread i none) i
                 (some (handle analyze cfg msg).run) } : WorkerPool ι E τ A) = _
  rw [Function.update_idem]

end

/-! ## one delivery -/

section
variable {ι E τ χ : Type} {A : E → Type} [DecidableEq ι] {step : ExecutorStep ι E τ χ A}

theorem StoreCall.apply_some {c : StoreCall} {s : Store τ} (h : s.jobs.Checked) :
    ∃ t, c.apply s = some t := by
  have key : ∀ op : JobsOp, op.isInsert = false → ∀ f : Jobs → Store τ,
      ∃ t, (s.jobs.apply op).map f = some t := by
    intro op hop f
    obtain ⟨jobs, hj⟩ := Option.isSome_iff_exists.mp (Jobs.apply_isSome h hop)
    exact ⟨f jobs, by rw [hj]; rfl⟩
  cases c with
  | setFailed id error => exact key (.setFailed s.clock id error) rfl _
  | setRunning id => exact key (.setRunning s.clock id) rfl _
  | setDone id result => exact key (.setDone s.clock id result) rfl _
  | recordAttemptFailure id error => exact key (.recordAttemptFailure s.clock id error) rfl _
  | archive msgId => exact ⟨_, rfl⟩

theorem store_ok {c : StoreCall} {s t : Store τ} (h : c.apply s = some t) (i : ι) :
    Call.step step i (.store c) .ok s = some (.ok (), t) := by
  show StoreCall.exec c .ok s = _
  unfold StoreCall.exec
  rw [h]
  rfl

theorem drive_settle {c : StoreCall} {s t : Store τ} (h : c.apply s = some t) (i : ι)
    (msgId : Nat) :
    (do tryStore (A := A) c; tryStore (.archive msgId) : HandleM E A Unit).run.drive
      (Call.step step i) s [.ok, .ok]
      = some (.ret (.ok ()), { t with queue := t.queue.archive msgId }) := by
  refine (Prog.drive_call (store_ok h i) _).trans ?_
  exact Prog.drive_call (store_ok (c := .archive msgId) rfl i) _

end

section
variable {ι τ χ : Type} [DecidableEq ι] {engine : EngineRun χ} {cfg : WorkerConfig}

def afterAnalysis (msg : Message) (result : AppResult Json) :
    HandleM EngineCall (fun _ => AppResult Json) Unit :=
  match result with
  | .ok value => do
    tryStore (.setDone msg.message.jobId value)
    tryStore (.archive msg.msgId)
  | .error err => tryStore (.recordAttemptFailure msg.message.jobId err.toString)

variable (engine) in
theorem drive_attempt {msg : Message} (hct : ¬ (msg.readCt : Int) > cfg.maxAttempts)
    {s t : Store τ} (h : (StoreCall.setRunning msg.message.jobId).apply s = some t) (i : ι)
    (x : χ) :
    (handle localExecutor cfg msg).run.drive (Call.step (engineStep engine) i) s
        [.ok, .ok, .exec x, .ok]
      = some ((afterAnalysis msg (engine msg.message.sgf msg.message.humanProfile x)).run, t) := by
  unfold handle
  dsimp only
  rw [if_neg hct]
  refine (Prog.drive_call (store_ok h i) _).trans ?_
  refine (Prog.drive_call (c := Call.startHeartbeat msg.msgId) (r := ()) (t := t) rfl _).trans ?_
  refine (Prog.drive_call
      (c := Call.exec (EngineCall.analyze msg.message.sgf msg.message.humanProfile))
    (r := engine msg.message.sgf msg.message.humanProfile x) (t := t) rfl _).trans ?_
  refine (Prog.drive_call (c := Call.dropHeartbeat msg.msgId) (r := ()) (t := t) rfl _).trans ?_
  rw [Prog.drive_nil]
  unfold afterAnalysis
  cases engine msg.message.sgf msg.message.humanProfile x with
  | ok value => rfl
  | error err => rfl

variable (engine) in
theorem drive_poison {msg : Message} (hct : (msg.readCt : Int) > cfg.maxAttempts)
    {s t : Store τ} (h : (StoreCall.setFailed msg.message.jobId GIVEN_UP).apply s = some t)
    (i : ι) :
    (handle localExecutor cfg msg).run.drive (Call.step (engineStep engine) i) s [.ok, .ok]
      = some (.ret (.ok ()), { t with queue := t.queue.archive msg.msgId }) := by
  unfold handle
  dsimp only
  rw [if_pos hct]
  exact drive_settle h i msg.msgId

theorem leased_exec {s : WorkerPool ι EngineCall τ fun _ => AppResult Json} {msg : Message}
    {queue : Queue} {msgId : Nat} {i : ι} {xs : List (CallOutcome χ)} {u : Store τ}
    {q : Prog (Call EngineCall) (Answer fun _ => AppResult Json) (AppResult Unit)}
    (hl : (standaloneSys ι τ engine cfg).exec s (toLease i msgId) = some
      { mem := { s.mem with queue }
        thread := Function.update s.thread i (some (handle localExecutor cfg msg).run) })
    (hd : (handle localExecutor cfg msg).run.drive (Call.step (engineStep engine) i)
      { s.mem with queue } xs = some (q, u)) :
    ∃ t, (standaloneSys ι τ engine cfg).exec s (toLease i msgId ++ xs.map (.call i)) = some t ∧
      t.mem = u := by
  have hrun := Pool.exec_drive (S := standaloneSys ι τ engine cfg)
    (Call.step (engineStep engine)) (fun x => .call i x) (fun _ _ => rfl)
    (s := { mem := { s.mem with queue }
            thread := Function.update s.thread i (some (handle localExecutor cfg msg).run) })
    (Function.update_self i _ _) hd
  have hall := Sys.exec_append (S := standaloneSys ι τ engine cfg) s (toLease i msgId)
    (xs.map (.call i))
  rw [hl] at hall
  exact ⟨_, hall.trans hrun, rfl⟩

theorem toLease_alone (i : ι) (msgId : Nat) (xs : List (CallOutcome χ)) :
    ∀ a ∈ toLease (τ := τ) i msgId ++ xs.map (.call i), a.Alone i := by
  intro a ha
  rcases List.mem_append.mp ha with ha | ha
  · simp only [toLease, List.mem_cons, List.not_mem_nil, or_false] at ha
    rcases ha with rfl | rfl | rfl
    · exact rfl
    · exact True.intro
    · exact rfl
  · obtain ⟨x, _, rfl⟩ := List.mem_map.mp ha
    exact rfl

/-- **One delivery, alone**: the job is settled, or the delivery was one of the attempts and its
message waits for the next. -/
theorem delivery_alone {s : WorkerPool ι EngineCall τ fun _ => AppResult Json}
    (hr : (standaloneSys ι τ engine cfg).Reachable s) {m : Message}
    (hm : m ∈ s.mem.queue.active) (i : ι) (x : χ) :
    ∃ as t, (standaloneSys ι τ engine cfg).exec s as = some t ∧ (∀ a ∈ as, a.Alone i) ∧
      as.countP WorkerAct.isLease = 1 ∧
      (((as.filterMap WorkerAct.answer? = [] ∨ as.filterMap WorkerAct.answer? = [x]) ∧
          t.mem.jobs.Settled m.message.jobId) ∨
        (as.filterMap WorkerAct.answer? = [x] ∧ (m.readCt : Int) + 1 ≤ cfg.maxAttempts ∧
          ∃ m' ∈ t.mem.queue.active, m'.message = m.message ∧ m'.readCt = m.readCt + 1)) := by
  have hI : s.mem.Inv := (workerSys_safe hr).1
  have hid : m.message.jobId ∈ s.mem.jobs.ids := hI.known m hm
  obtain ⟨msg, queue, hmem, hmsg, hbody, hct, hl⟩ :=
    toLease_exec (engineStep engine) localExecutor cfg hm i
  have hjob : msg.message.jobId = m.message.jobId := by rw [hbody]
  have hchecked : Jobs.Checked ({ s.mem with queue } : Store τ).jobs := hI.checked
  by_cases hp : (msg.readCt : Int) > cfg.maxAttempts
  · -- no attempt is left
    obtain ⟨u, hu⟩ := StoreCall.apply_some (c := .setFailed msg.message.jobId GIVEN_UP) hchecked
    obtain ⟨t, ht, hmem⟩ := leased_exec hl (drive_poison engine hp hu i)
    obtain ⟨jobs, hupd, rfl⟩ := Option.map_eq_some_iff.mp hu
    refine ⟨_, t, ht, toLease_alone i _ _, rfl, Or.inl ⟨Or.inl rfl, ?_⟩⟩
    rw [hmem, ← hjob]
    exact Jobs.update_settles hupd (hjob ▸ hid) fun _ => by simp [JobSet.assign, nonTerminal]
  · obtain ⟨u, hu⟩ := StoreCall.apply_some (c := .setRunning msg.message.jobId) hchecked
    have hattempt := drive_attempt engine hp hu i x
    obtain ⟨_, hcu, hids, _, _, _⟩ := StoreCall.apply_spec hu hchecked
    cases hres : engine msg.message.sgf msg.message.humanProfile x with
    | ok value =>
      obtain ⟨v, hv⟩ := StoreCall.apply_some (c := .setDone msg.message.jobId value) hcu
      rw [hres] at hattempt
      have hdrive := (Prog.drive_append hattempt [.ok, .ok]).trans (drive_settle hv i msg.msgId)
      obtain ⟨t, ht, hmem⟩ := leased_exec hl hdrive
      obtain ⟨jobs, hupd, rfl⟩ := Option.map_eq_some_iff.mp hv
      refine ⟨_, t, ht, toLease_alone i _ _, rfl, Or.inl ⟨Or.inr rfl, ?_⟩⟩
      have hidu : msg.message.jobId ∈ u.jobs.ids := by
        rw [hids, hjob]
        exact hid
      rw [hmem, ← hjob]
      exact Jobs.update_settles hupd hidu fun _ => by simp [JobSet.assign, nonTerminal]
    | error err =>
      obtain ⟨v, hv⟩ := StoreCall.apply_some
        (c := .recordAttemptFailure msg.message.jobId err.toString) hcu
      rw [hres] at hattempt
      have hrec : (afterAnalysis msg (.error err)).run.drive (Call.step (engineStep engine) i) u
          [.ok] = some (.ret (.ok ()), v) := Prog.drive_call (store_ok hv i) _
      obtain ⟨t, ht, hmem'⟩ := leased_exec hl ((Prog.drive_append hattempt [.ok]).trans hrec)
      refine ⟨_, t, ht, toLease_alone i _ _, rfl, Or.inr ⟨rfl, by omega, msg, ?_, hbody, hct⟩⟩
      obtain ⟨_, _, rfl⟩ := Option.map_eq_some_iff.mp hu
      obtain ⟨_, _, rfl⟩ := Option.map_eq_some_iff.mp hv
      rw [hmem']
      exact hmem

/-! ## every job -/

/-- every unfinished job of a message with `n` attempts left is settled in `n + 1` deliveries -/
theorem settle_within (i : ι) (n : Nat) :
    ∀ {s : WorkerPool ι EngineCall τ fun _ => AppResult Json} {m : Message},
      (standaloneSys ι τ engine cfg).Reachable s → m ∈ s.mem.queue.active →
      (cfg.maxAttempts - m.readCt).toNat ≤ n → ∀ answers : ℕ → χ,
      ∃ as t, (standaloneSys ι τ engine cfg).exec s as = some t ∧ (∀ a ∈ as, a.Alone i) ∧
        as.countP WorkerAct.isLease ≤ n + 1 ∧
        (∃ k, as.filterMap WorkerAct.answer? = (List.range k).map answers) ∧
        t.mem.jobs.Settled m.message.jobId := by
  induction n with
  | zero =>
    intro s m hr hm hn answers
    obtain ⟨as, t, ht, halone, hone, hcase⟩ := delivery_alone hr hm i (answers 0)
    refine ⟨as, t, ht, halone, by omega, ?_⟩
    rcases hcase with ⟨hans, hset⟩ | ⟨_, hle, _⟩
    · refine ⟨?_, hset⟩
      rcases hans with hans | hans
      · exact ⟨0, hans⟩
      · exact ⟨1, hans⟩
    · omega
  | succ n ih =>
    intro s m hr hm hn answers
    obtain ⟨as, t, ht, halone, hone, hcase⟩ := delivery_alone hr hm i (answers 0)
    rcases hcase with ⟨hans, hset⟩ | ⟨hans, hle, m', hm', hbody, hct⟩
    · refine ⟨as, t, ht, halone, by omega, ?_, hset⟩
      rcases hans with hans | hans
      · exact ⟨0, hans⟩
      · exact ⟨1, hans⟩
    · obtain ⟨bs, u, hu, hbs, hcount, ⟨k, hk⟩, hset⟩ :=
        ih (hr.exec ht) hm' (by omega) fun j => answers (j + 1)
      refine ⟨as ++ bs, u, ?_, fun a ha => ?_, ?_, ⟨k + 1, ?_⟩, hbody ▸ hset⟩
      · rw [Sys.exec_append, ht]
        exact hu
      · exact (List.mem_append.mp ha).elim (halone a) (hbs a)
      · rw [List.countP_append]
        omega
      · rw [List.filterMap_append, hans, hk, List.range_succ_eq_map, List.map_cons, List.map_map]
        rfl

/-- **No run is a dead end**: from every reachable state, whatever the engine answers from then
on, loop `i` alone settles any job that was accepted, in at most `max_attempts + 1` deliveries. -/
theorem standalone_recovers {s : WorkerPool ι EngineCall τ fun _ => AppResult Json}
    (hr : (standaloneSys ι τ engine cfg).Reachable s) {id : Uuid} {e : Entry}
    (he : s.mem.entry id = some e) (i : ι) (answers : ℕ → χ) :
    ∃ as t e', (standaloneSys ι τ engine cfg).exec s as = some t ∧ (∀ a ∈ as, a.Alone i) ∧
      as.countP WorkerAct.isLease ≤ cfg.maxAttempts.toNat + 1 ∧
      (∃ k, as.filterMap WorkerAct.answer? = (List.range k).map answers) ∧
      t.mem.entry id = some e' ∧ e'.job = e.job ∧ e'.fate ≠ .pending := by
  by_cases hp : e.fate = .pending
  · have hI : s.mem.Inv := (workerSys_safe hr).1
    obtain ⟨m, hm, job, _, hbody⟩ := hI.covered id (Store.unfinished_of_pending hI he hp)
    have hid : m.message.jobId = id := by
      rw [hbody]
      rfl
    obtain ⟨as, t, ht, halone, hcount, hans, hset⟩ :=
      settle_within i _ hr hm (le_refl _) answers
    obtain ⟨e', he', hjob, _⟩ := standalone_kept hr ht id e he
    refine ⟨as, t, e', ht, halone, by omega, hans, he', hjob, fun hp' => ?_⟩
    have hIt : t.mem.Inv := (workerSys_safe (hr.exec ht)).1
    exact hset.2 (hid ▸ Store.unfinished_of_pending hIt he' hp')
  · exact ⟨[], s, e, rfl, List.forall_mem_nil _, Nat.zero_le _, ⟨0, rfl⟩, he, rfl, hp⟩

end

/-- job 2 has no delivery yet, and the engine always fails: three attempts, and one more delivery
gives up -/
theorem standalone_recovers_redelivery :
    ∃ as t e', (standaloneSys ℕ Unit anyEngine ⟨3⟩).exec afterRedelivery as = some t ∧
      as.countP WorkerAct.isLease ≤ 4 ∧ t.mem.entry 2 = some e' ∧ e'.fate ≠ .pending := by
  have he : afterRedelivery.mem.entry 2 = some ⟨⟨"(;B[dd])", some "rank_5k"⟩, .pending⟩ := rfl
  obtain ⟨as, t, e', ht, _, hcount, _, he', _, hfate⟩ :=
    standalone_recovers afterRedelivery_standalone he 1 fun _ => .error (.inference "no answer")
  exact ⟨as, t, e', ht, hcount, he', hfate⟩

end KatagoWs
