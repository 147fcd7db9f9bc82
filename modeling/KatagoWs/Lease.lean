import KatagoWs.Attempts
import KatagoWs.Lib.Lease
import KatagoWs.Lib.Simulation

/-!
# Leases and heartbeats: one delivery at a time

A delivered message is hidden for the visibility timeout, and a job may take longer.  While it is
analysed a heartbeat sleeps half the timeout and sets it anew; nothing else stands between a long
analysis and a second delivery of its job.  Here the worker loops run against a clock, in
milliseconds: a message reappears only when its timeout has passed.

* `TimedPool`       the recorded worker loops, the clock, the timeouts and the heartbeats;
* `Punctual`        every step of a delivery and its heartbeat is late by `delay` at most, and no
                    more than `misses` rounds in a row fail;
* `TimedPool.Inv`   the lease of every delivery is covered (`Lib.Lease`), its message hidden;
* `lease_exclusive` so no two loops ever are in deliveries of one job.
-/

set_option linter.unusedSectionVars false

namespace KatagoWs
open Lib

/-! ## the timed loops -/

/-- The lock is re-armed every `vt / HEARTBEAT_DIVISOR` seconds; also the floor on `vt`. -/
def HEARTBEAT_DIVISOR : Int := 2

def heartbeatInterval (vtSecs : Int) : Nat :=
  (max vtSecs HEARTBEAT_DIVISOR).toNat / HEARTBEAT_DIVISOR.toNat * 1000

def hiddenFor (vtSecs : Int) : Nat := vtSecs.toNat * 1000

def heartbeatTiming (vtSecs : Int) (delay misses : Nat) : Lease.Timing where
  term := hiddenFor vtSecs
  interval := heartbeatInterval vtSecs
  delay := delay
  misses := misses

/-- The recorded loops, the clock, the time `vt` from which a message is visible again, and the
stage of the delivery every loop is in. -/
structure TimedPool (ι E τ : Type) (A : E → Type) where
  run : WorkerPool ι E τ A × Attempts ι E
  now : Nat
  vt : Nat → Nat
  stage : ι → Option Lease.Stage

inductive TimedAct (ι τ χ : Type) where
  | work (a : WorkerAct ι τ χ)
  | elapse (ms : Nat)
  /-- the heartbeat's sleep ends, `set_vt` takes effect, and it is answered -/
  | wake (i : ι)
  | renew (i : ι)
  | reply (i : ι)

section
variable {ι E τ χ : Type} {A : E → Type}

/-- a delivery before its loop makes the next call -/
def heartbeatStage (now : Nat) (p : Option (Prog (Call E) (Answer A) (Except AppError Unit)))
    (st : Lease.Stage) : Lease.Stage :=
  match p with
  | some (.call (.startHeartbeat _) _) => st.start now
  | some (.call (.dropHeartbeat _) _) => st.stop now
  | _ => st

variable [DecidableEq ι]

/-- the clock's side of a step of the loops, which takes them to `run` -/
def TimedPool.worked (vtSecs : Int) (s : TimedPool ι E τ A)
    (run : WorkerPool ι E τ A × Attempts ι E) : WorkerAct ι τ χ → Option (TimedPool ι E τ A)
  | .lease i msgId => some
    { s with
      run
      vt := Function.update s.vt msgId (s.now + hiddenFor vtSecs)
      stage := Function.update s.stage i (some (.opening s.now)) }
  | .leaseLost msgId | .extendVt msgId => some
    { s with run, vt := Function.update s.vt msgId (s.now + hiddenFor vtSecs) }
  | .lapse msgId => if s.vt msgId ≤ s.now then some { s with run } else none
  | .call i _ => some
    { s with
      run
      stage := Function.update s.stage i (if idle (run.1.thread i) then none else
        (s.stage i).map (heartbeatStage s.now (s.run.1.thread i))) }
  | .crash i => some { s with run, stage := Function.update s.stage i none }
  | .submit _ _ | .submitMany _ | .tick _ | .executor _ => some { s with run }

variable (analyze : Executor E A) (cfg : WorkerConfig) (step : ExecutorStep ι E τ χ A)
  (vtSecs : Int)

def timedStep (s : TimedPool ι E τ A) : TimedAct ι τ χ → Option (TimedPool ι E τ A)
  | .work a => ((recordedSys analyze cfg step).step s.run a).bind fun run =>
    s.worked vtSecs run a
  | .elapse ms => some { s with now := s.now + ms }
  | .wake i => (s.stage i).bind fun st =>
    (st.wake (heartbeatInterval vtSecs) s.now).map fun st =>
      { s with stage := Function.update s.stage i (some st) }
  | .renew i => (s.stage i).bind fun st => st.renew.bind fun st =>
    (s.run.2.delivery i).bind fun msg =>
      ((recordedSys analyze cfg step).step s.run (.extendVt msg.msgId)).map fun run =>
        { s with
          run
          vt := Function.update s.vt msg.msgId (s.now + hiddenFor vtSecs)
          stage := Function.update s.stage i (some st) }
  | .reply i => (s.stage i).bind fun st => (st.reply s.now).map fun st =>
    { s with stage := Function.update s.stage i (some st) }

def timedSys : Sys (TimedPool ι E τ A) (TimedAct ι τ χ) where
  init s := (recordedSys analyze cfg step).init s.run ∧ (∀ m, s.vt m = 0) ∧
    ∀ i, s.stage i = none
  step := timedStep analyze cfg step vtSecs

/-- no delivery and no heartbeat is later than the timing allows -/
def Punctual (T : Lease.Timing) (s : TimedPool ι E τ A) : TimedAct ι τ χ → Prop
  | .elapse ms => ∀ i, ∀ st ∈ s.stage i, s.now + ms ≤ st.due T
  | .reply i => ∀ st ∈ s.stage i, st.mayMiss T.misses = true
  | _ => True

end

/-! ## hidden messages -/

def Queue.Hidden (q : Queue) (msgId : Nat) : Prop :=
  ∀ w ∈ q.active, w.msgId = msgId → w.visible = false

theorem Queue.Hidden.modify {q : Queue} {k : Nat} (h : q.Hidden k) {msgId : Nat}
    (f : Message → Message) (hf : ∀ m, (f m).msgId = m.msgId)
    (hv : msgId = k → ∀ m, m.visible = false → (f m).visible = false) :
    (q.modify msgId f hf).Hidden k := by
  intro w hw hid
  obtain ⟨m, hm, rfl⟩ := mem_onMsg hw
  by_cases hsame : m.msgId = msgId
  · rw [if_pos hsame] at hid ⊢
    rw [hf m] at hid
    exact hv (hsame.symm.trans hid) m (h m hm hid)
  · rw [if_neg hsame] at hid ⊢
    exact h m hm hid

theorem Queue.Hidden.of_modify {q : Queue} {msgId : Nat} (f : Message → Message)
    (hf : ∀ m, (f m).msgId = m.msgId) (hv : ∀ m, (f m).visible = false) :
    (q.modify msgId f hf).Hidden msgId := by
  intro w hw hid
  obtain ⟨m, hm, rfl⟩ := mem_onMsg hw
  by_cases hsame : m.msgId = msgId
  · rw [if_pos hsame]
    exact hv m
  · rw [if_neg hsame] at hid
    exact absurd hid hsame

theorem Queue.Hidden.send {q : Queue} {k : Nat} (h : q.Hidden k) (hk : k < q.nextMsgId)
    (body : JobMessage) : (q.send body).Hidden k := by
  intro w hw hid
  rcases List.mem_append.mp hw with hold | hnew
  · exact h w hold hid
  · rw [List.mem_singleton.mp hnew] at hid
    exact absurd hid (Nat.ne_of_gt hk)

theorem Queue.Hidden.setVisible {q : Queue} {k : Nat} (h : q.Hidden k) {msgId : Nat}
    {visible : Bool} (hv : msgId = k → visible = false) : (q.setVisible msgId visible).Hidden k :=
  h.modify (fun m => { m with visible }) (fun _ => rfl) fun hk _ _ => hv hk

theorem Queue.Hidden.archive {q : Queue} {k : Nat} (h : q.Hidden k) (msgId : Nat) :
    (q.archive msgId).Hidden k := fun w hw => h w (List.mem_filter.mp hw).1

section
variable {ι E τ χ : Type} {A : E → Type} [DecidableEq ι] {analyze : Executor E A}
  {cfg : WorkerConfig} {step : ExecutorStep ι E τ χ A}

theorem submitOne_hidden {s t : Store τ} {p : Uuid × NewJob} (h : submitOne s p = some t) {k : Nat}
    (hk : k < s.queue.nextMsgId) (hh : s.queue.Hidden k) :
    k < t.queue.nextMsgId ∧ t.queue.Hidden k := by
  obtain ⟨_, _, rfl⟩ := Option.map_eq_some_iff.mp h
  exact ⟨Nat.lt_succ_of_lt hk, hh.send hk _⟩

theorem submitMany_hidden {s t : Store τ} {jobs : List (Uuid × NewJob)}
    (h : submitMany s jobs = some t) {k : Nat} (hk : k < s.queue.nextMsgId)
    (hh : s.queue.Hidden k) : t.queue.Hidden k := by
  have hfold : ∀ (l : List (Uuid × NewJob)) (s t : Store τ), l.foldlM submitOne s = some t →
      k < s.queue.nextMsgId → s.queue.Hidden k → t.queue.Hidden k := by
    intro l
    induction l with
    | nil =>
      intro s t h _ hh
      cases h
      exact hh
    | cons p l ih =>
      intro s t h hk hh
      rw [List.foldlM_cons] at h
      obtain ⟨u, h1, h2⟩ := Option.bind_eq_some_iff.mp h
      obtain ⟨hk', hh'⟩ := submitOne_hidden h1 hk hh
      exact ih u t h2 hk' hh'
  unfold submitMany at h
  split at h
  · cases h
    exact hh
  · exact hfold jobs s t h hk hh

theorem StoreCall.apply_hidden {c : StoreCall} {s t : Store τ} (h : c.apply s = some t) {k : Nat}
    (hh : s.queue.Hidden k) : t.queue.Hidden k := by
  cases c with
  | archive msgId =>
    cases h
    exact hh.archive msgId
  | setFailed jobId error =>
    obtain ⟨_, _, rfl⟩ := Option.map_eq_some_iff.mp h
    exact hh
  | setRunning jobId =>
    obtain ⟨_, _, rfl⟩ := Option.map_eq_some_iff.mp h
    exact hh
  | setDone jobId result =>
    obtain ⟨_, _, rfl⟩ := Option.map_eq_some_iff.mp h
    exact hh
  | recordAttemptFailure jobId error =>
    obtain ⟨_, _, rfl⟩ := Option.map_eq_some_iff.mp h
    exact hh

theorem Call.step_hidden {i : ι} {c : Call E} {x : CallOutcome χ} {s t : Store τ}
    {r : Answer A c} (h : Call.step step i c x s = some (r, t)) {k : Nat}
    (hh : s.queue.Hidden k) : t.queue.Hidden k := by
  cases c with
  | store c =>
    rcases StoreCall.exec_cases h with ha | ⟨rfl, -⟩
    · exact StoreCall.apply_hidden ha hh
    · exact hh
  | startHeartbeat msgId =>
    rw [startHeartbeat_step h]
    exact hh
  | dropHeartbeat msgId =>
    rw [dropHeartbeat_step h]
    exact hh
  | exec e =>
    cases x with
    | exec y =>
      obtain ⟨⟨_, _⟩, _, e2⟩ := Option.map_eq_some_iff.mp h
      cases e2
      exact hh
    | ok => cases h
    | err msg => cases h
    | lost msg => cases h

/-- **Only a lapse of its own timeout** makes a message visible again. -/
theorem workerStep_hidden {s t : WorkerPool ι E τ A} {a : WorkerAct ι τ χ}
    (hs : workerStep analyze cfg step s a = some t) {k : Nat}
    (hk : k < s.mem.queue.nextMsgId) (ha : ∀ msgId, a = .lapse msgId → msgId ≠ k)
    (hh : s.mem.queue.Hidden k) : t.mem.queue.Hidden k := by
  cases a with
  | submit jobId job =>
    obtain ⟨m, hm, rfl⟩ := Option.map_eq_some_iff.mp hs
    exact (submitOne_hidden hm hk hh).2
  | submitMany jobs =>
    obtain ⟨m, hm, rfl⟩ := Option.map_eq_some_iff.mp hs
    exact submitMany_hidden hm hk hh
  | lease i msgId =>
    obtain ⟨_, msg, queue, hr, rfl⟩ := lease_some hs
    obtain ⟨w, _, _, _, _, rfl⟩ := Queue.read_cases hr
    exact hh.modify Message.deliver (fun _ => rfl) fun _ _ _ => rfl
  | leaseLost msgId =>
    obtain ⟨⟨msg, queue⟩, hr, rfl⟩ := Option.map_eq_some_iff.mp hs
    obtain ⟨w, _, _, _, _, rfl⟩ := Queue.read_cases hr
    exact hh.modify Message.deliver (fun _ => rfl) fun _ _ _ => rfl
  | call i x =>
    obtain ⟨c, k', r, m, _, he, rfl⟩ := Pool.run_some hs
    exact Call.step_hidden he hh
  | crash i =>
    cases hs
    exact hh
  | extendVt msgId =>
    cases hs
    exact hh.setVisible fun _ => rfl
  | lapse msgId =>
    cases hs
    exact hh.setVisible fun hsame => absurd hsame (ha msgId rfl)
  | tick now =>
    cases hs
    exact hh
  | executor x =>
    cases hs
    exact hh

def WorkerAct.moves : WorkerAct ι τ χ → Bool
  | .lease _ _ | .call _ _ | .crash _ => true
  | _ => false

theorem workerStep_still {s t : WorkerPool ι E τ A} {a : WorkerAct ι τ χ}
    (hs : workerStep analyze cfg step s a = some t) (ha : a.moves = false) :
    t.thread = s.thread := by
  cases a with
  | lease i msgId => cases ha
  | call i x => cases ha
  | crash i => cases ha
  | submit jobId job =>
    obtain ⟨_, _, rfl⟩ := Option.map_eq_some_iff.mp hs
    rfl
  | submitMany jobs =>
    obtain ⟨_, _, rfl⟩ := Option.map_eq_some_iff.mp hs
    rfl
  | leaseLost msgId =>
    obtain ⟨_, _, rfl⟩ := Option.map_eq_some_iff.mp hs
    rfl
  | extendVt msgId => cases hs; rfl
  | lapse msgId => cases hs; rfl
  | tick now => cases hs; rfl
  | executor x => cases hs; rfl

theorem Attempts.note_delivery {s : WorkerPool ι E τ A} {a : WorkerAct ι τ χ} {h : Attempts ι E}
    (ha : ∀ i msgId, a ≠ .lease i msgId) : (h.note s a).delivery = h.delivery := by
  cases a with
  | lease i msgId => exact absurd rfl (ha i msgId)
  | call i x =>
    unfold Attempts.note
    dsimp only
    split <;> rfl
  | _ => rfl

/-! ## the invariant -/

variable {vtSecs : Int} {delay misses : Nat}

/-- the lease of the delivery in stage `st` of the message `msg` -/
structure TimedPool.Holds (s : TimedPool ι E τ A) (T : Lease.Timing) (st : Lease.Stage)
    (msg : Message) : Prop where
  covered : Lease.Covered T s.now (s.vt msg.msgId) st
  hidden : s.run.1.mem.queue.Hidden msg.msgId

variable (analyze cfg step) in
structure TimedPool.Inv (T : Lease.Timing) (s : TimedPool ι E τ A) : Prop where
  recorded : (recordedSys analyze cfg step).Reachable s.run
  bound : ∀ k, s.vt k ≤ s.now + T.term
  held : ∀ i st, s.stage i = some st → ∃ msg, s.run.2.delivery i = some msg ∧ s.Holds T st msg
  apart : ∀ i j st st' msg msg', s.stage i = some st → s.stage j = some st' →
    s.run.2.delivery i = some msg → s.run.2.delivery j = some msg' → msg.msgId = msg'.msgId →
    i = j
  staged : ∀ i p, s.run.1.thread i = some p → idle (some p) = false → (s.stage i).isSome

variable {s : TimedPool ι E τ A} {T : Lease.Timing}

theorem TimedPool.Inv.issued (h : s.Inv analyze cfg step T) {i : ι} {msg : Message}
    (hd : s.run.2.delivery i = some msg) : msg.msgId < s.run.1.mem.queue.nextMsgId :=
  (recorded_ledger h.recorded).issued msg (Or.inr ⟨i, hd⟩)

/-- no message is delivered, and the deliveries that go on stay covered -/
theorem TimedPool.Inv.move (h : s.Inv analyze cfg step T)
    {run : WorkerPool ι E τ A × Attempts ι E} {vt : Nat → Nat} {stage : ι → Option Lease.Stage}
    (hrun : (recordedSys analyze cfg step).Reachable run)
    (hdel : run.2.delivery = s.run.2.delivery) (hbound : ∀ k, vt k ≤ s.now + T.term)
    (hstage : ∀ i st' msg, stage i = some st' → s.run.2.delivery i = some msg →
      ∃ st, s.stage i = some st ∧
        (s.Holds T st msg → Lease.Covered T s.now (vt msg.msgId) st'))
    (hstages : ∀ {i st'}, stage i = some st' → ∃ st, s.stage i = some st)
    (hhid : ∀ i st msg, s.stage i = some st → s.run.2.delivery i = some msg → s.Holds T st msg →
      run.1.mem.queue.Hidden msg.msgId)
    (hstaged : ∀ i p, run.1.thread i = some p → idle (some p) = false → (stage i).isSome) :
    ({ s with run, vt, stage } : TimedPool ι E τ A).Inv analyze cfg step T where
  recorded := hrun
  bound := hbound
  held i st' hst' := by
    obtain ⟨st, hst⟩ := hstages hst'
    obtain ⟨msg, hmsg, hholds⟩ := h.held i st hst
    obtain ⟨st₁, hst₁, hcov⟩ := hstage i st' msg hst' hmsg
    rw [hst] at hst₁
    cases hst₁
    refine ⟨msg, ?_, hcov hholds, hhid i st msg hst hmsg hholds⟩
    show run.2.delivery i = some msg
    rw [hdel]
    exact hmsg
  apart i j st st' msg msg' hi hj hdi hdj := by
    obtain ⟨si, hsi⟩ := hstages hi
    obtain ⟨sj, hsj⟩ := hstages hj
    change run.2.delivery i = some msg at hdi
    change run.2.delivery j = some msg' at hdj
    rw [hdel] at hdi hdj
    exact h.apart i j si sj msg msg' hsi hsj hdi hdj
  staged := hstaged

theorem recorded_step {run run' : WorkerPool ι E τ A × Attempts ι E} {a : WorkerAct ι τ χ}
    (hr : (recordedSys analyze cfg step).Reachable run)
    (hs : (recordedSys analyze cfg step).step run a = some run') :
    (recordedSys analyze cfg step).Reachable run' ∧
      workerStep analyze cfg step run.1 a = some run'.1 ∧ run'.2 = run.2.note run.1 a := by
  obtain ⟨hstep, hnote⟩ := Sys.withHistory_step hs
  exact ⟨hr.exec (Sys.exec_one hs), hstep, hnote⟩

theorem TimedPool.Inv.prolongs (h : s.Inv analyze cfg step T) (msgId k : Nat) :
    s.vt k ≤ Function.update s.vt msgId (s.now + T.term) k ∧
      Function.update s.vt msgId (s.now + T.term) k ≤ s.now + T.term := by
  by_cases hk : k = msgId
  · subst hk
    rw [Function.update_self]
    exact ⟨h.bound k, le_refl _⟩
  · rw [Function.update_of_ne hk]
    exact ⟨le_refl _, h.bound k⟩

theorem TimedPool.Inv.lease (h : s.Inv analyze cfg step T)
    {run : WorkerPool ι E τ A × Attempts ι E} {i : ι} {msgId : Nat}
    (hs : (recordedSys analyze cfg step).step s.run (.lease i msgId) = some run) :
    ({ s with
      run
      vt := Function.update s.vt msgId (s.now + T.term)
      stage := Function.update s.stage i (some (.opening s.now)) } :
      TimedPool ι E τ A).Inv analyze cfg step T := by
  obtain ⟨hrun, hstep, hnote⟩ := recorded_step h.recorded hs
  obtain ⟨-, msg, queue, hread, hpool⟩ := lease_some hstep
  obtain ⟨w, hw, hwid, hvisible, hmsg, hqueue⟩ := Queue.read_cases hread
  rw [Attempts.note_lease hread] at hnote
  have hid : msg.msgId = msgId := by
    rw [hmsg]
    exact hwid
  -- the message was visible, so it is none of those held
  have hfree : ∀ j st msg', s.stage j = some st → s.run.2.delivery j = some msg' →
      msg'.msgId ≠ msgId := by
    intro j st msg' hst hd he
    obtain ⟨msg₁, hd₁, hholds⟩ := h.held j st hst
    rw [hd] at hd₁
    cases hd₁
    have hhid := hholds.hidden w hw (hwid.trans he.symm)
    rw [hvisible] at hhid
    cases hhid
  have hstage : ∀ {j : ι} {st : Lease.Stage} {msg' : Message},
      Function.update s.stage i (some (.opening s.now)) j = some st →
      run.2.delivery j = some msg' →
      (j = i ∧ st = .opening s.now ∧ msg' = msg) ∨
        (j ≠ i ∧ s.stage j = some st ∧ s.run.2.delivery j = some msg') := by
    intro j st msg' hst hd
    rw [hnote] at hd
    change Function.update s.run.2.delivery i (some msg) j = some msg' at hd
    rcases Pool.update_eq_some hst with ⟨rfl, he⟩ | ⟨hne, hold⟩
    · cases he
      rw [Function.update_self] at hd
      cases hd
      exact Or.inl ⟨rfl, rfl, rfl⟩
    · rw [Function.update_of_ne hne] at hd
      exact Or.inr ⟨hne, hold, hd⟩
  refine ⟨hrun, fun k => (h.prolongs msgId k).2, ?_, ?_, ?_⟩
  · intro j st hst
    rcases Pool.update_eq_some hst with ⟨rfl, he⟩ | ⟨hne, hold⟩
    · cases he
      refine ⟨msg, ?_, Lease.Covered.take ?_, ?_⟩
      · show run.2.delivery j = some msg
        rw [hnote]
        exact Function.update_self ..
      · show s.now + T.term ≤ Function.update s.vt msgId (s.now + T.term) msg.msgId
        rw [hid, Function.update_self]
      · show run.1.mem.queue.Hidden msg.msgId
        rw [hpool, hqueue, hid]
        exact Queue.Hidden.of_modify Message.deliver (fun _ => rfl) fun _ => rfl
    · obtain ⟨msg', hd, hholds⟩ := h.held j st hold
      refine ⟨msg', ?_, hholds.covered.extend (h.prolongs msgId _).1, ?_⟩
      · show run.2.delivery j = some msg'
        rw [hnote]
        exact (Function.update_of_ne hne ..).trans hd
      · exact workerStep_hidden hstep (h.issued hd) (fun _ he => by cases he) hholds.hidden
  · intro j k st st' m m' hj hk hdj hdk he
    rcases hstage hj hdj with ⟨rfl, -, rfl⟩ | ⟨hji, hsj, hdj'⟩
    · rcases hstage hk hdk with ⟨rfl, -, -⟩ | ⟨-, hsk, hdk'⟩
      · rfl
      · exact absurd (he.symm.trans hid) (hfree k st' m' hsk hdk')
    · rcases hstage hk hdk with ⟨-, -, rfl⟩ | ⟨-, hsk, hdk'⟩
      · exact absurd (he.trans hid) (hfree j st m hsj hdj')
      · exact h.apart j k st st' m m' hsj hsk hdj' hdk' he
  · intro j p hp hbusy
    change run.1.thread j = some p at hp
    show (Function.update s.stage i (some (.opening s.now)) j).isSome
    by_cases hji : j = i
    · rw [hji, Function.update_self]
      rfl
    · rw [hpool] at hp
      rw [Function.update_of_ne hji]
      exact h.staged j p ((Function.update_of_ne hji ..).symm.trans hp) hbusy

/-- the loops take a step that delivers nothing and moves no stage -/
theorem TimedPool.Inv.work (hT : T.Ample) (h : s.Inv analyze cfg step T)
    {run : WorkerPool ι E τ A × Attempts ι E} {a : WorkerAct ι τ χ} {vt : Nat → Nat}
    {stage : ι → Option Lease.Stage}
    (hs : (recordedSys analyze cfg step).step s.run a = some run)
    (hlease : ∀ i msgId, a ≠ .lease i msgId)
    (hlapse : ∀ msgId, a = .lapse msgId → s.vt msgId ≤ s.now)
    (hvt : ∀ k, s.vt k ≤ vt k ∧ vt k ≤ s.now + T.term)
    (hstage : ∀ i st', stage i = some st' → ∃ st, s.stage i = some st ∧
      ∀ expiry, Lease.Covered T s.now expiry st → Lease.Covered T s.now expiry st')
    (hstaged : ∀ i p, run.1.thread i = some p → idle (some p) = false → (stage i).isSome) :
    ({ s with run, vt, stage } : TimedPool ι E τ A).Inv analyze cfg step T := by
  obtain ⟨hrun, hstep, hnote⟩ := recorded_step h.recorded hs
  have hdel : run.2.delivery = s.run.2.delivery := by
    rw [hnote]
    exact Attempts.note_delivery hlease
  refine h.move hrun hdel (fun k => (hvt k).2) ?_ ?_ ?_ hstaged
  · intro i st' msg hst' _
    obtain ⟨st, hst, hcov⟩ := hstage i st' hst'
    exact ⟨st, hst, fun hholds => (hcov _ hholds.covered).extend (hvt _).1⟩
  · intro i st' hst'
    obtain ⟨st, hst, -⟩ := hstage i st' hst'
    exact ⟨st, hst⟩
  · intro i st msg _ hd hholds
    refine workerStep_hidden hstep (h.issued hd) ?_ hholds.hidden
    rintro msgId he rfl
    exact absurd (hlapse _ he) (Nat.not_le_of_lt (hholds.covered.unlapsed hT))

theorem TimedPool.Inv.still (hT : T.Ample) (h : s.Inv analyze cfg step T)
    {run : WorkerPool ι E τ A × Attempts ι E} {a : WorkerAct ι τ χ} {vt : Nat → Nat}
    (hs : (recordedSys analyze cfg step).step s.run a = some run) (ha : a.moves = false)
    (hlapse : ∀ msgId, a = .lapse msgId → s.vt msgId ≤ s.now)
    (hvt : ∀ k, s.vt k ≤ vt k ∧ vt k ≤ s.now + T.term) :
    ({ s with run, vt } : TimedPool ι E τ A).Inv analyze cfg step T := by
  refine h.work hT hs ?_ hlapse hvt (fun i st' hst => ⟨st', hst, fun _ hcov => hcov⟩)
    fun i p hp => ?_
  · rintro i msgId rfl
    cases ha
  · rw [workerStep_still (recorded_step h.recorded hs).2.1 ha] at hp
    exact h.staged i p hp

theorem TimedPool.Inv.beat (h : s.Inv analyze cfg step T) {i : ι} {st st' : Lease.Stage}
    (hst : s.stage i = some st)
    (hcov : ∀ expiry, Lease.Covered T s.now expiry st → Lease.Covered T s.now expiry st') :
    ({ s with stage := Function.update s.stage i (some st') } :
      TimedPool ι E τ A).Inv analyze cfg step T := by
  have hback : ∀ j st₁, Function.update s.stage i (some st') j = some st₁ →
      ∃ st₀, s.stage j = some st₀ ∧
        ∀ expiry, Lease.Covered T s.now expiry st₀ → Lease.Covered T s.now expiry st₁ := by
    intro j st₁ hj
    rcases Pool.update_eq_some hj with ⟨rfl, he⟩ | ⟨-, hold⟩
    · cases he
      exact ⟨st, hst, hcov⟩
    · exact ⟨st₁, hold, fun _ hc => hc⟩
  refine h.move h.recorded rfl h.bound ?_ ?_ (fun _ _ _ _ _ hholds => hholds.hidden) ?_
  · intro j st₁ msg hj _
    obtain ⟨st₀, hst₀, hc⟩ := hback j st₁ hj
    exact ⟨st₀, hst₀, fun hholds => hc _ hholds.covered⟩
  · intro j st₁ hst₁
    obtain ⟨st₀, hst₀, -⟩ := hback j st₁ hst₁
    exact ⟨st₀, hst₀⟩
  · intro j p hp hbusy
    by_cases hji : j = i
    · rw [hji, Function.update_self]
      rfl
    · rw [Function.update_of_ne hji]
      exact h.staged j p hp hbusy

theorem TimedPool.Inv.renew (h : s.Inv analyze cfg step T)
    {run : WorkerPool ι E τ A × Attempts ι E} {i : ι} {st st' : Lease.Stage} {msg : Message}
    (hst : s.stage i = some st) (hrenew : st.renew = some st')
    (hd : s.run.2.delivery i = some msg)
    (hs : (recordedSys analyze cfg step).step s.run (.extendVt msg.msgId) = some run) :
    ({ s with
      run
      vt := Function.update s.vt msg.msgId (s.now + T.term)
      stage := Function.update s.stage i (some st') } :
      TimedPool ι E τ A).Inv analyze cfg step T := by
  obtain ⟨hrun, hstep, hnote⟩ := recorded_step h.recorded hs
  have hdel : run.2.delivery = s.run.2.delivery := by
    rw [hnote]
    exact Attempts.note_delivery fun _ _ he => by cases he
  have hthread : run.1.thread = s.run.1.thread := workerStep_still hstep rfl
  refine h.move hrun hdel (fun k => (h.prolongs _ k).2) ?_ ?_ ?_ ?_
  · intro j st₁ msg' hj hdj
    rcases Pool.update_eq_some hj with ⟨rfl, he⟩ | ⟨-, hold⟩
    · cases he
      rw [hd] at hdj
      cases hdj
      refine ⟨st, hst, fun hholds => hholds.covered.renew hrenew ?_⟩
      rw [Function.update_self]
    · exact ⟨st₁, hold, fun hholds => hholds.covered.extend (h.prolongs _ _).1⟩
  · intro j st₁ hj
    rcases Pool.update_eq_some hj with ⟨rfl, -⟩ | ⟨-, hold⟩
    · exact ⟨st, hst⟩
    · exact ⟨st₁, hold⟩
  · intro j st₀ msg' _ hdj hholds
    exact workerStep_hidden hstep (h.issued hdj) (fun _ he => by cases he) hholds.hidden
  · intro j p hp hbusy
    by_cases hji : j = i
    · rw [hji, Function.update_self]
      rfl
    · rw [Function.update_of_ne hji]
      rw [hthread] at hp
      exact h.staged j p hp hbusy

/-- a call in the delivery of `i`, which may start the heartbeat, stop it, or be the last -/
theorem TimedPool.Inv.call (hT : T.Ample) (h : s.Inv analyze cfg step T)
    {run : WorkerPool ι E τ A × Attempts ι E} {i : ι} {x : CallOutcome χ}
    (hs : (recordedSys analyze cfg step).step s.run (.call i x) = some run) :
    ({ s with
      run
      stage := Function.update s.stage i (if idle (run.1.thread i) then none else
        (s.stage i).map (heartbeatStage s.now (s.run.1.thread i))) } :
      TimedPool ι E τ A).Inv analyze cfg step T := by
  obtain ⟨-, hstep, -⟩ := recorded_step h.recorded hs
  obtain ⟨c, k, r, m, hi, -, hpool⟩ := Pool.run_some hstep
  refine h.work hT hs (fun _ _ he => by cases he) (fun _ he => by cases he)
    (fun k => ⟨le_refl _, h.bound k⟩) ?_ ?_
  · intro j st' hj
    rcases Pool.update_eq_some hj with ⟨rfl, he⟩ | ⟨-, hold⟩
    · split at he
      · cases he
      · obtain ⟨st, hst, rfl⟩ := Option.map_eq_some_iff.mp he
        refine ⟨st, hst, fun expiry hcov => ?_⟩
        unfold heartbeatStage
        split
        · exact hcov.start
        · exact hcov.stop
        · exact hcov
    · exact ⟨st', hold, fun _ hcov => hcov⟩
  · intro j p hp hbusy
    by_cases hji : j = i
    · subst hji
      rw [Function.update_self, hp, hbusy]
      obtain ⟨st, hst⟩ := Option.isSome_iff_exists.mp (h.staged j _ hi rfl)
      rw [hst]
      rfl
    · rw [Function.update_of_ne hji]
      rw [hpool] at hp
      exact h.staged j p ((Function.update_of_ne hji ..).symm.trans hp) hbusy

theorem TimedPool.Inv.crash (hT : T.Ample) (h : s.Inv analyze cfg step T)
    {run : WorkerPool ι E τ A × Attempts ι E} {i : ι}
    (hs : (recordedSys analyze cfg step).step s.run (.crash i) = some run) :
    ({ s with run, stage := Function.update s.stage i none } :
      TimedPool ι E τ A).Inv analyze cfg step T := by
  obtain ⟨-, hstep, -⟩ := recorded_step h.recorded hs
  have hpool : run.1 = { s.run.1 with thread := Function.update s.run.1.thread i none } :=
    (Option.some.inj hstep).symm
  refine h.work hT hs (fun _ _ he => by cases he) (fun _ he => by cases he)
    (fun k => ⟨le_refl _, h.bound k⟩) ?_ ?_
  · intro j st' hj
    rcases Pool.update_eq_some hj with ⟨-, he⟩ | ⟨-, hold⟩
    · cases he
    · exact ⟨st', hold, fun _ hcov => hcov⟩
  · intro j p hp hbusy
    rw [hpool] at hp
    rcases Pool.update_eq_some hp with ⟨-, he⟩ | ⟨hne, hold⟩
    · cases he
    · rw [Function.update_of_ne hne]
      exact h.staged j p hold hbusy

theorem TimedPool.Inv.stepped (hT : (heartbeatTiming vtSecs delay misses).Ample)
    (h : s.Inv analyze cfg step (heartbeatTiming vtSecs delay misses)) {a : TimedAct ι τ χ}
    {t : TimedPool ι E τ A} (hok : Punctual (heartbeatTiming vtSecs delay misses) s a)
    (hs : timedStep analyze cfg step vtSecs s a = some t) :
    t.Inv analyze cfg step (heartbeatTiming vtSecs delay misses) := by
  cases a with
  | work a =>
    obtain ⟨run, hrun, he⟩ := Option.bind_eq_some_iff.mp hs
    have hvt : ∀ k, s.vt k ≤ s.vt k ∧ s.vt k ≤ s.now + (heartbeatTiming vtSecs delay misses).term :=
      fun k => ⟨le_refl _, h.bound k⟩
    cases a with
    | lease i msgId =>
      cases he
      exact h.lease hrun
    | call i x =>
      cases he
      exact h.call hT hrun
    | crash i =>
      cases he
      exact h.crash hT hrun
    | lapse msgId =>
      obtain ⟨hlapsed, he⟩ := Option.ite_none_right_eq_some.mp he
      cases he
      refine h.still hT hrun rfl (fun k hk => ?_) hvt
      cases hk
      exact hlapsed
    | leaseLost msgId =>
      cases he
      exact h.still hT hrun rfl (fun _ hl => by cases hl) (h.prolongs msgId)
    | extendVt msgId =>
      cases he
      exact h.still hT hrun rfl (fun _ hl => by cases hl) (h.prolongs msgId)
    | submit jobId job =>
      cases he
      exact h.still hT hrun rfl (fun _ hl => by cases hl) hvt
    | submitMany jobs =>
      cases he
      exact h.still hT hrun rfl (fun _ hl => by cases hl) hvt
    | tick now =>
      cases he
      exact h.still hT hrun rfl (fun _ hl => by cases hl) hvt
    | executor x =>
      cases he
      exact h.still hT hrun rfl (fun _ hl => by cases hl) hvt
  | elapse ms =>
    cases hs
    refine ⟨h.recorded, fun k => ?_, fun i st hst => ?_, h.apart, h.staged⟩
    · exact le_trans (h.bound k) (Nat.add_le_add_right (Nat.le_add_right _ _) _)
    · obtain ⟨msg, hd, hholds⟩ := h.held i st hst
      exact ⟨msg, hd, hholds.covered.elapse (Nat.le_add_right _ _) (hok i st hst),
        hholds.hidden⟩
  | wake i =>
    obtain ⟨st, hst, he⟩ := Option.bind_eq_some_iff.mp hs
    obtain ⟨st', hwake, rfl⟩ := Option.map_eq_some_iff.mp he
    exact h.beat hst fun _ hcov => hcov.wake hwake
  | renew i =>
    obtain ⟨st, hst, he⟩ := Option.bind_eq_some_iff.mp hs
    obtain ⟨st', hrenew, he⟩ := Option.bind_eq_some_iff.mp he
    obtain ⟨msg, hd, he⟩ := Option.bind_eq_some_iff.mp he
    obtain ⟨run, hrun, rfl⟩ := Option.map_eq_some_iff.mp he
    exact h.renew hst hrenew hd hrun
  | reply i =>
    obtain ⟨st, hst, he⟩ := Option.bind_eq_some_iff.mp hs
    obtain ⟨st', hreply, rfl⟩ := Option.map_eq_some_iff.mp he
    exact h.beat hst fun _ hcov => hcov.reply hreply (hok st hst)

theorem timed_run (hT : (heartbeatTiming vtSecs delay misses).Ample)
    (h : (timedSys analyze cfg step vtSecs).ReachableIf
      (Punctual (heartbeatTiming vtSecs delay misses)) s) :
    s.Inv analyze cfg step (heartbeatTiming vtSecs delay misses) := by
  refine h.rule ?_ fun s a t hI hok hs => hI.stepped hT hok hs
  rintro s ⟨hinit, hvt, hstage⟩
  refine ⟨Sys.Reachable.init hinit, fun k => ?_, fun i st hst => ?_, fun i j st st' _ _ hi => ?_,
    fun i p hp => ?_⟩
  · rw [hvt k]
    exact Nat.zero_le _
  · rw [hstage i] at hst
    cases hst
  · rw [hstage i] at hi
    cases hi
  · rw [hinit.1.2.2.2 i] at hp
    cases hp

/-- loop `i` is in a delivery of `msg`: leased, and the program of `handle` has not returned -/
def TimedPool.Delivers (s : TimedPool ι E τ A) (i : ι) (msg : Message) : Prop :=
  s.run.2.delivery i = some msg ∧ ∃ p, s.run.1.thread i = some p ∧ idle (some p) = false

end

/-! ## two loops -/

instance {E τ χ : Type} {A : E → Type} (T : Lease.Timing) (s : TimedPool Bool E τ A)
    (a : TimedAct Bool τ χ) : Decidable (Punctual T s a) :=
  match a with
  | .elapse ms => inferInstanceAs (Decidable (∀ i, ∀ st ∈ s.stage i, s.now + ms ≤ st.due T))
  | .reply i => inferInstanceAs (Decidable (∀ st ∈ s.stage i, st.mayMiss T.misses = true))
  | .work _ => isTrue trivial
  | .wake _ => isTrue trivial
  | .renew _ => isTrue trivial

/-- two loops of one process, whose engine answers what the run says -/
abbrev timedPair (vtSecs : Int) :
    Sys (TimedPool Bool EngineCall Unit fun _ => AppResult Json)
      (TimedAct Bool Unit (AppResult Json)) :=
  timedSys localExecutor ⟨3⟩ (fun _ _ r t => some (r, t)) vtSecs

def idleLoops : TimedPool Bool EngineCall Unit fun _ => AppResult Json :=
  { run := (⟨⟨Jobs.empty, Queue.empty, 0, [], ()⟩, fun _ => none⟩, Attempts.start)
    now := 0
    vt := fun _ => 0
    stage := fun _ => none }

def leaseFirst : List (TimedAct Bool Unit (AppResult Json)) :=
  [.work (.submit 1 ⟨"(;B[pd])", none⟩), .work (.lease false 1), .work (.call false .ok),
    .work (.call false .ok)]

/-- the analysis outlasts the four seconds of the lease, the second heartbeat late -/
def longAnalysis : List (TimedAct Bool Unit (AppResult Json)) :=
  leaseFirst ++ [.elapse 2000, .wake false, .renew false, .elapse 80, .reply false,
    .elapse 2090, .wake false, .renew false, .reply false]

def afterLong : TimedPool Bool EngineCall Unit fun _ => AppResult Json :=
  ((timedPair 4).exec idleLoops longAnalysis).getD idleLoops

theorem idleLoops_init (vtSecs : Int) : (timedPair vtSecs).init idleLoops :=
  ⟨⟨⟨rfl, rfl, rfl, fun _ => rfl⟩, rfl⟩, fun _ => rfl, fun _ => rfl⟩

/-- One failed heartbeat is too many when the timeout is even: the next comes as the lease lapses,
and the other loop may be faster. -/
example :
    ((timedPair 2).exec idleLoops (leaseFirst ++ [.elapse 1000, .wake false, .reply false,
      .elapse 1000, .work (.lapse 1), .work (.lease true 1)])).map
        (fun s => (s.stage false, s.stage true)) =
      some (some (.asleep 1000 1), some (.opening 2000)) :=
  rfl

end KatagoWs
