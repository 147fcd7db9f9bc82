import Mathlib.Data.List.Perm.Subperm
import KatagoWs.Announced

/-!
# Attempts: how often a job is analysed, and when it fails

The queue counts the deliveries of a message; `handle` reads the count once and decides whether
this delivery analyses the job or gives it up.  A run is recorded with the delivery every loop is
in and the calls made in each; the executor is announced, so that entering it is one of them.

* `Handling`             what the program of one delivery may still do: it enters the executor
                         once, and never once the message is poisoned, and only then it fails
                         its job;
* `Ledger`               the counts of the queue are those of no earlier delivery;
* `Accounted`            the invariant of a recorded run, `Accounted.stepped` one step of it;
* `Reachable.attempts`   every run of the loops is recorded;
* `attempts_bounded`     a job is analysed `max_attempts` times at most, and fails only in a
                         delivery past them.
-/

set_option linter.unusedSectionVars false

namespace KatagoWs
open Lib

/-! ## what a delivery may do -/

section
variable {E : Type} {A : E → Type}

/-- the call fails no job but the one of a message delivered too often -/
def Call.failsOnly (cfg : WorkerConfig) (msg : Message) : Call E → Prop
  | .store (.setFailed jobId _) => jobId = msg.message.jobId ∧ cfg.maxAttempts < msg.readCt
  | _ => True

def May {α : Type} (enters : Call E → Bool) (p : Prog (Call E) (Answer A) α) : Prop :=
  ¬ p.All fun c => ¬ enters c

/-- what is left of the delivery of `msg`, when `enters` says which call enters the executor -/
structure Handling (enters : Call E → Bool) (cfg : WorkerConfig) (msg : Message)
    (p : Prog (Call E) (Answer A) (Except AppError Unit)) : Prop where
  fails : p.All (Call.failsOnly cfg msg)
  once : p.Once fun c => enters c
  poison : cfg.maxAttempts < msg.readCt → ¬ May enters p

theorem tryStore_all {P : Call E → Prop} {c : StoreCall} (h : P (.store c)) :
    (tryStore (A := A) c).run.All P := ⟨h, fun _ => trivial⟩

/-- the calls of `handle` after the analysis -/
theorem settle_all {P : Call E → Prop} (hdrop : ∀ msgId, P (.dropHeartbeat msgId))
    (hstore : ∀ c, (∀ jobId error, c ≠ .setFailed jobId error) → P (.store c)) (msg : Message)
    (result : AppResult Json) :
    Prog.All P (do
      dropHeartbeat msg.msgId
      match result with
      | .ok value =>
        tryStore (.setDone msg.message.jobId value)
        tryStore (.archive msg.msgId)
      | .error err => tryStore (.recordAttemptFailure msg.message.jobId err.toString) :
      HandleM E A Unit).run := by
  refine Prog.All.andThen (Prog.All.lift ⟨hdrop _, fun _ => trivial⟩) fun _ => ?_
  cases result with
  | ok value =>
    exact Prog.All.andThen (tryStore_all (hstore _ (by simp)))
      fun _ => tryStore_all (hstore _ (by simp))
  | error err => exact tryStore_all (hstore _ (by simp))

theorem handle_fails (analyze : Executor E A) (cfg : WorkerConfig) (msg : Message) :
    (handle analyze cfg msg).run.All (Call.failsOnly cfg msg) := by
  unfold handle
  dsimp only
  split
  case isTrue hpoison =>
    exact Prog.All.andThen (tryStore_all ⟨rfl, hpoison⟩) fun _ => tryStore_all trivial
  case isFalse =>
    refine Prog.All.andThen (tryStore_all trivial) fun _ => ?_
    refine Prog.All.andThen (Prog.All.lift ⟨trivial, fun _ => trivial⟩) fun _ => ?_
    refine Prog.All.andThen (Prog.All.lift (Prog.All.embed (fun _ => trivial) _)) fun result => ?_
    refine settle_all (fun _ => trivial) (fun c hc => ?_) msg result
    cases c with
    | setFailed jobId error => exact absurd rfl (hc jobId error)
    | _ => trivial

theorem announced_own {α : Type} (p : Prog E A α) :
    Prog.All (R := Answer (Voiced A)) (fun c => ¬ Call.enters c)
      (Prog.embed Call.exec (fun _ a => a)
        (Prog.embed (Q := Voiced A) some (fun _ a => a) p)) := by
  induction p with
  | ret a => trivial
  | call e k ih => exact ⟨Bool.false_ne_true, ih⟩

/-- **The program of one delivery** enters the executor once, and never for a poisoned message. -/
theorem handle_handling (analyze : Executor E A) (cfg : WorkerConfig) (msg : Message) :
    Handling Call.enters cfg msg (handle (announced analyze) cfg msg).run := by
  have hno : ∀ c : StoreCall, ¬ (Call.store c : Call (Option E)).enters :=
    fun _ => Bool.false_ne_true
  refine ⟨handle_fails _ cfg msg, ?_, fun hp hmay => hmay ?_⟩
  · unfold handle
    dsimp only
    split
    case isTrue =>
      exact Prog.Once.of_all (Prog.All.andThen (tryStore_all (hno _))
        fun _ => tryStore_all (hno _))
    case isFalse =>
      refine Prog.Once.afterThen (tryStore_all (hno _)) fun _ => ?_
      refine Prog.Once.afterThen ?_ fun _ => ?_
      · exact ⟨Bool.false_ne_true, fun _ => trivial⟩
      refine Prog.Once.beforeThen ?_ fun result =>
        settle_all (fun _ => Bool.false_ne_true) (fun c _ => hno c) msg result
      -- the entry comes first, and the executor's own calls are no entries
      have hown := announced_own (analyze msg.message.jobId msg.message.sgf
        msg.message.humanProfile)
      exact ⟨fun _ _ => hown.bind fun _ => trivial,
        fun _ => Prog.Once.of_all (hown.bind fun _ => trivial)⟩
  · unfold handle
    dsimp only
    rw [if_pos hp]
    exact Prog.All.andThen (tryStore_all (hno _)) fun _ => tryStore_all (hno _)

/-- a delivery of which no call is looked for -/
theorem handle_unwatched (analyze : Executor E A) (cfg : WorkerConfig) (msg : Message) :
    Handling (fun _ => false) cfg msg (handle analyze cfg msg).run := by
  have hall : ∀ {α : Type} (p : Prog (Call E) (Answer A) α), p.All fun _ => ¬ false = true := by
    intro α p
    induction p with
    | ret a => trivial
    | call c k ih => exact ⟨Bool.false_ne_true, ih⟩
  exact ⟨handle_fails analyze cfg msg, Prog.Once.of_all (hall _), fun _ hmay => hmay (hall _)⟩

theorem Handling.next {enters : Call E → Bool} {cfg : WorkerConfig} {msg : Message} {c : Call E}
    {k : Answer A c → Prog (Call E) (Answer A) (Except AppError Unit)}
    (h : Handling enters cfg msg (.call c k)) (r : Answer A c) : Handling enters cfg msg (k r) :=
  ⟨h.fails.2 r, h.once.2 r, fun hp hmay => h.poison hp fun hall => hmay (hall.2 r)⟩

end

/-! ## a run, recorded -/

/-- the delivery every loop took last, and the calls made, each in its delivery -/
structure Attempts (ι E : Type) where
  delivery : ι → Option Message
  calls : List (Message × Call E)

section
variable {ι E τ χ : Type} {A : E → Type} [DecidableEq ι]

def Attempts.start : Attempts ι E := ⟨fun _ => none, []⟩

def Attempts.made (h : Attempts ι E) (i : ι) (c : Call E) : Attempts ι E :=
  { h with calls := (h.delivery i).toList.map (·, c) ++ h.calls }

def Attempts.note (s : WorkerPool ι E τ A) (a : WorkerAct ι τ χ) (h : Attempts ι E) :
    Attempts ι E :=
  match a with
  | .lease i msgId =>
    match s.mem.queue.read msgId with
    | some (msg, _) => { h with delivery := Function.update h.delivery i (some msg) }
    | none => h
  | .call i _ =>
    match s.thread i with
    | some (.call c _) => h.made i c
    | _ => h
  | _ => h

/-- the deliveries of the calls that enter the executor, one for each call -/
def Attempts.entries (enters : Call E → Bool) (h : Attempts ι E) : List Message :=
  (h.calls.filter fun p => enters p.2).map Prod.fst

section
variable {s : WorkerPool ι E τ A} {h : Attempts ι E} {i : ι}

theorem Attempts.note_lease {msgId : Nat} {msg : Message} {queue : Queue}
    (hr : s.mem.queue.read msgId = some (msg, queue)) :
    Attempts.note s (.lease i msgId : WorkerAct ι τ χ) h
      = { h with delivery := Function.update h.delivery i (some msg) } := by
  unfold Attempts.note
  dsimp only
  rw [hr]

theorem Attempts.note_call {x : CallOutcome χ} {c : Call E}
    {k : Answer A c → Prog (Call E) (Answer A) (Except AppError Unit)}
    (hi : s.thread i = some (.call c k)) :
    Attempts.note s (.call i x : WorkerAct ι τ χ) h = h.made i c := by
  unfold Attempts.note
  dsimp only
  rw [hi]

theorem Attempts.made_entries {enters : Call E → Bool} {msg : Message} {c : Call E}
    (hd : h.delivery i = some msg) : (h.made i c).entries enters
      = if enters c then msg :: h.entries enters else h.entries enters := by
  unfold Attempts.made Attempts.entries
  rw [hd]
  show (((msg, c) :: h.calls).filter _).map _ = _
  rw [List.filter_cons]
  split <;> rfl

end

def recordedSys (analyze : Executor E A) (cfg : WorkerConfig) (step : ExecutorStep ι E τ χ A) :
    Sys (WorkerPool ι E τ A × Attempts ι E) (WorkerAct ι τ χ) :=
  (workerSys analyze cfg step).withHistory Attempts.start Attempts.note

theorem recorded_reachable {analyze : Executor E A} {cfg : WorkerConfig}
    {step : ExecutorStep ι E τ χ A} {s : WorkerPool ι E τ A} :
    (workerSys analyze cfg step).Reachable s ↔
      ∃ h, (recordedSys analyze cfg step).Reachable (s, h) :=
  Sys.withHistory_reachable

/-- **Every run of the loops is recorded**, with its executor announced. -/
theorem Reachable.attempts {analyze : Executor E A} {cfg : WorkerConfig}
    {step : ExecutorStep ι E τ χ A} {s : WorkerPool ι E τ A}
    (h : (workerSys analyze cfg step).Reachable s) :
    ∃ p, (recordedSys (announced analyze) cfg (announcing step)).Reachable p ∧
      silentPool p.1 = s := by
  obtain ⟨t, ht, hsilent⟩ := announced_refines.reachable h.always
  obtain ⟨record, hrecord⟩ := recorded_reachable.mp ht
  exact ⟨(t, record), hrecord, hsilent⟩

def Attempts.Seen (h : Attempts ι E) (m : Message) : Prop :=
  (∃ c, (m, c) ∈ h.calls) ∨ ∃ i, h.delivery i = some m

theorem Attempts.made_seen {h : Attempts ι E} {i : ι} {c : Call E} {m : Message}
    (hm : (h.made i c).Seen m) : h.Seen m := by
  rcases hm with ⟨c', hm⟩ | ⟨j, hj⟩
  · rcases List.mem_append.mp hm with hm | hm
    · obtain ⟨w, hw, he⟩ := List.mem_map.mp hm
      cases he
      exact Or.inr ⟨i, Option.mem_toList.mp hw⟩
    · exact Or.inl ⟨c', hm⟩
  · exact Or.inr ⟨j, hj⟩

theorem Attempts.seen_of_entry {enters : Call E → Bool} {h : Attempts ι E} {m : Message}
    (hm : m ∈ h.entries enters) : h.Seen m := by
  obtain ⟨⟨w, c⟩, hp, rfl⟩ := List.mem_map.mp hm
  exact Or.inl ⟨c, (List.mem_filter.mp hp).1⟩

def Message.key (m : Message) : Nat × Nat := (m.msgId, m.readCt)

/-! ## the counts of the queue -/

/-- the deliveries seen so far: their message is the only one of its job, and the queue has
counted them -/
structure Ledger (s : Store τ) (seen : Message → Prop) : Prop where
  issued : ∀ m, seen m → m.msgId < s.queue.nextMsgId
  row : ∀ m, seen m ∨ m ∈ s.queue.active → m.message.jobId ∈ s.jobs.ids
  one : ∀ m w, (seen m ∨ m ∈ s.queue.active) → (seen w ∨ w ∈ s.queue.active) →
    m.message.jobId = w.message.jobId → m.msgId = w.msgId
  counted : ∀ m, seen m → ∀ w ∈ s.queue.active, w.msgId = m.msgId → m.readCt ≤ w.readCt
  positive : ∀ m, seen m → 1 ≤ m.readCt

theorem Ledger.counts {s t : Store τ} {seen : Message → Prop} (h : Ledger s seen)
    (hids : t.jobs.ids = s.jobs.ids) (hnext : s.queue.nextMsgId ≤ t.queue.nextMsgId)
    (hq : s.queue.Counts t.queue) : Ledger t seen := by
  have hback : ∀ m, seen m ∨ m ∈ t.queue.active → ∃ w, (seen w ∨ w ∈ s.queue.active) ∧
      w.msgId = m.msgId ∧ w.message = m.message := by
    rintro m (hm | hm)
    · exact ⟨m, Or.inl hm, rfl, rfl⟩
    · obtain ⟨w, hw, h1, h2, _⟩ := hq m hm
      exact ⟨w, Or.inr hw, h1, h2⟩
  refine ⟨fun m hm => lt_of_lt_of_le (h.issued m hm) hnext, ?_, ?_, ?_, h.positive⟩
  · intro m hm
    obtain ⟨w, hw, _, hb⟩ := hback m hm
    rw [hids, ← hb]
    exact h.row w hw
  · intro m v hm hv hj
    obtain ⟨m', hm', h1, h2⟩ := hback m hm
    obtain ⟨v', hv', h3, h4⟩ := hback v hv
    rw [← h1, ← h3]
    exact h.one m' v' hm' hv' (by rw [h2, h4, hj])
  · intro m hm w hw he
    obtain ⟨v, hv, h1, _, hle⟩ := hq w hw
    exact le_trans (h.counted m hm v hv (h1.trans he)) hle

theorem Ledger.mono {s : Store τ} {seen seen' : Message → Prop} (h : Ledger s seen)
    (hs : ∀ m, seen' m → seen m) : Ledger s seen' :=
  ⟨fun m hm => h.issued m (hs m hm), fun m hm => h.row m (hm.imp_left (hs m)),
    fun m w hm hw => h.one m w (hm.imp_left (hs m)) (hw.imp_left (hs w)),
    fun m hm => h.counted m (hs m hm), fun m hm => h.positive m (hs m hm)⟩

/-- a job that is submitted is new, and so is its message -/
theorem Ledger.submit {s t : Store τ} {seen : Message → Prop} {p : Uuid × NewJob}
    (h : Ledger s seen) (hs : submitOne s p = some t) : Ledger t seen := by
  obtain ⟨jobs, hins, rfl⟩ := Option.map_eq_some_iff.mp hs
  obtain ⟨hnew, hrows, _⟩ := Jobs.insert_spec hins
  have hids : jobs.ids = s.jobs.ids ++ [p.1] := by
    show jobs.rows.map Job.id = _
    rw [hrows, List.map_append]
    rfl
  set fresh : Message := ⟨s.queue.nextMsgId, 0, p.2.intoMessage p.1, true⟩ with hf
  have hactive : ∀ m, m ∈ (s.queue.send (p.2.intoMessage p.1)).active ↔
      m ∈ s.queue.active ∨ m = fresh := fun m => by
    show m ∈ s.queue.active ++ [fresh] ↔ _
    rw [List.mem_append, List.mem_singleton]
  have hold : ∀ m, (seen m ∨ m ∈ (s.queue.send (p.2.intoMessage p.1)).active) →
      (seen m ∨ m ∈ s.queue.active) ∨ m = fresh := by
    rintro m (hm | hm)
    · exact Or.inl (Or.inl hm)
    · exact ((hactive m).mp hm).imp_left Or.inr
  have hne : ∀ m, (seen m ∨ m ∈ s.queue.active) → m.message.jobId ≠ fresh.message.jobId :=
    fun m hm (he : m.message.jobId = p.1) => hnew (he ▸ h.row m hm)
  refine ⟨fun m hm => Nat.lt_succ_of_lt (h.issued m hm), ?_, ?_, ?_, h.positive⟩
  · intro m hm
    rw [hids, List.mem_append]
    rcases hold m hm with hm | rfl
    · exact Or.inl (h.row m hm)
    · exact Or.inr (List.mem_singleton.mpr rfl)
  · intro m w hm hw hj
    rcases hold m hm with hm | rfl <;> rcases hold w hw with hw | rfl
    · exact h.one m w hm hw hj
    · exact absurd hj (hne m hm)
    · exact absurd hj.symm (hne w hw)
    · rfl
  · intro m hm w hw he
    rcases (hactive w).mp hw with hw | rfl
    · exact h.counted m hm w hw he
    · exact absurd he (ne_of_gt (h.issued m hm))

theorem Ledger.submitMany {s t : Store τ} {seen : Message → Prop} {jobs : List (Uuid × NewJob)}
    (h : Ledger s seen) (hs : submitMany s jobs = some t) : Ledger t seen := by
  have hfold : ∀ (l : List (Uuid × NewJob)) (s t : Store τ), Ledger s seen →
      l.foldlM submitOne s = some t → Ledger t seen := by
    intro l
    induction l with
    | nil => intro s t h hs; cases hs; exact h
    | cons p l ih =>
      intro s t h hs
      rw [List.foldlM_cons] at hs
      obtain ⟨u, h1, h2⟩ := Option.bind_eq_some_iff.mp hs
      exact ih u t (h.submit h1) h2
  unfold KatagoWs.submitMany at hs
  split at hs
  · cases hs; exact h
  · exact hfold jobs s t h hs

/-- **A delivery** is one no ledger has yet: its number is new. -/
theorem Ledger.deliver {s : Store τ} {seen seen' : Message → Prop} {msgId : Nat} {msg : Message}
    {queue : Queue} (h : Ledger s seen) (hr : s.queue.read msgId = some (msg, queue))
    (hseen : ∀ m, seen' m → seen m ∨ m = msg) :
    Ledger { s with queue } seen' ∧ ∀ m, seen m → m.key ≠ msg.key := by
  obtain ⟨⟨w, hw, _, _, rfl⟩, _, _, hnext⟩ := Queue.read_spec hr
  obtain ⟨hcounts, hmost⟩ := Queue.read_counts hr
  have hk : Ledger { s with queue } seen := h.counts rfl (le_of_eq hnext.symm) hcounts
  have hkey : ∀ m, seen m → m.key ≠ w.deliver.key := by
    intro m hm he
    obtain ⟨h1, h2⟩ := Prod.mk.inj he
    have hle := h.counted m hm w hw h1.symm
    have hct : m.readCt = w.readCt + 1 := h2
    omega
  -- the message delivered stands for the active one it was read from
  have hback : ∀ m, (seen' m ∨ m ∈ queue.active) → ∃ v, (seen v ∨ v ∈ s.queue.active) ∧
      v.msgId = m.msgId ∧ v.message = m.message := by
    rintro m (hm | hm)
    · rcases hseen m hm with hm | rfl
      · exact ⟨m, Or.inl hm, rfl, rfl⟩
      · exact ⟨w, Or.inr hw, rfl, rfl⟩
    · obtain ⟨v, hv, h1, h2, _⟩ := hcounts m hm
      exact ⟨v, Or.inr hv, h1, h2⟩
  refine ⟨⟨?_, ?_, ?_, ?_, ?_⟩, hkey⟩
  · intro m hm
    rcases hseen m hm with hm | rfl
    · exact hk.issued m hm
    · show w.msgId < queue.nextMsgId
      rw [hnext]
      exact s.queue.fresh w hw
  · intro m hm
    obtain ⟨v, hv, _, hb⟩ := hback m hm
    rw [← hb]
    exact h.row v hv
  · intro m v hm hv hj
    obtain ⟨m', hm', h1, h2⟩ := hback m hm
    obtain ⟨v', hv', h3, h4⟩ := hback v hv
    rw [← h1, ← h3]
    exact h.one m' v' hm' hv' (by rw [h2, h4, hj])
  · intro m hm v hv he
    rcases hseen m hm with hm | rfl
    · exact hk.counted m hm v hv he
    · exact hmost v hv he
  · intro m hm
    rcases hseen m hm with hm | rfl
    · exact h.positive m hm
    · exact Nat.le_add_left 1 w.readCt

theorem Jobs.update_ids {t t' : Jobs} {now : Timestamp} {p : Job → Bool} {c : JobSet}
    (h : t.update now p c = some t') : t'.ids = t.ids := by
  unfold Jobs.update at h
  split at h
  case isFalse => cases h
  case isTrue =>
    cases h
    exact updateRows_ids now p c t.rows t.seq

theorem StoreCall.apply_ledger {c : StoreCall} {s t : Store τ} {seen : Message → Prop}
    (h : Ledger s seen) (hs : c.apply s = some t) : Ledger t seen := by
  cases c with
  | archive msgId =>
    cases hs
    exact h.counts rfl (le_refl _) (Queue.archive_counts _ _)
  | _ =>
    obtain ⟨_, hu, rfl⟩ := Option.map_eq_some_iff.mp hs
    exact h.counts (Jobs.update_ids hu) (le_refl _) (Queue.Counts.refl _)

theorem Call.step_ledger {step : ExecutorStep ι E τ χ A} {i : ι} {c : Call E} {x : CallOutcome χ}
    {s t : Store τ} {r : Answer A c} {seen : Message → Prop} (h : Ledger s seen)
    (hs : Call.step step i c x s = some (r, t)) : Ledger t seen := by
  cases c with
  | store c =>
    rcases StoreCall.exec_cases hs with ha | ⟨rfl, _⟩
    · exact StoreCall.apply_ledger h ha
    · exact h
  | startHeartbeat msgId => rw [startHeartbeat_step hs]; exact h
  | dropHeartbeat msgId => rw [dropHeartbeat_step hs]; exact h
  | exec e =>
    cases x with
    | exec y =>
      obtain ⟨⟨_, _⟩, _, e2⟩ := Option.map_eq_some_iff.mp hs
      cases e2
      exact h.counts rfl (le_refl _) (Queue.Counts.refl _)
    | ok => cases hs
    | err msg => cases hs
    | lost msg => cases hs

/-! ## the invariant of a recorded run -/

structure Accounted (enters : Call E → Bool) (cfg : WorkerConfig) (s : WorkerPool ι E τ A)
    (h : Attempts ι E) : Prop where
  ledger : Ledger s.mem h.Seen
  handling : ∀ i p, s.thread i = some p →
    ∃ msg, h.delivery i = some msg ∧ Handling enters cfg msg p
  fresh : ∀ i p msg, s.thread i = some p → May enters p → h.delivery i = some msg →
    msg.key ∉ (h.entries enters).map Message.key
  apart : ∀ i j p q msg msg', i ≠ j → s.thread i = some p → s.thread j = some q →
    May enters p → May enters q → h.delivery i = some msg → h.delivery j = some msg' →
    msg.key ≠ msg'.key
  once : ((h.entries enters).map Message.key).Nodup
  bounded : ∀ m ∈ h.entries enters, (m.readCt : Int) ≤ cfg.maxAttempts

variable {analyze : Executor E A} {cfg : WorkerConfig} {step : ExecutorStep ι E τ χ A}
  {enters : Call E → Bool}

theorem Accounted.env {s : WorkerPool ι E τ A} {h : Attempts ι E} {m : Store τ}
    (ha : Accounted enters cfg s h) (hm : Ledger m h.Seen) :
    Accounted enters cfg { s with mem := m } h :=
  ⟨hm, ha.handling, ha.fresh, ha.apart, ha.once, ha.bounded⟩

/-- a loop stops, or goes on in the same delivery without entering the executor -/
theorem Accounted.go {s : WorkerPool ι E τ A} {h : Attempts ι E} {m : Store τ} {i : ι}
    {q : Option (Prog (Call E) (Answer A) (Except AppError Unit))}
    (ha : Accounted enters cfg s h) (hm : Ledger m h.Seen)
    (hq : ∀ p', q = some p' → ∃ p, s.thread i = some p ∧ (May enters p' → May enters p) ∧
      ∀ msg, Handling enters cfg msg p → Handling enters cfg msg p') :
    Accounted enters cfg { mem := m, thread := Function.update s.thread i q } h := by
  have hthread : ∀ j p', Function.update s.thread i q j = some p' →
      ∃ p, s.thread j = some p ∧ (May enters p' → May enters p) ∧
        ∀ msg, Handling enters cfg msg p → Handling enters cfg msg p' := by
    intro j p' hj
    rcases Pool.update_eq_some hj with ⟨rfl, he⟩ | ⟨_, hj⟩
    · exact hq p' he
    · exact ⟨p', hj, id, fun _ => id⟩
  refine ⟨hm, ?_, ?_, ?_, ha.once, ha.bounded⟩
  · intro j p' hj
    obtain ⟨p, hp, _, hh⟩ := hthread j p' hj
    obtain ⟨msg, hd, hmsg⟩ := ha.handling j p hp
    exact ⟨msg, hd, hh msg hmsg⟩
  · intro j p' msg hj hmay hd
    obtain ⟨p, hp, hmp, _⟩ := hthread j p' hj
    exact ha.fresh j p msg hp (hmp hmay) hd
  · intro j k p' q' msg msg' hne hj hk hmay hmay' hd hd'
    obtain ⟨p, hp, hmp, _⟩ := hthread j p' hj
    obtain ⟨p₂, hp₂, hmp₂, _⟩ := hthread k q' hk
    exact ha.apart j k p p₂ msg msg' hne hp hp₂ (hmp hmay) (hmp₂ hmay') hd hd'

theorem Accounted.made {s : WorkerPool ι E τ A} {h : Attempts ι E} {i : ι} {c : Call E}
    {msg : Message} (ha : Accounted enters cfg s h) (hd : h.delivery i = some msg)
    (hc : ¬ enters c) : Accounted enters cfg s (h.made i c) := by
  have hentries : (h.made i c).entries enters = h.entries enters :=
    (Attempts.made_entries hd).trans (if_neg hc)
  refine ⟨ha.ledger.mono fun _ => Attempts.made_seen, ha.handling, ?_, ha.apart, ?_, ?_⟩
  · rw [hentries]
    exact ha.fresh
  · rw [hentries]
    exact ha.once
  · rw [hentries]
    exact ha.bounded

theorem Accounted.enter {s : WorkerPool ι E τ A} {h : Attempts ι E} {m : Store τ} {i : ι}
    {c : Call E} {k : Answer A c → Prog (Call E) (Answer A) (Except AppError Unit)}
    (ha : Accounted enters cfg s h) (hm : Ledger m h.Seen) (hi : s.thread i = some (.call c k))
    (hc : enters c) (r : Answer A c) :
    Accounted enters cfg { mem := m, thread := Function.update s.thread i (some (k r)) }
      (h.made i c) := by
  obtain ⟨msg, hd, hh⟩ := ha.handling i _ hi
  have hmay : May enters (.call c k) := fun hall => hall.1 hc
  have hnot : ¬ May enters (k r) := fun hn => hn (hh.once.1 hc r)
  have hnew := ha.fresh i _ msg hi hmay hd
  have hentries : (h.made i c).entries enters = msg :: h.entries enters :=
    (Attempts.made_entries hd).trans (if_pos hc)
  refine ⟨hm.mono fun _ => Attempts.made_seen, ?_, ?_, ?_, ?_, ?_⟩
  · intro j p' hj
    rcases Pool.update_eq_some hj with ⟨rfl, he⟩ | ⟨_, hj⟩
    · cases he
      exact ⟨msg, hd, hh.next r⟩
    · exact ha.handling j p' hj
  · intro j p' msg' hj hmay' hd'
    rcases Pool.update_eq_some hj with ⟨rfl, he⟩ | ⟨hne, hj⟩
    · cases he
      exact absurd hmay' hnot
    · rw [hentries, List.map_cons, List.mem_cons, not_or]
      exact ⟨ha.apart j i p' _ msg' msg hne hj hi hmay' hmay hd' hd,
        ha.fresh j p' msg' hj hmay' hd'⟩
  · intro j l p' q' m₁ m₂ hne hj hl hmay₁ hmay₂ hd₁ hd₂
    rcases Pool.update_eq_some hj with ⟨rfl, he⟩ | ⟨_, hj⟩
    · cases he
      exact absurd hmay₁ hnot
    · rcases Pool.update_eq_some hl with ⟨rfl, he⟩ | ⟨_, hl⟩
      · cases he
        exact absurd hmay₂ hnot
      · exact ha.apart j l p' q' m₁ m₂ hne hj hl hmay₁ hmay₂ hd₁ hd₂
  · rw [hentries, List.map_cons]
    exact List.nodup_cons.mpr ⟨hnew, ha.once⟩
  · intro m' hm'
    rw [hentries] at hm'
    rcases List.mem_cons.mp hm' with rfl | hm'
    · exact Int.not_lt.mp fun hp => hh.poison hp hmay
    · exact ha.bounded m' hm'

theorem Accounted.lease {s : WorkerPool ι E τ A} {h : Attempts ι E} {i : ι} {msgId : Nat}
    {msg : Message} {queue : Queue}
    (hhandle : Handling enters cfg msg (handle analyze cfg msg).run)
    (ha : Accounted enters cfg s h) (hr : s.mem.queue.read msgId = some (msg, queue)) :
    Accounted enters cfg
      { mem := { s.mem with queue }
        thread := Function.update s.thread i (some (handle analyze cfg msg).run) }
      { h with delivery := Function.update h.delivery i (some msg) } := by
  set h' : Attempts ι E := { h with delivery := Function.update h.delivery i (some msg) }
  have hseen : ∀ m, h'.Seen m → h.Seen m ∨ m = msg := by
    rintro m (hm | ⟨j, hj⟩)
    · exact Or.inl (Or.inl hm)
    · rcases Pool.update_eq_some hj with ⟨_, he⟩ | ⟨_, hj⟩
      · exact Or.inr (Option.some.inj he).symm
      · exact Or.inl (Or.inr ⟨j, hj⟩)
  obtain ⟨hledger, hnew⟩ := ha.ledger.deliver hr hseen
  have hown : ∀ m, h'.delivery i = some m → m = msg := by
    intro m hm
    exact (Option.some.inj ((Function.update_self i _ h.delivery).symm.trans hm)).symm
  have hother : ∀ j m, j ≠ i → h'.delivery j = some m → h.delivery j = some m := by
    intro j m hne hm
    exact (Function.update_of_ne hne _ h.delivery).symm.trans hm
  refine ⟨hledger, ?_, ?_, ?_, ha.once, ha.bounded⟩
  · intro j p hj
    rcases Pool.update_eq_some hj with ⟨rfl, he⟩ | ⟨hne, hj⟩
    · cases he
      exact ⟨msg, Function.update_self _ _ _, hhandle⟩
    · obtain ⟨m, hd, hm⟩ := ha.handling j p hj
      exact ⟨m, (Function.update_of_ne hne _ _).trans hd, hm⟩
  · intro j p m hj hmay hd
    rcases Pool.update_eq_some hj with ⟨rfl, _⟩ | ⟨hne, hj⟩
    · rw [hown m hd]
      intro hm
      obtain ⟨w, hw, he⟩ := List.mem_map.mp hm
      exact hnew w (Attempts.seen_of_entry (h := h) hw) he
    · exact ha.fresh j p m hj hmay (hother j m hne hd)
  · intro j l p q m₁ m₂ hne hj hl hmay₁ hmay₂ hd₁ hd₂
    rcases Pool.update_eq_some hj with ⟨rfl, _⟩ | ⟨hji, hj⟩
    · rw [hown m₁ hd₁]
      exact (hnew m₂ (Or.inr ⟨l, hother l m₂ hne.symm hd₂⟩)).symm
    · rcases Pool.update_eq_some hl with ⟨rfl, _⟩ | ⟨hli, hl⟩
      · rw [hown m₂ hd₂]
        exact hnew m₁ (Or.inr ⟨j, hother j m₁ hji hd₁⟩)
      · exact ha.apart j l p q m₁ m₂ hne hj hl hmay₁ hmay₂ (hother j m₁ hji hd₁)
          (hother l m₂ hli hd₂)

theorem Accounted.stepped (hhandle : ∀ msg, Handling enters cfg msg (handle analyze cfg msg).run)
    {s t : WorkerPool ι E τ A} {h : Attempts ι E} {a : WorkerAct ι τ χ}
    (ha : Accounted enters cfg s h) (hs : workerStep analyze cfg step s a = some t) :
    Accounted enters cfg t (h.note s a) := by
  cases a with
  | submit jobId job =>
    obtain ⟨m, hm, rfl⟩ := Option.map_eq_some_iff.mp hs
    exact ha.env (ha.ledger.submit hm)
  | submitMany jobs =>
    obtain ⟨m, hm, rfl⟩ := Option.map_eq_some_iff.mp hs
    exact ha.env (ha.ledger.submitMany hm)
  | lease i msgId =>
    obtain ⟨_, msg, queue, hr, rfl⟩ := lease_some hs
    rw [Attempts.note_lease hr]
    exact ha.lease (hhandle msg) hr
  | leaseLost msgId =>
    obtain ⟨⟨msg, queue⟩, hr, rfl⟩ := Option.map_eq_some_iff.mp hs
    exact ha.env (ha.ledger.counts rfl (le_of_eq (Queue.read_spec hr).2.2.2.symm)
      (Queue.read_counts hr).1)
  | call i x =>
    obtain ⟨c, k, r, m, hi, he, rfl⟩ := Pool.run_some hs
    have hm := Call.step_ledger ha.ledger he
    rw [Attempts.note_call hi]
    by_cases hc : enters c
    · exact ha.enter hm hi hc r
    · obtain ⟨msg, hd, _⟩ := ha.handling i _ hi
      refine (ha.go hm fun p' hp' => ⟨_, hi, fun hmay hall => ?_, fun msg hh => ?_⟩).made hd hc
      · cases hp'
        exact hmay (hall.2 r)
      · cases hp'
        exact hh.next r
  | crash i =>
    cases hs
    exact ha.go ha.ledger fun p' hp' => by cases hp'
  | extendVt msgId =>
    cases hs
    exact ha.env (ha.ledger.counts rfl (le_refl _) (Queue.setVisible_counts _ _ _))
  | lapse msgId =>
    cases hs
    exact ha.env (ha.ledger.counts rfl (le_refl _) (Queue.setVisible_counts _ _ _))
  | tick now =>
    cases hs
    exact ha.env (ha.ledger.counts rfl (le_refl _) (Queue.Counts.refl _))
  | executor x =>
    cases hs
    exact ha.env (ha.ledger.counts rfl (le_refl _) (Queue.Counts.refl _))

theorem recorded_accounted
    (hhandle : ∀ msg, Handling enters cfg msg (handle analyze cfg msg).run)
    {p : WorkerPool ι E τ A × Attempts ι E} (hr : (recordedSys analyze cfg step).Reachable p) :
    Accounted enters cfg p.1 p.2 := by
  refine hr.rule (I := fun p => Accounted enters cfg p.1 p.2) ?_ ?_
  · rintro ⟨s, h⟩ ⟨⟨hjobs, hqueue, _, hthread⟩, hh⟩
    cases hh
    have hseen : ∀ m, ¬ (Attempts.start : Attempts ι E).Seen m := by
      rintro m (⟨c, hm⟩ | ⟨i, hi⟩)
      · cases hm
      · cases hi
    have hactive : ∀ m, m ∉ s.mem.queue.active := by
      intro m hm
      rw [hqueue] at hm
      cases hm
    refine ⟨⟨fun m hm => absurd hm (hseen m), fun m hm => ?_, fun m w hm => ?_,
      fun m hm => absurd hm (hseen m), fun m hm => absurd hm (hseen m)⟩, ?_, ?_, ?_,
      List.nodup_nil, fun m hm => (by cases hm)⟩
    · exact (hm.elim (hseen m) (hactive m)).elim
    · exact (hm.elim (hseen m) (hactive m)).elim
    · exact fun i p hp => absurd ((hthread i).symm.trans hp) (by simp)
    · exact fun i p msg hp => absurd ((hthread i).symm.trans hp) (by simp)
    · exact fun i j p q m₁ m₂ _ hp => absurd ((hthread i).symm.trans hp) (by simp)
  · intro p a q ha hs
    obtain ⟨h1, h2⟩ := Sys.withHistory_step hs
    rw [h2]
    exact ha.stepped hhandle h1

theorem recorded_ledger {p : WorkerPool ι E τ A × Attempts ι E}
    (hr : (recordedSys analyze cfg step).Reachable p) : Ledger p.1.mem p.2.Seen :=
  (recorded_accounted (handle_unwatched analyze cfg) hr).ledger

/-! ## the bound -/

/-- how often the executor was entered for a job -/
def Attempts.startsOf (h : Attempts ι (Option E)) (jobId : Uuid) : Nat :=
  ((h.entries Call.enters).filter fun m => m.message.jobId == jobId).length

theorem Accounted.startsOf_le {s : WorkerPool ι (Option E) τ (Voiced A)}
    {h : Attempts ι (Option E)} (ha : Accounted Call.enters cfg s h) (jobId : Uuid) :
    (h.startsOf jobId : Int) ≤ max 0 cfg.maxAttempts := by
  set l := (h.entries Call.enters).filter fun m => m.message.jobId == jobId with hl
  have hmem : ∀ m ∈ l, m ∈ h.entries Call.enters ∧ m.message.jobId = jobId := by
    intro m hm
    obtain ⟨h1, h2⟩ := List.mem_filter.mp hm
    exact ⟨h1, beq_iff_eq.mp h2⟩
  have hseen : ∀ m ∈ l, h.Seen m := fun m hm => Attempts.seen_of_entry (hmem m hm).1
  -- one message a job, so its deliveries differ in their numbers
  have hkey : (l.map Message.key).Nodup := ha.once.sublist (List.filter_sublist.map _)
  have hnodup : (l.map Message.readCt).Nodup := by
    refine (List.Nodup.of_map _ hkey).map_on fun m hm w hw he => ?_
    have hid := ha.ledger.one m w (Or.inl (hseen m hm)) (Or.inl (hseen w hw))
      ((hmem m hm).2.trans (hmem w hw).2.symm)
    exact List.inj_on_of_nodup_map hkey hm hw (Prod.ext hid he)
  have hsub : l.map Message.readCt ⊆ List.range' 1 (max 0 cfg.maxAttempts).toNat := by
    intro n hn
    obtain ⟨m, hm, rfl⟩ := List.mem_map.mp hn
    have h1 := ha.ledger.positive m (hseen m hm)
    have h2 := ha.bounded m (hmem m hm).1
    rw [List.mem_range'_1]
    omega
  have hlen := (List.Nodup.subperm hnodup hsub).length_le
  rw [List.length_map, List.length_range'] at hlen
  show ((l.length : Nat) : Int) ≤ _
  omega

def Jobs.Failed (t : Jobs) (jobId : Uuid) : Prop :=
  ∃ j ∈ t.rows, j.id = jobId ∧ j.status = .failed

theorem Jobs.update_failed {t t' : Jobs} {now : Timestamp} {jobId jobId' : Uuid} {c : JobSet}
    (h : t.update now (guarded jobId') c = some t') (hn : ¬ t.Failed jobId)
    (hf : t'.Failed jobId) : c.status = some .failed ∧ jobId' = jobId := by
  obtain ⟨j', hj', hid, hst⟩ := hf
  unfold Jobs.update at h
  split at h
  case isFalse => cases h
  case isTrue =>
    cases h
    rcases mem_updateRows hj' with ⟨hold, _⟩ | ⟨j, hj, hg, m, _, _, rfl⟩
    · exact absurd ⟨j', hold, hid, hst⟩ hn
    · have hjid : j.id = jobId' := (guarded_true hg).1
      have hset : c.status.getD j.status = .failed := hst
      cases hc : c.status with
      | none =>
        rw [hc] at hset
        exact absurd ⟨j, hj, hid, hset⟩ hn
      | some status =>
        rw [hc] at hset
        exact ⟨congrArg some hset, hjid.symm.trans hid⟩

theorem StoreCall.apply_failed {c : StoreCall} {s t : Store τ} {jobId : Uuid}
    (h : c.apply s = some t) (hn : ¬ s.jobs.Failed jobId) (hf : t.jobs.Failed jobId) :
    ∃ error, c = .setFailed jobId error := by
  cases c with
  | archive msgId =>
    cases h
    exact absurd hf hn
  | setFailed jobId' error =>
    obtain ⟨_, hu, rfl⟩ := Option.map_eq_some_iff.mp h
    exact ⟨error, by rw [(Jobs.update_failed hu hn hf).2]⟩
  | _ =>
    obtain ⟨_, hu, rfl⟩ := Option.map_eq_some_iff.mp h
    cases (Jobs.update_failed hu hn hf).1

theorem submitOne_failed {s t : Store τ} {p : Uuid × NewJob} {jobId : Uuid}
    (h : submitOne s p = some t) (hf : t.jobs.Failed jobId) : s.jobs.Failed jobId := by
  obtain ⟨jobs, hins, rfl⟩ := Option.map_eq_some_iff.mp h
  obtain ⟨_, hrows, _⟩ := Jobs.insert_spec hins
  obtain ⟨j, hj, hid, hst⟩ := hf
  replace hj : j ∈ jobs.rows := hj
  rw [hrows, List.mem_append, List.mem_singleton] at hj
  rcases hj with hj | rfl
  · exact ⟨j, hj, hid, hst⟩
  · cases hst

theorem submitMany_failed {s t : Store τ} {jobs : List (Uuid × NewJob)} {jobId : Uuid}
    (h : submitMany s jobs = some t) (hf : t.jobs.Failed jobId) : s.jobs.Failed jobId := by
  have hfold : ∀ (l : List (Uuid × NewJob)) (s t : Store τ), l.foldlM submitOne s = some t →
      t.jobs.Failed jobId → s.jobs.Failed jobId := by
    intro l
    induction l with
    | nil => intro s t h hf; cases h; exact hf
    | cons p l ih =>
      intro s t h hf
      rw [List.foldlM_cons] at h
      obtain ⟨u, h1, h2⟩ := Option.bind_eq_some_iff.mp h
      exact submitOne_failed h1 (ih u t h2 hf)
  unfold submitMany at h
  split at h
  · cases h; exact hf
  · exact hfold jobs s t h hf

theorem workerStep_failed {s t : WorkerPool ι E τ A} {a : WorkerAct ι τ χ} {jobId : Uuid}
    (hs : workerStep analyze cfg step s a = some t) (hn : ¬ s.mem.jobs.Failed jobId)
    (hf : t.mem.jobs.Failed jobId) : ∃ i x error k, a = .call i x ∧
      s.thread i = some (.call (.store (.setFailed jobId error)) k) := by
  cases a with
  | submit id job =>
    obtain ⟨m, hm, rfl⟩ := Option.map_eq_some_iff.mp hs
    exact absurd (submitOne_failed hm hf) hn
  | submitMany jobs =>
    obtain ⟨m, hm, rfl⟩ := Option.map_eq_some_iff.mp hs
    exact absurd (submitMany_failed hm hf) hn
  | lease i msgId =>
    obtain ⟨_, msg, queue, hr, rfl⟩ := lease_some hs
    exact absurd hf hn
  | leaseLost msgId =>
    obtain ⟨⟨msg, queue⟩, hr, rfl⟩ := Option.map_eq_some_iff.mp hs
    exact absurd hf hn
  | call i x =>
    obtain ⟨c, k, r, m, hi, he, rfl⟩ := Pool.run_some hs
    cases c with
    | store c =>
      rcases StoreCall.exec_cases he with ha | ⟨rfl, _⟩
      · obtain ⟨error, rfl⟩ := StoreCall.apply_failed ha hn hf
        exact ⟨i, x, error, k, rfl, hi⟩
      · exact absurd hf hn
    | startHeartbeat msgId => rw [startHeartbeat_step he] at hf; exact absurd hf hn
    | dropHeartbeat msgId => rw [dropHeartbeat_step he] at hf; exact absurd hf hn
    | exec e =>
      cases x with
      | exec y =>
        obtain ⟨⟨_, _⟩, _, e2⟩ := Option.map_eq_some_iff.mp he
        cases e2
        exact absurd hf hn
      | ok => cases he
      | err msg => cases he
      | lost msg => cases he
  | _ =>
    cases hs
    exact absurd hf hn

/-- **Attempts are bounded, and failure is earned**: the executor is entered for a job
`max_attempts` times at most, and the job becomes failed only in a delivery past them. -/
theorem attempts_bounded {p : WorkerPool ι (Option E) τ (Voiced A) × Attempts ι (Option E)}
    (hr : (recordedSys (announced analyze) cfg (announcing step)).Reachable p) :
    (∀ jobId, (p.2.startsOf jobId : Int) ≤ max 0 cfg.maxAttempts) ∧
    ∀ a t jobId, workerStep (announced analyze) cfg (announcing step) p.1 a = some t →
      ¬ p.1.mem.jobs.Failed jobId → t.mem.jobs.Failed jobId →
      ∃ i x msg, a = .call i x ∧ p.2.delivery i = some msg ∧ msg.message.jobId = jobId ∧
        cfg.maxAttempts < msg.readCt := by
  have ha := recorded_accounted (handle_handling analyze cfg) hr
  refine ⟨ha.startsOf_le, fun a t jobId hs hn hf => ?_⟩
  obtain ⟨i, x, error, k, rfl, hi⟩ := workerStep_failed hs hn hf
  obtain ⟨msg, hd, hh⟩ := ha.handling i _ hi
  obtain ⟨hid, hct⟩ := hh.fails.1
  exact ⟨i, x, msg, rfl, hd, hid.symm, hct⟩

end

/-- job 1 is leased with one attempt allowed, and its loop crashes in the analysis; the message
is delivered again -/
def secondDelivery : List (WorkerAct ℕ Unit (Option (AppResult Json))) :=
  [.submit 1 ⟨"(;B[pd])", none⟩, .lease 0 1, .call 0 .ok, .call 0 .ok, .call 0 (.exec none),
   .crash 0, .lapse 1, .lease 1 1]

abbrev AnnouncedPool := WorkerPool ℕ (Option EngineCall) Unit (Voiced fun _ => AppResult Json)

def announcedEmpty : AnnouncedPool := ⟨⟨Jobs.empty, Queue.empty, 0, [], ()⟩, fun _ => none⟩

def afterSecondDelivery : AnnouncedPool × Attempts ℕ (Option EngineCall) :=
  ((recordedSys (announced localExecutor) ⟨1⟩ (announcing engineAnswers)).exec
    (announcedEmpty, Attempts.start) secondDelivery).getD (announcedEmpty, Attempts.start)

theorem afterSecondDelivery_reachable :
    (recordedSys (announced localExecutor) ⟨1⟩ (announcing engineAnswers)).Reachable
      afterSecondDelivery :=
  ⟨(announcedEmpty, Attempts.start), secondDelivery, ⟨⟨rfl, rfl, rfl, fun _ => rfl⟩, rfl⟩, rfl⟩

/-- the one attempt was made, and the second delivery gives the job up -/
theorem attempts_bounded_second : afterSecondDelivery.2.startsOf 1 = 1 ∧
    (afterSecondDelivery.2.startsOf 1 : Int) ≤ max 0 1 :=
  ⟨rfl, (attempts_bounded afterSecondDelivery_reachable).1 1⟩

end KatagoWs
