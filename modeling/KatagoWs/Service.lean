import KatagoWs.Lib.Simulation
import KatagoWs.Worker

/-!
# The service as its clients see it

Behind the table, the queue, the leases and the redeliveries there is one thing a client is told:
of each accepted job, that it is pending, done with a result, or given up.  `serviceSys` is that
service, in one step each: a job is accepted once, and a pending one is finished, with a result
that is `genuine` for what was submitted, or given up.

* `service_evolves`, `service_genuine`   what such a service promises over its runs;
* `Store.entry`        what a store says of a job;
* `Sincere`            an executor whose results are genuine, whatever runs beside it;
* `sincere_handle`     then no delivery stores anything else;
* `refines_service`    the worker loops refine the service: a lease, a crash, a lapse, a lost
                       answer or a late duplicate is no step of it;
* `standalone_refines` the loops of one process do, with every engine.
-/

set_option linter.unusedSectionVars false

namespace KatagoWs
open Lib

/-! ## the abstract service -/

inductive Fate where
  | pending
  | done (result : Json)
  | failed (error : String)

/-- an accepted job, and what became of it -/
structure Entry where
  job : NewJob
  fate : Fate

abbrev Service := Uuid → Option Entry

inductive ServiceOp where
  | accept (id : Uuid) (job : NewJob)
  | finish (id : Uuid) (result : Json)
  | giveUp (id : Uuid)

def GIVEN_UP : String := "max delivery attempts exceeded"

/-- an accepted job goes from pending to `fate` -/
def Service.settle (s : Service) (id : Uuid) (fate : Fate) : Option Service :=
  match s id with
  | some ⟨job, .pending⟩ => some (Function.update s id (some ⟨job, fate⟩))
  | _ => none

open Classical in
noncomputable def serviceStep (genuine : NewJob → Json → Prop) (s : Service) :
    ServiceOp → Option Service
  | .accept id job =>
    if s id = none then some (Function.update s id (some ⟨job, .pending⟩)) else none
  | .finish id result =>
    if ∃ e, s id = some e ∧ genuine e.job result then s.settle id (.done result) else none
  | .giveUp id => s.settle id (.failed GIVEN_UP)

noncomputable def serviceSys (genuine : NewJob → Json → Prop) : Sys Service ServiceOp where
  init s := s = fun _ => none
  step := serviceStep genuine

/-- what a later state owes an earlier one: the job stays, and so does a settled fate -/
def Service.Evolves (s t : Service) : Prop :=
  ∀ id e, s id = some e → ∃ e', t id = some e' ∧ e'.job = e.job ∧
    (e.fate ≠ .pending → e'.fate = e.fate)

/-- every result was genuine, and every failure says that the service gave up -/
def Service.Genuine (genuine : NewJob → Json → Prop) (s : Service) : Prop :=
  ∀ id e, s id = some e → (∀ v, e.fate = .done v → genuine e.job v) ∧
    ∀ error, e.fate = .failed error → error = GIVEN_UP

theorem Service.settle_some {s t : Service} {id : Uuid} {fate : Fate}
    (h : s.settle id fate = some t) : ∃ job, s id = some ⟨job, .pending⟩ ∧
      t = Function.update s id (some ⟨job, fate⟩) := by
  unfold Service.settle at h
  split at h
  case h_2 => cases h
  case h_1 job hs => exact ⟨job, hs, (Option.some.inj h).symm⟩

theorem Service.Evolves.refl (s : Service) : s.Evolves s := fun _ e he => ⟨e, he, rfl, fun _ => rfl⟩

theorem Service.Evolves.trans {s t u : Service} (h : s.Evolves t) (k : t.Evolves u) :
    s.Evolves u := by
  intro id e he
  obtain ⟨e1, h1, hj1, hf1⟩ := h id e he
  obtain ⟨e2, h2, hj2, hf2⟩ := k id e1 h1
  refine ⟨e2, h2, hj2.trans hj1, fun hne => ?_⟩
  have hsame := hf1 hne
  exact (hf2 (hsame ▸ hne)).trans hsame

theorem Service.Evolves.update {s : Service} {id : Uuid} {e' : Entry}
    (h : ∀ e, s id = some e → e'.job = e.job ∧ e.fate = .pending) :
    s.Evolves (Function.update s id (some e')) := by
  intro k e he
  by_cases hk : k = id
  · subst hk
    obtain ⟨hj, hp⟩ := h e he
    exact ⟨e', Function.update_self k _ s, hj, fun hne => absurd hp hne⟩
  · exact ⟨e, by rw [Function.update_of_ne hk, he], rfl, fun _ => rfl⟩

theorem Service.Genuine.update {genuine : NewJob → Json → Prop} {s : Service} {id : Uuid}
    {e' : Entry} (hs : s.Genuine genuine) (hd : ∀ v, e'.fate = .done v → genuine e'.job v)
    (hf : ∀ error, e'.fate = .failed error → error = GIVEN_UP) :
    Service.Genuine genuine (Function.update s id (some e')) := by
  intro k e he
  by_cases hk : k = id
  · subst hk
    rw [Function.update_self] at he
    cases he
    exact ⟨hd, hf⟩
  · rw [Function.update_of_ne hk] at he
    exact hs k e he

theorem serviceStep_spec {genuine : NewJob → Json → Prop} {s t : Service} {op : ServiceOp}
    (h : serviceStep genuine s op = some t) :
    s.Evolves t ∧ (s.Genuine genuine → t.Genuine genuine) := by
  cases op with
  | accept id job =>
    obtain ⟨hnew, he⟩ := Option.ite_none_right_eq_some.mp h
    cases he
    refine ⟨Service.Evolves.update fun e he => ?_, fun hs => hs.update ?_ ?_⟩
    · rw [hnew] at he
      cases he
    · exact fun v hv => by cases hv
    · exact fun error hf => by cases hf
  | finish id result =>
    obtain ⟨⟨e, hid, hv⟩, he⟩ := Option.ite_none_right_eq_some.mp h
    obtain ⟨job, hp, rfl⟩ := Service.settle_some he
    rw [hp] at hid
    cases hid
    refine ⟨Service.Evolves.update fun e he => ?_, fun hs => hs.update ?_ ?_⟩
    · rw [hp] at he
      cases he
      exact ⟨rfl, rfl⟩
    · exact fun v hd => by cases hd; exact hv
    · exact fun error hf => by cases hf
  | giveUp id =>
    obtain ⟨job, hp, rfl⟩ := Service.settle_some h
    refine ⟨Service.Evolves.update fun e he => ?_, fun hs => hs.update ?_ ?_⟩
    · rw [hp] at he
      cases he
      exact ⟨rfl, rfl⟩
    · exact fun v hd => by cases hd
    · exact fun error hf => by cases hf; rfl

theorem service_genuine {genuine : NewJob → Json → Prop} {s : Service}
    (h : (serviceSys genuine).Reachable s) : s.Genuine genuine := by
  refine h.rule (I := Service.Genuine genuine) ?_ fun s a t hs he => (serviceStep_spec he).2 hs
  rintro s₀ rfl id e he
  cases he

theorem service_evolves {genuine : NewJob → Json → Prop} {s t : Service} {ops : List ServiceOp}
    (h : (serviceSys genuine).exec s ops = some t) : s.Evolves t :=
  Sys.exec_rel (R := Service.Evolves) Service.Evolves.refl (fun _ _ _ => Service.Evolves.trans)
    (fun _ _ _ he => (serviceStep_spec he).1) h

/-! ## what a store says of a job -/

def Jobs.row? (t : Jobs) (id : Uuid) : Option Job := t.rows.find? fun j => j.id == id

def Job.fate (j : Job) : Fate :=
  match j.status, j.result, j.error with
  | .done, some result, _ => .done result
  | .failed, _, some error => .failed error
  | _, _, _ => .pending

section
variable {τ : Type}

def Store.submission (s : Store τ) (id : Uuid) : Option NewJob :=
  (s.submitted.find? fun p => p.1 == id).map Prod.snd

def Store.entry (s : Store τ) : Service := fun id =>
  (s.submission id).bind fun job => (s.jobs.row? id).map fun j => ⟨job, j.fate⟩

end

theorem Jobs.row?_eq_some {t : Jobs} {id : Uuid} {j : Job} :
    t.row? id = some j ↔ j ∈ t.rows ∧ j.id = id := by
  constructor
  · intro h
    have hid := List.find?_some h
    exact ⟨List.mem_of_find?_eq_some h, beq_iff_eq.mp hid⟩
  · rintro ⟨hj, rfl⟩
    cases hr : t.row? j.id with
    | none => exact absurd (beq_self_eq_true j.id) (List.find?_eq_none.mp hr j hj)
    | some k =>
      have hid := List.find?_some hr
      rw [t.row_unique (List.mem_of_find?_eq_some hr) hj (beq_iff_eq.mp hid)]

theorem Jobs.row?_eq_none {t : Jobs} {id : Uuid} : t.row? id = none ↔ id ∉ t.ids := by
  rw [Option.eq_none_iff_forall_ne_some]
  constructor
  · intro h hid
    obtain ⟨j, hj, rfl⟩ := List.mem_map.mp hid
    exact h j (Jobs.row?_eq_some.mpr ⟨hj, rfl⟩)
  · intro h j hj
    obtain ⟨hm, hid⟩ := Jobs.row?_eq_some.mp hj
    exact h (List.mem_map.mpr ⟨j, hm, hid⟩)

theorem Jobs.row?_insert {t t' : Jobs} {now : Timestamp} {id : Uuid}
    (h : t.insert now id = some t') :
    t.row? id = none ∧ t'.row? id = some (Job.fresh id now (t.seq + 1)) ∧
      ∀ k, k ≠ id → t'.row? k = t.row? k := by
  obtain ⟨hnew, hrows, _⟩ := Jobs.insert_spec h
  refine ⟨Jobs.row?_eq_none.mpr hnew, Jobs.row?_eq_some.mpr ⟨?_, rfl⟩, fun k hk => ?_⟩
  · rw [hrows]
    exact List.mem_append_right _ (List.mem_singleton_self _)
  · refine Option.ext fun j => ?_
    rw [Jobs.row?_eq_some, Jobs.row?_eq_some, hrows, List.mem_append, List.mem_singleton]
    constructor
    · rintro ⟨hj | rfl, hid⟩
      · exact ⟨hj, hid⟩
      · exact absurd hid (Ne.symm hk)
    · exact fun ⟨hj, hid⟩ => ⟨Or.inl hj, hid⟩

/-- a guarded update touches the row of its job only, and only while that is not terminal -/
theorem Jobs.row?_update {t t' : Jobs} {now : Timestamp} {jobId : Uuid} {c : JobSet}
    (h : t.update now (guarded jobId) c = some t') :
    (∀ k, k ≠ jobId → t'.row? k = t.row? k) ∧
      (t'.row? jobId = t.row? jobId ∨ ∃ j m, t.row? jobId = some j ∧ j.status ∈ nonTerminal ∧
        t'.row? jobId = some ((c.assign j).stampChange now m)) := by
  unfold Jobs.update at h
  split at h
  case isFalse => cases h
  case isTrue =>
    cases h
    -- a row that is not the job's stays, and one that is there was there
    have hother : ∀ k j, k ≠ jobId → j.id = k →
        (j ∈ (updateRows now (guarded jobId) c t.rows t.seq).1 ↔ j ∈ t.rows) := by
      intro k j hk hid
      constructor
      · intro hj
        rcases mem_updateRows hj with ⟨hj, _⟩ | ⟨i, _, hg, m, _, _, rfl⟩
        · exact hj
        · exact absurd ((guarded_true hg).1.symm.trans hid).symm hk
      · intro hj
        rcases updateRows_keep now (guarded jobId) c t.seq hj with ⟨_, hj⟩ | ⟨hg, _⟩
        · exact hj
        · exact absurd (hid.symm.trans (guarded_true hg).1) hk
    refine ⟨fun k hk => Option.ext fun j => ?_, ?_⟩
    · rw [Jobs.row?_eq_some, Jobs.row?_eq_some]
      exact and_congr_left fun hid => hother k j hk hid
    · cases hr : t.row? jobId with
      | none =>
        refine Or.inl (Jobs.row?_eq_none.mpr ?_)
        show jobId ∉ (updateRows now (guarded jobId) c t.rows t.seq).1.map Job.id
        rw [updateRows_ids]
        exact Jobs.row?_eq_none.mp hr
      | some j =>
        obtain ⟨hj, hid⟩ := Jobs.row?_eq_some.mp hr
        rcases updateRows_keep now (guarded jobId) c t.seq hj with ⟨_, hj'⟩ | ⟨hg, m, hj'⟩
        · exact Or.inl (Jobs.row?_eq_some.mpr ⟨hj', hid⟩)
        · exact Or.inr ⟨j, m, rfl, (guarded_true hg).2, Jobs.row?_eq_some.mpr ⟨hj', hid⟩⟩

theorem Job.fate_pending {j : Job} (h : j.status ∈ nonTerminal) : j.fate = .pending := by
  rcases j with ⟨id, status, result, error, lastError, createdAt, updatedAt, changeSeq⟩
  cases status with
  | queued => rfl
  | running => rfl
  | done => simp [nonTerminal] at h
  | failed => simp [nonTerminal] at h

section
variable {τ : Type} {s t : Store τ} {id : Uuid}

theorem Store.mem_submitted {job : NewJob} (h : s.submission id = some job) :
    (id, job) ∈ s.submitted := by
  obtain ⟨p, hp, rfl⟩ := Option.map_eq_some_iff.mp h
  have hid := List.find?_some hp
  rw [← beq_iff_eq.mp hid]
  exact List.mem_of_find?_eq_some hp

theorem Store.submission_isSome (hI : s.Inv) {j : Job} (h : s.jobs.row? id = some j) :
    ∃ job, s.submission id = some job := by
  obtain ⟨hj, rfl⟩ := Jobs.row?_eq_some.mp h
  have hids : j.id ∈ s.submitted.map Prod.fst := by
    rw [hI.ids, List.mem_reverse]
    exact List.mem_map_of_mem hj
  obtain ⟨p, hp, hid⟩ := List.mem_map.mp hids
  cases hs : s.submitted.find? fun p => p.1 == j.id with
  | none => exact absurd (beq_iff_eq.mpr hid) (List.find?_eq_none.mp hs p hp)
  | some q => exact ⟨q.2, by rw [Store.submission, hs]; rfl⟩

theorem Store.entry_eq_none (hI : s.Inv) :
    s.entry id = none ↔ id ∉ s.submitted.map Prod.fst := by
  have hids : id ∈ s.submitted.map Prod.fst ↔ id ∈ s.jobs.ids := by
    rw [hI.ids, List.mem_reverse]
  rw [hids, ← Jobs.row?_eq_none]
  constructor
  · intro h
    cases hr : s.jobs.row? id with
    | none => rfl
    | some j =>
      obtain ⟨job, hjob⟩ := Store.submission_isSome hI hr
      rw [Store.entry, hjob, hr] at h
      cases h
  · intro h
    rw [Store.entry, h]
    exact Option.bind_eq_none_iff.mpr fun _ _ => rfl

theorem Job.nonTerminal_of_pending {j : Job} (h : j.resultXorError = true)
    (hp : j.fate = .pending) : j.status ∈ nonTerminal := by
  rcases j with ⟨id, status, result, error, lastError, createdAt, updatedAt, changeSeq⟩
  cases status with
  | queued => simp [nonTerminal]
  | running => simp [nonTerminal]
  | done => cases result <;> simp [Job.resultXorError, Job.fate, nonTerminal] at h hp
  | failed => cases error <;> simp [Job.resultXorError, Job.fate, nonTerminal] at h hp

theorem Store.unfinished_of_pending (hI : s.Inv) {e : Entry} (h : s.entry id = some e)
    (hp : e.fate = .pending) : s.jobs.Unfinished id := by
  obtain ⟨job, _, hmap⟩ := Option.bind_eq_some_iff.mp h
  obtain ⟨j, hj, rfl⟩ := Option.map_eq_some_iff.mp hmap
  obtain ⟨hmem, hid⟩ := Jobs.row?_eq_some.mp hj
  exact ⟨j, hmem, hid, Job.nonTerminal_of_pending (hI.checked j hmem) hp⟩

theorem Store.entry_congr (hsub : t.submitted = s.submitted)
    (hrow : t.jobs.row? id = s.jobs.row? id) : t.entry id = s.entry id := by
  unfold Store.entry Store.submission
  rw [hsub, hrow]

/-- a guarded update that gives an open row the fate `fate` settles the job so, or changes
nothing a client sees -/
theorem Store.entry_update (hI : s.Inv) {c : JobSet} {jobs : Jobs} {fate : Fate}
    (h : s.jobs.update s.clock (guarded id) c = some jobs)
    (hf : ∀ j m, j.status ∈ nonTerminal → ((c.assign j).stampChange s.clock m).fate = fate) :
    ({ s with jobs } : Store τ).entry = s.entry ∨
      s.entry.settle id fate = some ({ s with jobs } : Store τ).entry := by
  obtain ⟨hother, hrow⟩ := Jobs.row?_update h
  have hne : ∀ k, k ≠ id → ({ s with jobs } : Store τ).entry k = s.entry k :=
    fun k hk => Store.entry_congr rfl (hother k hk)
  rcases hrow with hsame | ⟨j, m, hj, hn, hj'⟩
  · refine Or.inl (funext fun k => ?_)
    by_cases hk : k = id
    · rw [hk]
      exact Store.entry_congr rfl hsame
    · exact hne k hk
  · obtain ⟨job, hjob⟩ := Store.submission_isSome hI hj
    have hold : s.entry id = some ⟨job, .pending⟩ := by
      rw [Store.entry, hjob, hj]
      exact congrArg (fun f => some (Entry.mk job f)) (Job.fate_pending hn)
    have hnew : ({ s with jobs } : Store τ).entry id = some ⟨job, fate⟩ := by
      show (s.submission id).bind (fun job => (jobs.row? id).map _) = _
      rw [hjob, hj']
      exact congrArg (fun f => some (Entry.mk job f)) (hf j m hn)
    refine Or.inr ?_
    rw [Service.settle, hold]
    refine congrArg some (funext fun k => ?_)
    by_cases hk : k = id
    · subst hk
      rw [Function.update_self]
      exact hnew.symm
    · rw [Function.update_of_ne hk]
      exact (hne k hk).symm

/-- the job a call settles, and how -/
def StoreCall.settles : StoreCall → Option (Uuid × Fate)
  | .setDone id result => some (id, .done result)
  | .setFailed id error => some (id, .failed error)
  | _ => none

/-- **One call of the store**, as a client sees it. -/
theorem StoreCall.entry_spec {c : StoreCall} (hI : s.Inv) (h : c.apply s = some t) :
    t.entry = s.entry ∨
      ∃ id fate, c.settles = some (id, fate) ∧ s.entry.settle id fate = some t.entry := by
  have hquiet : ∀ {id : Uuid} {u : Store τ}, u.entry = s.entry ∨
      s.entry.settle id .pending = some u.entry → u.entry = s.entry := by
    rintro id u (hu | hu)
    · exact hu
    · obtain ⟨job, he, hupd⟩ := Service.settle_some hu
      rw [hupd, ← he]
      exact Function.update_eq_self id s.entry
  cases c with
  | setFailed id error =>
    obtain ⟨jobs, hu, rfl⟩ := Option.map_eq_some_iff.mp h
    exact (Store.entry_update hI hu fun j m _ => rfl).imp_right fun he => ⟨id, _, rfl, he⟩
  | setRunning id =>
    obtain ⟨jobs, hu, rfl⟩ := Option.map_eq_some_iff.mp h
    exact Or.inl (hquiet (Store.entry_update hI hu fun j m _ => rfl))
  | setDone id result =>
    obtain ⟨jobs, hu, rfl⟩ := Option.map_eq_some_iff.mp h
    exact (Store.entry_update hI hu fun j m _ => rfl).imp_right fun he => ⟨id, _, rfl, he⟩
  | recordAttemptFailure id error =>
    obtain ⟨jobs, hu, rfl⟩ := Option.map_eq_some_iff.mp h
    exact Or.inl (hquiet (Store.entry_update hI hu fun j m hn => Job.fate_pending hn))
  | archive msgId =>
    cases h
    exact Or.inl rfl

end

/-! ## a submission, as a client sees it -/

section
variable {τ : Type} {s t : Store τ}

theorem Store.Inv.one_job (hI : s.Inv) {id : Uuid} {job job' : NewJob}
    (h : (id, job) ∈ s.submitted) (h' : (id, job') ∈ s.submitted) : job = job' := by
  have hnd : (s.submitted.map Prod.fst).Nodup := by
    rw [hI.ids]
    exact List.nodup_reverse.mpr s.jobs.nodup
  exact congrArg Prod.snd (List.inj_on_of_nodup_map hnd h h' rfl)

theorem Store.submission_cons {p : Uuid × NewJob} (h : t.submitted = p :: s.submitted) :
    t.submission p.1 = some p.2 ∧ ∀ id, id ≠ p.1 → t.submission id = s.submission id := by
  unfold Store.submission
  rw [h]
  refine ⟨?_, fun id hid => ?_⟩
  · rw [List.find?_cons_of_pos (by exact beq_self_eq_true p.1)]
    rfl
  · rw [List.find?_cons_of_neg (by simpa using Ne.symm hid)]

theorem submitOne_entry {p : Uuid × NewJob} (h : submitOne s p = some t) :
    s.entry p.1 = none ∧ t.entry = Function.update s.entry p.1 (some ⟨p.2, .pending⟩) := by
  obtain ⟨jobs, hins, rfl⟩ := Option.map_eq_some_iff.mp h
  obtain ⟨hnew, hrow, hother⟩ := Jobs.row?_insert hins
  obtain ⟨hp, hsub⟩ := Store.submission_cons (s := s) (p := p)
    (t := { s with
      jobs, queue := s.queue.send (p.2.intoMessage p.1), submitted := p :: s.submitted })
    rfl
  refine ⟨?_, funext fun id => ?_⟩
  · unfold Store.entry
    rw [hnew]
    exact Option.bind_eq_none_iff.mpr fun _ _ => rfl
  · by_cases hid : id = p.1
    · subst hid
      rw [Function.update_self]
      unfold Store.entry
      rw [hp, hrow]
      rfl
    · rw [Function.update_of_ne hid]
      unfold Store.entry
      rw [hsub id hid, hother id hid]

variable {genuine : NewJob → Json → Prop}

theorem submitOne_accepts {p : Uuid × NewJob} (h : submitOne s p = some t) :
    (serviceSys genuine).exec s.entry [.accept p.1 p.2] = some t.entry := by
  obtain ⟨hnew, ht⟩ := submitOne_entry h
  refine Sys.exec_one ?_
  rw [ht]
  exact if_pos hnew

theorem submitMany_accepts {jobs : List (Uuid × NewJob)} (h : submitMany s jobs = some t) :
    ∃ ops, (serviceSys genuine).exec s.entry ops = some t.entry := by
  have hfold : ∀ (l : List (Uuid × NewJob)) (s : Store τ), l.foldlM submitOne s = some t →
      ∃ ops, (serviceSys genuine).exec s.entry ops = some t.entry := by
    intro l
    induction l with
    | nil =>
      intro s h
      cases h
      exact ⟨[], rfl⟩
    | cons p l ih =>
      intro s h
      rw [List.foldlM_cons] at h
      obtain ⟨u, h1, h2⟩ := Option.bind_eq_some_iff.mp h
      obtain ⟨ops, ho⟩ := ih u h2
      refine ⟨[.accept p.1 p.2] ++ ops, ?_⟩
      rw [Sys.exec_append, submitOne_accepts h1]
      exact ho
  unfold submitMany at h
  split at h
  · cases h
    exact ⟨[], rfl⟩
  · exact hfold jobs s h

end

/-! ## sincere executors -/

section
variable {ι E τ χ : Type} {A : E → Type} [DecidableEq ι]

def Store.Carries (s : Store τ) : Prop :=
  ∀ m ∈ s.queue.active, ∃ job, (m.message.jobId, job) ∈ s.submitted ∧
    m.message = job.intoMessage m.message.jobId

theorem Store.Carries.grow {s t : Store τ} (h : s.Carries) (hsub : s.submitted ⊆ t.submitted)
    (hq : ∀ w' ∈ t.queue.active, ∃ w ∈ s.queue.active, w.message = w'.message) : t.Carries := by
  intro w' hw'
  obtain ⟨w, hw, e⟩ := hq w' hw'
  obtain ⟨job, hjob, hm⟩ := h w hw
  rw [← e]
  exact ⟨job, hsub hjob, hm⟩

theorem Queue.Follows.bodies {q q' : Queue} (h : q.Follows q') (hn : q'.nextMsgId = q.nextMsgId) :
    ∀ w' ∈ q'.active, ∃ w ∈ q.active, w.message = w'.message := by
  intro w' hw'
  obtain ⟨w, hw, _, e⟩ := h.old w' hw' (hn ▸ q'.fresh w' hw')
  exact ⟨w, hw, e⟩

theorem StoreCall.apply_carries {c : StoreCall} {s t : Store τ} (h : c.apply s = some t)
    (hs : s.Carries) : t.Carries ∧ t.submitted = s.submitted := by
  have hkeep : t.submitted = s.submitted ∧ t.queue.active ⊆ s.queue.active := by
    cases c with
    | archive msgId =>
      cases h
      exact ⟨rfl, fun w hw => (List.mem_filter.mp hw).1⟩
    | _ =>
      obtain ⟨_, _, rfl⟩ := Option.map_eq_some_iff.mp h
      exact ⟨rfl, List.Subset.refl _⟩
  refine ⟨hs.grow (fun p hp => ?_) fun w hw => ⟨w, hkeep.2 hw, rfl⟩, hkeep.1⟩
  rw [hkeep.1]
  exact hp

theorem submitOne_carries {s t : Store τ} {p : Uuid × NewJob} (h : submitOne s p = some t)
    (hs : s.Carries) :
    t.Carries ∧ s.submitted ⊆ t.submitted ∧ t.executor = s.executor := by
  obtain ⟨jobs, _, rfl⟩ := Option.map_eq_some_iff.mp h
  refine ⟨fun m hm => ?_, List.subset_cons_self p s.submitted, rfl⟩
  rcases List.mem_append.mp hm with hm | hm
  · obtain ⟨job, hjob, e⟩ := hs m hm
    exact ⟨job, List.mem_cons_of_mem p hjob, e⟩
  · rw [List.mem_singleton.mp hm]
    exact ⟨p.2, List.mem_cons_self, rfl⟩

theorem submitMany_carries {s t : Store τ} {jobs : List (Uuid × NewJob)}
    (h : submitMany s jobs = some t) (hs : s.Carries) :
    t.Carries ∧ s.submitted ⊆ t.submitted ∧ t.executor = s.executor := by
  have hfold : ∀ (l : List (Uuid × NewJob)) (s : Store τ), l.foldlM submitOne s = some t →
      s.Carries → t.Carries ∧ s.submitted ⊆ t.submitted ∧ t.executor = s.executor := by
    intro l
    induction l with
    | nil =>
      intro s h hs
      cases h
      exact ⟨hs, List.Subset.refl _, rfl⟩
    | cons p l ih =>
      intro s h hs
      rw [List.foldlM_cons] at h
      obtain ⟨u, h1, h2⟩ := Option.bind_eq_some_iff.mp h
      obtain ⟨hu, hsub, hex⟩ := submitOne_carries h1 hs
      obtain ⟨ht, hsub', hex'⟩ := ih u h2 hu
      exact ⟨ht, List.Subset.trans hsub hsub', hex'.trans hex⟩
  unfold submitMany at h
  split at h
  · cases h
    exact ⟨hs, List.Subset.refl _, rfl⟩
  · exact hfold jobs s h hs

/-- what is kept between an executor and the submissions: an invariant, and what the calls of a
delivery rely on; a new submission disturbs neither -/
structure Ground (ι τ : Type) where
  inv : List (Uuid × NewJob) → τ → Prop
  rely : ι → List (Uuid × NewJob) → τ → List (Uuid × NewJob) → τ → Prop
  grow : ∀ {l l' x}, l ⊆ l' → inv l x → inv l' x ∧ ∀ i, rely i l x l' x
  trans : ∀ {i l x l' x' l'' x''}, rely i l x l' x' → rely i l' x' l'' x'' → rely i l x l'' x''
  refl : ∀ i l x, rely i l x l x

variable (genuine : NewJob → Json → Prop) (step : ExecutorStep ι E τ χ A) (G : Ground ι τ)

/-- what a delivery may write: a result that is genuine for its job, or that it gives up -/
def StoreCall.Honest (s : Store τ) : StoreCall → Prop
  | .setDone id result => ∃ job, (id, job) ∈ s.submitted ∧ genuine job result
  | .setFailed _ error => error = GIVEN_UP
  | _ => True

/-- deliveries that write honestly, beside others that do and an executor on its ground -/
def sincerity : Discipline ι (Store τ) (Call E) (CallOutcome χ) (Answer A) where
  exec := Call.step step
  inv s := s.Carries ∧ G.inv s.submitted s.executor
  rely i s t := s.submitted ⊆ t.submitted ∧ G.rely i s.submitted s.executor t.submitted t.executor
  pre _ c s :=
    match c with
    | .store c => c.Honest genuine s
    | _ => True
  refl i _ := ⟨List.Subset.refl _, G.refl i _ _⟩
  trans _ _ _ _ h k := ⟨List.Subset.trans h.1 k.1, G.trans h.2 k.2⟩

/-- whatever else runs on the ground, a result of the executor is genuine for what was submitted
under the id it was called with -/
def Sincere (analyze : Executor E A) : Prop :=
  ∀ (i : ι) (id : Uuid) (job : NewJob) (s : Store τ), (id, job) ∈ s.submitted →
    (sincerity genuine step G).inv s →
    Safe (sincerity genuine step G) i
      (fun r t => ∀ v, r = .ok v → ∃ job, (id, job) ∈ t.submitted ∧ genuine job v)
      (analysis analyze (job.intoMessage id)) s

variable {genuine} {step} {G}

theorem sincerity_store {c : Call E} (hc : ∀ e, c ≠ .exec e) {i : ι} {x : CallOutcome χ}
    {s t : Store τ} {r : Answer A c} (hI : (sincerity genuine step G).inv s)
    (h : Call.step step i c x s = some (r, t)) :
    (sincerity genuine step G).inv t ∧ ∀ j, (sincerity genuine step G).rely j s t := by
  have hex : t.executor = s.executor := Call.step_executor hc h
  have hkey : t.Carries ∧ t.submitted = s.submitted := by
    cases c with
    | store c =>
      rcases StoreCall.exec_cases h with ha | ⟨rfl, _⟩
      · exact StoreCall.apply_carries ha hI.1
      · exact ⟨hI.1, rfl⟩
    | startHeartbeat msgId =>
      rw [startHeartbeat_step h]
      exact ⟨hI.1, rfl⟩
    | dropHeartbeat msgId =>
      rw [dropHeartbeat_step h]
      exact ⟨hI.1, rfl⟩
    | exec e => exact absurd rfl (hc e)
  refine ⟨⟨hkey.1, ?_⟩, fun j => ⟨?_, ?_⟩⟩
  · rw [hkey.2, hex]
    exact hI.2
  · rw [hkey.2]
    exact List.Subset.refl _
  · rw [hkey.2, hex]
    exact G.refl j _ _

theorem sincere_call {i : ι} {c : Call E} (hc : ∀ e, c ≠ .exec e) {s : Store τ}
    (hp : ∀ s' : Store τ, s.submitted ⊆ s'.submitted →
      (sincerity genuine step G).pre i c s') :
    Safe (sincerity genuine step G) i (fun _ t => s.submitted ⊆ t.submitted)
      (Prog.perform (R := Answer A) c) s := by
  refine Safe.perform (fun _ _ _ hr h => List.Subset.trans h hr.1) fun s' hr hI => ⟨hp s' hr.1, ?_⟩
  intro x r t he
  obtain ⟨hIt, hj⟩ := sincerity_store hc hI he
  exact ⟨hIt, fun j _ => hj j, List.Subset.trans hr.1 (hj i).1⟩

theorem sincere_write {i : ι} {c : StoreCall} {s : Store τ}
    (hp : ∀ s' : Store τ, s.submitted ⊆ s'.submitted → c.Honest genuine s') :
    Safe (sincerity genuine step G) i (fun r t => ∀ a, r = .ok a → s.submitted ⊆ t.submitted)
      (tryStore (A := A) c).run s :=
  (sincere_call (c := Call.store c) (fun _ h => by cases h) hp).mono fun _ _ _ h _ _ => h

/-- **One delivery stores nothing but a genuine result**, whatever its calls answer and whatever
other deliveries do between them. -/
theorem sincere_handle {analyze : Executor E A} (hsin : Sincere genuine step G analyze)
    (cfg : WorkerConfig) {i : ι} {msg : Message} {job : NewJob} {s : Store τ}
    (hI : (sincerity genuine step G).inv s) (hjob : (msg.message.jobId, job) ∈ s.submitted)
    (hm : msg.message = job.intoMessage msg.message.jobId) :
    Safe (sincerity genuine step G) i (fun _ _ => True) (handle analyze cfg msg).run s := by
  have harchive : ∀ t : Store τ, Safe (sincerity genuine step G) i (fun _ _ => True)
      (tryStore (A := A) (.archive msg.msgId)).run t := fun t =>
    (sincere_write (c := .archive msg.msgId) fun _ _ => True.intro).mono fun _ _ _ _ => trivial
  unfold handle
  dsimp only
  split
  · refine Safe.andThen (sincere_write fun _ _ => rfl) hI fun _ t _ _ => harchive t
  · refine Safe.andThen (sincere_write (c := .setRunning msg.message.jobId)
      fun _ _ => True.intro) hI fun _ s1 hI1 h1 => ?_
    refine Safe.andThen (sincere_call (c := .startHeartbeat msg.msgId) (fun _ h => by cases h)
      fun _ _ => trivial).lift hI1 fun _ s2 hI2 h2 => ?_
    have hjob2 : (msg.message.jobId, job) ∈ s2.submitted := h2 (h1 hjob)
    have ha := hsin i msg.message.jobId job s2 hjob2 hI2
    rw [← hm] at ha
    refine Safe.andThen ha.lift hI2 fun result s3 hI3 hres => ?_
    refine Safe.andThen (sincere_call (c := .dropHeartbeat msg.msgId) (fun _ h => by cases h)
      fun _ _ => trivial).lift hI3 fun _ s4 hI4 h4 => ?_
    cases result with
    | ok value =>
      obtain ⟨job', hjob3, hv⟩ := hres value rfl
      exact Safe.andThen (sincere_write fun s' hs' => ⟨job', hs' (h4 hjob3), hv⟩) hI4
        fun _ t _ _ => harchive t
    | error err =>
      have hw : Safe (sincerity genuine step G) i
          (fun r t => ∀ a, r = .ok a → s4.submitted ⊆ t.submitted)
          (tryStore (A := A) (.recordAttemptFailure msg.message.jobId err.toString)).run s4 :=
        sincere_write fun _ _ => True.intro
      exact hw.mono fun _ _ _ _ => trivial

/-! ## every run -/

/-- the executor's own steps stay on its ground -/
def Ground.Moves (G : Ground ι τ) (s : WorkerPool ι E τ A) : WorkerAct ι τ χ → Prop
  | .executor x => G.inv s.mem.submitted x ∧
      ∀ i, G.rely i s.mem.submitted s.mem.executor s.mem.submitted x
  | _ => True

variable (genuine step G) in
/-- the loops keep the store, write honestly, and show their clients `v` -/
structure Served (s : WorkerPool ι E τ A) (v : Service) : Prop where
  covered : s.AllSafe (coverage step) fun _ _ => True
  honest : s.AllSafe (sincerity genuine step G) fun _ _ => True
  shown : s.mem.entry = v

variable {analyze : Executor E A} {cfg : WorkerConfig}

theorem workerStep_honest (hsin : Sincere genuine step G analyze) {s t : WorkerPool ι E τ A}
    {a : WorkerAct ι τ χ} (h : s.AllSafe (sincerity genuine step G) fun _ _ => True)
    (hok : G.Moves s a) (hs : workerStep analyze cfg step s a = some t) :
    t.AllSafe (sincerity genuine step G) fun _ _ => True := by
  -- the store changes, but neither the submissions nor the executor
  have hquiet : ∀ {m : Store τ}, m.Carries → m.submitted = s.mem.submitted →
      m.executor = s.mem.executor → Pool.AllSafe (sincerity genuine step G) (fun _ _ => True)
        { s with mem := m } := by
    intro m hc hsub hex
    refine h.env ⟨hc, ?_⟩ fun i => ⟨?_, ?_⟩
    · rw [hsub, hex]
      exact h.1.2
    · rw [hsub]
      exact List.Subset.refl _
    · rw [hsub, hex]
      exact G.refl i _ _
  have hgrow : ∀ {m : Store τ}, m.Carries → s.mem.submitted ⊆ m.submitted →
      m.executor = s.mem.executor → Pool.AllSafe (sincerity genuine step G) (fun _ _ => True)
        { s with mem := m } := by
    intro m hc hsub hex
    obtain ⟨hinv, hrely⟩ := G.grow hsub h.1.2
    refine h.env ⟨hc, ?_⟩ fun i => ⟨hsub, ?_⟩
    · rw [hex]
      exact hinv
    · rw [hex]
      exact hrely i
  cases a with
  | submit jobId job =>
    obtain ⟨m, hm, rfl⟩ := Option.map_eq_some_iff.mp hs
    obtain ⟨hc, hsub, hex⟩ := submitOne_carries hm h.1.1
    exact hgrow hc hsub hex
  | submitMany jobs =>
    obtain ⟨m, hm, rfl⟩ := Option.map_eq_some_iff.mp hs
    obtain ⟨hc, hsub, hex⟩ := submitMany_carries hm h.1.1
    exact hgrow hc hsub hex
  | lease i msgId =>
    obtain ⟨_, msg, queue, hr, rfl⟩ := lease_some hs
    obtain ⟨⟨w, hw, _, _, rfl⟩, hfol, _, hnext⟩ := Queue.read_spec hr
    obtain ⟨job, hjob, hm⟩ := h.1.1 w hw
    have h' := hquiet (m := { s.mem with queue }) (h.1.1.grow (List.Subset.refl _)
      (hfol.bodies hnext)) rfl rfl
    refine h'.set i _ fun p hp => ?_
    cases hp
    exact sincere_handle hsin cfg h'.1 hjob hm
  | leaseLost msgId =>
    obtain ⟨⟨msg, queue⟩, hr, rfl⟩ := Option.map_eq_some_iff.mp hs
    obtain ⟨_, hfol, _, hnext⟩ := Queue.read_spec hr
    exact hquiet (h.1.1.grow (List.Subset.refl _) (hfol.bodies hnext)) rfl rfl
  | call i x => exact h.run hs
  | crash i =>
    cases hs
    exact h.set i none fun p hp => by cases hp
  | extendVt msgId =>
    cases hs
    exact hquiet (h.1.1.grow (List.Subset.refl _)
      ((Queue.setVisible_follows _ _ _).bodies rfl)) rfl rfl
  | lapse msgId =>
    cases hs
    exact hquiet (h.1.1.grow (List.Subset.refl _)
      ((Queue.setVisible_follows _ _ _).bodies rfl)) rfl rfl
  | tick now =>
    cases hs
    exact hquiet h.1.1 rfl rfl
  | executor x =>
    cases hs
    exact h.env ⟨h.1.1, hok.1⟩ fun i => ⟨List.Subset.refl _, hok.2 i⟩

theorem honest_call {s t : Store τ} {c : StoreCall} (hI : s.Inv) (hc : c.Honest genuine s)
    (h : c.apply s = some t) :
    ∃ ops, (serviceSys genuine).exec s.entry ops = some t.entry := by
  rcases StoreCall.entry_spec hI h with he | ⟨id, fate, hset, he⟩
  · exact ⟨[], congrArg some he.symm⟩
  · cases c with
    | setDone jobId result =>
      cases hset
      obtain ⟨job, hjob, hv⟩ := hc
      refine ⟨[.finish id result], Sys.exec_one ?_⟩
      have hgen : ∃ e, s.entry id = some e ∧ genuine e.job result := by
        obtain ⟨job', hcur, _⟩ := Service.settle_some he
        obtain ⟨job'', hsub, hmap⟩ := Option.bind_eq_some_iff.mp hcur
        obtain ⟨j, _, hj⟩ := Option.map_eq_some_iff.mp hmap
        have hsame : job = job' :=
          (hI.one_job hjob (Store.mem_submitted hsub)).trans (congrArg Entry.job hj)
        exact ⟨_, hcur, hsame ▸ hv⟩
      exact (if_pos hgen).trans he
    | setFailed jobId error =>
      cases hset
      have herr : error = GIVEN_UP := hc
      subst herr
      exact ⟨[.giveUp id], Sys.exec_one he⟩
    | setRunning jobId => cases hset
    | recordAttemptFailure jobId error => cases hset
    | archive msgId => cases hset

/-- **One step of the loops** is an operation of the service, several acceptances, or none. -/
theorem Served.stepped (hsin : Sincere genuine step G analyze) {s t : WorkerPool ι E τ A}
    {a : WorkerAct ι τ χ} {v : Service} (h : Served genuine step G s v) (hok : G.Moves s a)
    (hs : workerStep analyze cfg step s a = some t) :
    ∃ ops w, (serviceSys genuine).exec v ops = some w ∧ Served genuine step G t w := by
  have hcov := workerStep_safe h.covered hs
  have hhon := workerStep_honest hsin h.honest hok hs
  have hkey : ∃ ops, (serviceSys genuine).exec s.mem.entry ops = some t.mem.entry := by
    cases a with
    | submit jobId job =>
      obtain ⟨m, hm, rfl⟩ := Option.map_eq_some_iff.mp hs
      exact ⟨_, submitOne_accepts hm⟩
    | submitMany jobs =>
      obtain ⟨m, hm, rfl⟩ := Option.map_eq_some_iff.mp hs
      exact submitMany_accepts hm
    | lease i msgId =>
      obtain ⟨_, msg, queue, _, rfl⟩ := lease_some hs
      exact ⟨[], rfl⟩
    | leaseLost msgId =>
      obtain ⟨⟨msg, queue⟩, _, rfl⟩ := Option.map_eq_some_iff.mp hs
      exact ⟨[], rfl⟩
    | call i x =>
      obtain ⟨c, k, r, m, hi, he, rfl⟩ := Pool.run_some hs
      cases c with
      | store c =>
        have hp : c.Honest genuine s.mem := h.honest.pre hi
        rcases StoreCall.exec_cases he with ha | ⟨rfl, _⟩
        · exact honest_call h.covered.1 hp ha
        · exact ⟨[], rfl⟩
      | startHeartbeat msgId =>
        rw [startHeartbeat_step he]
        exact ⟨[], rfl⟩
      | dropHeartbeat msgId =>
        rw [dropHeartbeat_step he]
        exact ⟨[], rfl⟩
      | exec e =>
        cases x with
        | exec y =>
          obtain ⟨⟨_, _⟩, _, e2⟩ := Option.map_eq_some_iff.mp he
          cases e2
          exact ⟨[], rfl⟩
        | ok => cases he
        | err msg => cases he
        | lost msg => cases he
    | crash i =>
      cases hs
      exact ⟨[], rfl⟩
    | extendVt msgId =>
      cases hs
      exact ⟨[], rfl⟩
    | lapse msgId =>
      cases hs
      exact ⟨[], rfl⟩
    | tick now =>
      cases hs
      exact ⟨[], rfl⟩
    | executor x =>
      cases hs
      exact ⟨[], rfl⟩
  obtain ⟨ops, ho⟩ := hkey
  refine ⟨ops, t.mem.entry, ?_, hcov, hhon, rfl⟩
  rw [← h.shown]
  exact ho

theorem Served.empty {s : WorkerPool ι E τ A} (hj : s.mem.jobs = Jobs.empty)
    (hq : s.mem.queue = Queue.empty) (hsub : s.mem.submitted = []) (ht : ∀ i, s.thread i = none)
    (hG : G.inv [] s.mem.executor) : Served genuine step G s fun _ => none := by
  have hr : (workerSys (fun _ _ _ => .ret (.error .notFound)) ⟨0⟩ step).Reachable s :=
    Sys.Reachable.init ⟨hj, hq, hsub, ht⟩
  refine ⟨workerSys_safe hr, ⟨⟨?_, ?_⟩, fun i p hp => ?_⟩, ?_⟩
  · intro m hm
    rw [hq] at hm
    cases hm
  · rw [hsub]
    exact hG
  · rw [ht i] at hp
    cases hp
  · funext id
    unfold Store.entry Store.submission
    rw [hsub]
    rfl

variable (genuine) in
/-- what the rows of the table tell of the submitted jobs -/
structure Store.Told (s : Store τ) : Prop where
  shown : ∀ id, s.entry id = none ↔ id ∉ s.submitted.map Prod.fst
  job : ∀ id e, s.entry id = some e → (id, e.job) ∈ s.submitted
  done : ∀ id e v, s.entry id = some e → e.fate = .done v → genuine e.job v
  failed : ∀ id e error, s.entry id = some e → e.fate = .failed error → error = GIVEN_UP

theorem Served.told {s : WorkerPool ι E τ A} (h : Served genuine step G s s.mem.entry)
    (hv : (serviceSys genuine).Reachable s.mem.entry) : s.mem.Told genuine where
  shown _ := Store.entry_eq_none h.covered.1
  job id e he := by
    obtain ⟨job, hjob, hmap⟩ := Option.bind_eq_some_iff.mp he
    obtain ⟨_, _, rfl⟩ := Option.map_eq_some_iff.mp hmap
    exact Store.mem_submitted hjob
  done id e v he hd := (service_genuine hv id e he).1 v hd
  failed id e error he hf := (service_genuine hv id e he).2 error hf

/-- **The worker loops refine the service**, with any sincere executor. -/
theorem refines_service (hsin : Sincere genuine step G analyze) (cfg : WorkerConfig)
    (hG : ∀ x, G.inv [] x) : (workerSys analyze cfg step).Refines (serviceSys genuine)
      G.Moves (Served genuine step G) where
  init _ h := ⟨_, rfl, Served.empty h.1 h.2.1 h.2.2.1 h.2.2.2 (hG _)⟩
  step _ _ _ _ h hok hs := h.stepped hsin hok hs

end

/-! ## one process -/

section
variable {ι τ χ : Type} [DecidableEq ι]

/-- an engine: what an analysis may answer, `x` being all that it depends on besides its input -/
abbrev EngineRun (χ : Type) := String → Option String → χ → AppResult Json

def engineStep (engine : EngineRun χ) :
    ExecutorStep ι EngineCall τ χ fun _ => AppResult Json :=
  fun _ c x t =>
    match c with
    | .analyze sgf humanProfile => some (engine sgf humanProfile x, t)

def Answered (engine : EngineRun χ) (job : NewJob) (v : Json) : Prop :=
  ∃ x, engine job.sgf job.humanProfile x = .ok v

def freeGround (ι τ : Type) : Ground ι τ where
  inv _ _ := True
  rely _ _ _ _ _ := True
  grow _ _ := ⟨trivial, fun _ => trivial⟩
  trans _ _ := trivial
  refl _ _ _ := trivial

theorem local_sincere (engine : EngineRun χ) :
    Sincere (Answered engine) (engineStep (ι := ι) (τ := τ) engine) (freeGround ι τ)
      localExecutor := by
  intro i id job s hjob hI s' hr hI'
  refine ⟨trivial, fun x r t he => ?_⟩
  cases x with
  | exec y =>
    have he' : some (engine job.sgf job.humanProfile y, { s' with executor := s'.executor })
        = some (r, t) := he
    cases he'
    refine ⟨⟨hI'.1, trivial⟩, fun j _ => ⟨List.Subset.refl _, trivial⟩, ?_⟩
    intro t' ht _ v hv
    exact ⟨job, ht.1 (hr.1 hjob), y, hv⟩
  | ok => cases he
  | err msg => cases he
  | lost msg => cases he

variable (τ ι) in
/-- any number of loops of one process, with its engine -/
abbrev standaloneSys (engine : EngineRun χ) (cfg : WorkerConfig) :
    Sys (WorkerPool ι EngineCall τ fun _ => AppResult Json) (WorkerAct ι τ χ) :=
  workerSys localExecutor cfg (engineStep engine)

theorem standaloneSys_refines (engine : EngineRun χ) (cfg : WorkerConfig) :
    (standaloneSys ι τ engine cfg).Refines (serviceSys (Answered engine)) (fun _ _ => True)
      (Served (Answered engine) (engineStep engine) (freeGround ι τ)) := by
  have h := refines_service (local_sincere (ι := ι) (τ := τ) engine) cfg fun _ => trivial
  refine ⟨h.init, fun s a s' t hR _ hs => h.step s a s' t hR ?_ hs⟩
  cases a with
  | executor x => exact ⟨trivial, fun _ => trivial⟩
  | _ => exact trivial

variable {engine : EngineRun χ} {cfg : WorkerConfig}
  {s t : WorkerPool ι EngineCall τ fun _ => AppResult Json}

theorem standalone_served (h : (standaloneSys ι τ engine cfg).Reachable s) :
    Served (Answered engine) (engineStep engine) (freeGround ι τ) s s.mem.entry ∧
      (serviceSys (Answered engine)).Reachable s.mem.entry := by
  obtain ⟨v, hv, hR⟩ := (standaloneSys_refines engine cfg).reachable h.always
  obtain rfl := hR.shown
  exact ⟨hR, hv⟩

theorem standalone_matched (h : (standaloneSys ι τ engine cfg).Reachable s)
    {as : List (WorkerAct ι τ χ)} (he : (standaloneSys ι τ engine cfg).exec s as = some t) :
    ∃ ops, (serviceSys (Answered engine)).exec s.mem.entry ops = some t.mem.entry := by
  obtain ⟨ops, w, hops, hR⟩ := (standaloneSys_refines engine cfg).exec (standalone_served h).1
    (Sys.Meets.trivial s as) he
  obtain rfl := hR.shown
  exact ⟨ops, hops⟩

theorem standalone_kept (h : (standaloneSys ι τ engine cfg).Reachable s)
    {as : List (WorkerAct ι τ χ)} (he : (standaloneSys ι τ engine cfg).exec s as = some t) :
    s.mem.entry.Evolves t.mem.entry := by
  obtain ⟨ops, hops⟩ := standalone_matched h he
  exact service_evolves hops

/-- **The standalone service**: whatever the loops, the store, the queue and the engine do, the
table shows a run of the service of the submitted jobs: each is accepted once, and finished once
with an answer of the engine to its own game, or given up once. -/
theorem standalone_refines (h : (standaloneSys ι τ engine cfg).Reachable s) :
    (serviceSys (Answered engine)).Reachable s.mem.entry ∧ s.mem.Told (Answered engine) ∧
      ∀ as t, (standaloneSys ι τ engine cfg).exec s as = some t →
        ∃ ops, (serviceSys (Answered engine)).exec s.mem.entry ops = some t.mem.entry := by
  obtain ⟨hserved, hv⟩ := standalone_served h
  exact ⟨hv, hserved.told hv, fun _ _ he => standalone_matched h he⟩

end

def anyEngine : EngineRun (AppResult Json) := fun _ _ x => x

theorem redelivered : (standaloneSys ℕ Unit anyEngine ⟨3⟩).exec emptyWorkers redelivery
    = some afterRedelivery := rfl

theorem afterRedelivery_standalone :
    (standaloneSys ℕ Unit anyEngine ⟨3⟩).Reachable afterRedelivery :=
  ⟨emptyWorkers, redelivery, ⟨rfl, rfl, rfl, fun _ => rfl⟩, redelivered⟩

theorem standalone_refines_redelivery :
    (∃ e, afterRedelivery.mem.entry 1 = some e ∧ e.fate = .done .null ∧
      Answered anyEngine e.job .null) ∧
    afterRedelivery.mem.entry 2 = some ⟨⟨"(;B[dd])", some "rank_5k"⟩, .pending⟩ := by
  have htold := (standalone_refines afterRedelivery_standalone).2.1
  have hdone := htold.done 1 ⟨⟨"(;B[pd])", none⟩, .done .null⟩ .null rfl rfl
  exact ⟨⟨_, rfl, rfl, hdone⟩, rfl⟩

end KatagoWs
