import Mathlib.Data.Fintype.Card
import Mathlib.Data.List.Perm.Subperm
import KatagoWs.Cluster.Session

/-!
# Backpressure: what a session may ask of its worker

A loop leases its next job when the analysis of the last one has returned, so the requests the
worker still owes are bounded by the loops, as long as every analysis waits for its own answer.
A run is recorded with what goes over the socket (`Traffic`), and `wire` is the protocol of the
remote executor: open a channel, register it, send, wait.

* `analysis_conforms`   the program of `analyze` keeps to the protocol;
* `unshared`            no loop registers a job that has a waiter, and a Result of a job with a
                        waiter answers a request that was sent;
* `Flow`                the invariant: every unanswered request has its own waiter;
* `slots_kept`          then the worker owes at most `slots` answers, and an analysis ends with a
                        Result of its own job, or with the session;
* `slots_exceeded`      a job delivered twice to one session ends the first analysis early.
-/

set_option linter.unusedSectionVars false

namespace KatagoWs
open Lib

def MAX_SLOTS : Nat := 64

def clampSlots (advertised : Nat) : Nat := max 1 (min advertised MAX_SLOTS)

section
variable {ι : Type}

/-! ## the protocol of the remote executor -/

/-- where the analysis of a loop is; `quiet` between two of them -/
inductive Stage (ι : Type) where
  | quiet
  | opened (tx : Tx ι)
  | registered (jobId : Uuid) (tx : Tx ι)
  | waiting (jobId : Uuid) (tx : Tx ι)
  | refused (jobId : Uuid)

namespace Stage

def tx : Stage ι → Option (Tx ι)
  | .opened tx => some tx
  | .registered _ tx => some tx
  | .waiting _ tx => some tx
  | _ => none

/-- its entry in `pending`, from the registration on -/
def entry : Stage ι → Option (Uuid × Tx ι)
  | .registered jobId tx => some (jobId, tx)
  | .waiting jobId tx => some (jobId, tx)
  | _ => none

def next (st : Stage ι) : (c : Call (RemoteCall ι)) → Answer RemoteAnswer c → Stage ι
  | .exec .oneshot, tx => .opened tx
  | .exec (.insert jobId tx), _ => .registered jobId tx
  | .exec (.send request), sent =>
    match st.tx, (sent : Bool) with
    | some tx, true => .waiting request.jobId tx
    | _, _ => .refused request.jobId
  | .exec (.recv _), _ => .quiet
  | .exec (.remove _), _ => .quiet
  | .store _, _ => st
  | .startHeartbeat _, _ => st
  | .dropHeartbeat _, _ => st

def allowed (st : Stage ι) : Call (RemoteCall ι) → Prop
  | .exec (.insert _ tx) => st = .opened tx
  | .exec (.send request) => ∃ tx, st = .registered request.jobId tx
  | .exec (.recv tx) => ∃ jobId, st = .waiting jobId tx
  | .exec (.remove jobId) => st = .refused jobId
  | _ => st = .quiet

theorem tx_of_entry {st : Stage ι} {e : Uuid × Tx ι} (h : st.entry = some e) :
    st.tx = some e.2 := by
  cases st with
  | registered jobId tx => cases h; rfl
  | waiting jobId tx => cases h; rfl
  | _ => cases h

end Stage

def wire : Protocol (Stage ι) (Call (RemoteCall ι)) (Answer RemoteAnswer) where
  allowed := Stage.allowed
  next := Stage.next

/-- what is left of a loop's delivery, seen from its stage -/
def Talks : Option (Prog (Call (RemoteCall ι)) (Answer RemoteAnswer) (Except AppError Unit)) →
    Stage ι → Prop
  | none, st => st = .quiet
  | some p, st => p.Conforms wire (fun _ st => st = .quiet) st

theorem analysis_conforms (msg : JobMessage) :
    (analysis RemoteExecutor.analyze msg).Conforms wire (fun _ (st : Stage ι) => st = .quiet)
      .quiet := by
  refine ⟨rfl, fun tx => ⟨rfl, fun _ => ⟨⟨tx, rfl⟩, fun sent => ?_⟩⟩⟩
  match (sent : Bool) with
  | true =>
    refine ⟨⟨_, rfl⟩, fun outcome => ?_⟩
    match (outcome : Option JobOutcome) with
    | some (.ok value) => rfl
    | some (.error message) => rfl
    | none => rfl
  | false => exact ⟨rfl, fun _ => rfl⟩

theorem tryStore_conforms (c : StoreCall) {st : Stage ι} (h : st = .quiet) :
    (tryStore c : HandleM (RemoteCall ι) RemoteAnswer Unit).run.Conforms wire
      (fun _ st => st = .quiet) st := ⟨h, fun _ => h⟩

/-- **The program of one delivery** talks to the session only inside its analysis. -/
theorem handle_conforms (cfg : WorkerConfig) (msg : Message) :
    (handle RemoteExecutor.analyze cfg msg).run.Conforms wire
      (fun _ (st : Stage ι) => st = .quiet) .quiet := by
  unfold handle
  dsimp only
  split
  · exact Prog.Conforms.andThen (tryStore_conforms _ rfl) fun _ _ h => tryStore_conforms _ h
  · refine Prog.Conforms.andThen (tryStore_conforms _ rfl) fun _ st1 h1 => ?_
    subst h1
    refine Prog.Conforms.andThen (Prog.Conforms.lift ⟨rfl, fun _ => rfl⟩) fun _ st2 h2 => ?_
    subst h2
    refine Prog.Conforms.andThen (Prog.Conforms.lift (analysis_conforms _)) fun result st3 h3 => ?_
    subst h3
    refine Prog.Conforms.andThen (Prog.Conforms.lift ⟨rfl, fun _ => rfl⟩) fun _ st4 h4 => ?_
    subst h4
    cases result with
    | ok value =>
      exact Prog.Conforms.andThen (tryStore_conforms _ rfl) fun _ _ h => tryStore_conforms _ h
    | error err => exact tryStore_conforms _ rfl

/-! ## a run, recorded -/

/-- the stage of every loop, the requests sent on the socket whose Result was not received, and
the Results of its job that were received since a loop registered it -/
structure Traffic (ι : Type) where
  stage : ι → Stage ι
  unanswered : List JobRequest
  heard : ι → List JobOutcome

def Traffic.start : Traffic ι := ⟨fun _ => .quiet, [], fun _ => []⟩

def Traffic.sent (h : Traffic ι) (s : Session ι) : Traffic ι :=
  { h with unanswered := h.unanswered ++ s.out.take 1 }

def Traffic.received (h : Traffic ι) (jobId : Uuid) (outcome : JobOutcome) : Traffic ι :=
  { h with
    unanswered := h.unanswered.eraseP fun r => r.jobId = jobId
    heard := fun i =>
      if (h.stage i).entry.map Prod.fst = some jobId then outcome :: h.heard i else h.heard i }

variable [DecidableEq ι]

def Traffic.called (h : Traffic ι) (i : ι) (c : Call (RemoteCall ι)) (r : Answer RemoteAnswer c) :
    Traffic ι :=
  { h with
    stage := Function.update h.stage i ((h.stage i).next c r)
    heard :=
      match c with
      | .exec (.insert _ _) => Function.update h.heard i []
      | _ => h.heard }

def Traffic.note (slots : Nat) (s : SessionPool ι) (a : SessionAct ι) (h : Traffic ι) :
    Traffic ι :=
  match a with
  | .call i x =>
    match s.thread i with
    | some (.call c _) =>
      match Call.step (RemoteCall.step slots) i c x s.mem with
      | some (r, _) => h.called i c r
      | none => h
    | _ => h
  | .io .dispatch => h.sent s.mem.executor
  | .io (.completeJob jobId outcome) => h.received jobId outcome
  | _ => h

def trafficSys (cfg : WorkerConfig) (slots : Nat) :
    Sys (SessionPool ι × Traffic ι) (SessionAct ι) :=
  (sessionSys cfg slots).withHistory Traffic.start (Traffic.note slots)

theorem traffic_reachable {cfg : WorkerConfig} {slots : Nat} {s : SessionPool ι} :
    (sessionSys cfg slots).Reachable s ↔ ∃ h, (trafficSys cfg slots).Reachable (s, h) :=
  Sys.withHistory_reachable

/-- in the I/O loop's time: a loop registers no job that has a waiter, and the Result of a job
that has one answers a request that was sent -/
def unshared (p : SessionPool ι × Traffic ι) : SessionAct ι → Bool
  | .call i _ =>
    match p.1.thread i with
    | some (.call (.exec (.insert jobId _)) _) =>
      p.1.mem.executor.phase ≠ .running || p.1.mem.executor.pending.all fun e => e.1 ≠ jobId
    | _ => true
  | .io (.completeJob jobId _) =>
    (p.1.mem.executor.pending.all fun e => e.1 ≠ jobId) ||
      p.2.unanswered.any fun r => r.jobId = jobId
  | _ => true

/-! ## the invariant -/

/-- while the I/O loop runs: `pending` has one entry for every loop that waits, and every request
on its way or unanswered belongs to an entry of its own -/
structure Open (s : Session ι) (h : Traffic ι) : Prop where
  stored : ∀ e ∈ s.pending, (h.stage e.2.owner).entry = some e
  keys : (s.pending.map Prod.fst).Nodup
  silent : ∀ e ∈ s.pending, ∀ o ∈ s.outcomes, o.1 ≠ e.2
  kept : ∀ i jobId tx, h.stage i = .registered jobId tx → (jobId, tx) ∈ s.pending
  waits : ∀ i jobId tx, h.stage i = .waiting jobId tx →
    (jobId, tx) ∈ s.pending ∨ ∃ o ∈ s.outcomes, o.1 = tx
  requested : ∀ r ∈ h.unanswered ++ s.out, ∃ e ∈ s.pending, e.1 = r.jobId ∧
    h.stage e.2.owner = .waiting e.1 e.2
  once : ((h.unanswered ++ s.out).map JobRequest.jobId).Nodup

variable [Fintype ι]

structure Flow (s : Session ι) (h : Traffic ι) : Prop where
  mine : ∀ i tx, (h.stage i).tx = some tx → tx.owner = i ∧ tx.serial < s.nextTx
  used : ∀ o ∈ s.outcomes, o.1.serial < s.nextTx
  unused : ∀ i tx, h.stage i = .opened tx → ∀ o ∈ s.outcomes, o.1 ≠ tx
  heard : ∀ o ∈ s.outcomes, ∀ i jobId, (h.stage i).entry = some (jobId, o.1) → o.2 ∈ h.heard i
  refused : ∀ i jobId, h.stage i = .refused jobId → s.phase = .finished
  bounded : h.unanswered.length ≤ Fintype.card ι
  opened : s.phase = .running → Open s h

theorem Open.same_job {s : Session ι} {h : Traffic ι} (ho : Open s h) {e f : Uuid × Tx ι}
    (he : e ∈ s.pending) (hf : f ∈ s.pending) (hj : e.1 = f.1) : e = f :=
  List.inj_on_of_nodup_map ho.keys he hf hj

theorem Open.same_owner {s : Session ι} {h : Traffic ι} (ho : Open s h) {e f : Uuid × Tx ι}
    (he : e ∈ s.pending) (hf : f ∈ s.pending) (hj : e.2.owner = f.2.owner) : e = f := by
  have h1 := ho.stored e he
  rw [hj, ho.stored f hf] at h1
  exact (Option.some.inj h1).symm

theorem Open.length_le {s : Session ι} {h : Traffic ι} (ho : Open s h) :
    (h.unanswered ++ s.out).length ≤ Fintype.card ι := by
  have hsub : (h.unanswered ++ s.out).map JobRequest.jobId ⊆ s.pending.map Prod.fst := by
    intro jobId hj
    obtain ⟨r, hr, rfl⟩ := List.mem_map.mp hj
    obtain ⟨e, he, hid, _⟩ := ho.requested r hr
    exact List.mem_map.mpr ⟨e, he, hid⟩
  have howners : (s.pending.map fun e => e.2.owner).Nodup :=
    (List.Nodup.of_map _ ho.keys).map_on fun e he f hf hj => ho.same_owner he hf hj
  calc (h.unanswered ++ s.out).length
      = ((h.unanswered ++ s.out).map JobRequest.jobId).length := (List.length_map _).symm
    _ ≤ (s.pending.map Prod.fst).length := (List.Nodup.subperm ho.once hsub).length_le
    _ = (s.pending.map fun e => e.2.owner).length := by rw [List.length_map, List.length_map]
    _ ≤ Fintype.card ι := howners.length_le_card

/-! ## one step -/

theorem Open.owner_ne {s : Session ι} {h : Traffic ι} (ho : Open s h) {i : ι}
    (hi : (h.stage i).entry = none) {e : Uuid × Tx ι} (he : e ∈ s.pending) : e.2.owner ≠ i := by
  rintro rfl
  rw [ho.stored e he] at hi
  cases hi

theorem Open.requester_ne {s : Session ι} {h : Traffic ι} (ho : Open s h) {i : ι}
    (hi : ∀ jobId tx, h.stage i = .waiting jobId tx → (jobId, tx) ∉ s.pending) {r : JobRequest}
    (hr : r ∈ h.unanswered ++ s.out) : ∃ e ∈ s.pending, e.1 = r.jobId ∧
      h.stage e.2.owner = .waiting e.1 e.2 ∧ e.2.owner ≠ i := by
  obtain ⟨e, he, hid, hw⟩ := ho.requested r hr
  exact ⟨e, he, hid, hw, fun hi' => hi e.1 e.2 (hi' ▸ hw) he⟩

/-- a call of loop `i`: what it has to show of its own entry, while the other entries stay -/
theorem Open.called {s t : Session ι} {h : Traffic ι} {i : ι} {c : Call (RemoteCall ι)}
    {r : Answer RemoteAnswer c} {st : Stage ι} (ho : Open s h)
    (hmine : ∀ j tx, (h.stage j).tx = some tx → tx.owner = j) (hst : (h.stage i).next c r = st)
    (hi : ∀ jobId tx, h.stage i = .waiting jobId tx → (jobId, tx) ∉ s.pending)
    (hout : t.outcomes = s.outcomes)
    (hkeep : ∀ e ∈ s.pending, e.2.owner ≠ i → e ∈ t.pending)
    (hpend : ∀ e ∈ t.pending, (e.2.owner ≠ i ∧ e ∈ s.pending) ∨
      (e.2.owner = i ∧ st.entry = some e ∧ ∀ o ∈ s.outcomes, o.1 ≠ e.2))
    (hkeys : (t.pending.map Prod.fst).Nodup)
    (hentry : ∀ e, st.entry = some e → e ∈ t.pending)
    (hreq : ∀ q ∈ h.unanswered ++ t.out, q ∈ h.unanswered ++ s.out ∨
      ∃ e ∈ t.pending, e.1 = q.jobId ∧ e.2.owner = i ∧ st = .waiting e.1 e.2)
    (honce : ((h.unanswered ++ t.out).map JobRequest.jobId).Nodup) :
    Open t (h.called i c r) := by
  have hother : ∀ j, j ≠ i → (h.called i c r).stage j = h.stage j :=
    fun j hj => Function.update_of_ne hj _ _
  have hself : (h.called i c r).stage i = st := (Function.update_self ..).trans hst
  refine ⟨?_, hkeys, ?_, ?_, ?_, ?_, honce⟩
  · intro e he
    rcases hpend e he with ⟨hne, hs⟩ | ⟨rfl, hs, _⟩
    · rw [hother _ hne]
      exact ho.stored e hs
    · rw [hself]
      exact hs
  · intro e he o hm
    rw [hout] at hm
    rcases hpend e he with ⟨_, hs⟩ | ⟨_, _, hs⟩
    · exact ho.silent e hs o hm
    · exact hs o hm
  · intro j jobId tx hj
    by_cases hji : j = i
    · subst hji
      exact hentry _ (by rw [← hself, hj]; rfl)
    · rw [hother j hji] at hj
      refine hkeep _ (ho.kept j jobId tx hj) fun he => hji ?_
      exact (hmine j tx (by rw [hj]; rfl)).symm.trans he
  · intro j jobId tx hj
    by_cases hji : j = i
    · subst hji
      exact Or.inl (hentry _ (by rw [← hself, hj]; rfl))
    · rw [hother j hji] at hj
      rw [hout]
      refine (ho.waits j jobId tx hj).imp_left fun hm => hkeep _ hm fun he => hji ?_
      exact (hmine j tx (by rw [hj]; rfl)).symm.trans he
  · intro q hq
    rcases hreq q hq with hq | ⟨e, he, hid, rfl, hw⟩
    · obtain ⟨e, he, hid, hw, hne⟩ := ho.requester_ne hi hq
      exact ⟨e, hkeep e he hne, hid, (hother _ hne).trans hw⟩
    · exact ⟨e, he, hid, hself.trans hw⟩

theorem Flow.called {s t : Session ι} {h : Traffic ι} {i : ι} {c : Call (RemoteCall ι)}
    {r : Answer RemoteAnswer c} (hf : Flow s h) (st : Stage ι)
    (hst : (h.stage i).next c r = st) (hphase : t.phase = s.phase)
    (hout : t.outcomes = s.outcomes) (hnext : s.nextTx ≤ t.nextTx)
    (hmine : ∀ tx, st.tx = some tx → tx.owner = i ∧ tx.serial < t.nextTx)
    (hunused : ∀ tx, st = .opened tx → ∀ o ∈ s.outcomes, o.1 ≠ tx)
    (hheard : ∀ o ∈ s.outcomes, ∀ jobId, st.entry = some (jobId, o.1) →
      o.2 ∈ (h.called i c r).heard i)
    (hrefused : ∀ jobId, st = .refused jobId → s.phase = .finished)
    (hopen : Open s h → s.phase = .running → Open t (h.called i c r)) :
    Flow t (h.called i c r) := by
  have hother : ∀ j, j ≠ i → (h.called i c r).stage j = h.stage j :=
    fun j hj => Function.update_of_ne hj _ _
  have hself : (h.called i c r).stage i = st := (Function.update_self ..).trans hst
  have hears : ∀ j, j ≠ i → (h.called i c r).heard j = h.heard j := by
    intro j hj
    unfold Traffic.called
    dsimp only
    split
    · exact Function.update_of_ne hj _ _
    · rfl
  refine ⟨?_, ?_, ?_, ?_, ?_, hf.bounded, fun hp => ?_⟩
  · intro j tx hj
    by_cases hji : j = i
    · subst hji
      exact hmine tx (by rw [← hself]; exact hj)
    · rw [hother j hji] at hj
      obtain ⟨h1, h2⟩ := hf.mine j tx hj
      exact ⟨h1, lt_of_lt_of_le h2 hnext⟩
  · rw [hout]
    exact fun o ho => lt_of_lt_of_le (hf.used o ho) hnext
  · rw [hout]
    intro j tx hj
    by_cases hji : j = i
    · subst hji
      exact hunused tx (by rw [← hself]; exact hj)
    · exact hf.unused j tx ((hother j hji).symm.trans hj)
  · rw [hout]
    intro o ho j jobId hj
    by_cases hji : j = i
    · subst hji
      exact hheard o ho jobId (by rw [← hself]; exact hj)
    · rw [hother j hji] at hj
      rw [hears j hji]
      exact hf.heard o ho j jobId hj
  · rw [hphase]
    intro j jobId hj
    by_cases hji : j = i
    · subst hji
      exact hrefused jobId (by rw [← hself]; exact hj)
    · exact hf.refused j jobId ((hother j hji).symm.trans hj)
  · rw [hphase] at hp
    exact hopen (hf.opened hp) hp

theorem Flow.owner {s : Session ι} {h : Traffic ι} (hf : Flow s h) :
    ∀ j tx, (h.stage j).tx = some tx → tx.owner = j := fun j tx hj => (hf.mine j tx hj).1

theorem Flow.oneshot {s : Session ι} {h : Traffic ι} {i : ι} (hf : Flow s h)
    (hi : h.stage i = .quiet) :
    Flow { s with nextTx := s.nextTx + 1 }
      (h.called i (.exec .oneshot) (⟨i, s.nextTx⟩ : Tx ι)) := by
  refine hf.called (.opened ⟨i, s.nextTx⟩) rfl rfl rfl (Nat.le_succ _) ?_ ?_
    (fun _ _ _ h => by cases h) (fun _ h => by cases h) fun ho _ => ?_
  · intro tx htx
    cases htx
    exact ⟨rfl, Nat.lt_succ_self _⟩
  · intro tx htx o ho he
    cases htx
    have hlt := hf.used o ho
    rw [he] at hlt
    exact lt_irrefl _ hlt
  · have hne : ∀ e ∈ s.pending, e.2.owner ≠ i := fun e he => ho.owner_ne (by rw [hi]; rfl) he
    exact ho.called hf.owner rfl (fun _ _ h => by rw [hi] at h; cases h) rfl (fun e he _ => he)
      (fun e he => Or.inl ⟨hne e he, he⟩) ho.keys (fun _ h => by cases h) (fun q hq => Or.inl hq)
      ho.once

theorem Flow.insert {s : Session ι} {h : Traffic ι} {i : ι} {jobId : Uuid} {tx : Tx ι}
    (hf : Flow s h) (hi : h.stage i = .opened tx)
    (hnew : s.phase = .running → ∀ e ∈ s.pending, e.1 ≠ jobId) :
    Flow { s with pending := (jobId, tx) :: (s.forget jobId).pending }
      (h.called i (.exec (.insert jobId tx)) ()) := by
  have hmine := hf.mine i tx (by rw [hi]; rfl)
  have hunused := hf.unused i tx hi
  refine hf.called (.registered jobId tx) rfl rfl rfl (le_refl _) ?_ (fun _ h => by cases h)
    ?_ (fun _ h => by cases h) fun ho hp => ?_
  · intro tx' htx
    cases htx
    exact hmine
  · intro o ho jobId' he
    cases he
    exact absurd rfl (hunused o ho)
  · have hforget : (s.forget jobId).pending = s.pending :=
      List.filter_eq_self.mpr fun e he => decide_eq_true (hnew hp e he)
    rw [hforget]
    refine ho.called hf.owner rfl (fun _ _ h => by rw [hi] at h; cases h) rfl
      (fun e he _ => List.mem_cons_of_mem _ he) (fun e he => ?_) ?_ (fun e he => ?_)
      (fun q hq => Or.inl hq) ho.once
    · rcases List.mem_cons.mp he with rfl | he
      · exact Or.inr ⟨hmine.1, rfl, hunused⟩
      · exact Or.inl ⟨ho.owner_ne (by rw [hi]; rfl) he, he⟩
    · refine List.nodup_cons.mpr ⟨fun hm => ?_, ho.keys⟩
      obtain ⟨e, he, hid⟩ := List.mem_map.mp hm
      exact hnew hp e he hid
    · cases he
      exact List.mem_cons_self

theorem Flow.send {s t : Session ι} {h : Traffic ι} {i : ι} {request : JobRequest} {tx : Tx ι}
    {sent : Bool} {slots : Nat} (hf : Flow s h) (hi : h.stage i = .registered request.jobId tx)
    (hs : RemoteCall.step slots i (.send request) () s = some (sent, t)) :
    Flow t (h.called i (.exec (.send request)) sent) := by
  have htx : (h.stage i).tx = some tx := by rw [hi]; rfl
  have hmine := hf.mine i tx htx
  rcases send_cases hs with ⟨hfin, rfl, rfl⟩ | ⟨_, rfl, rfl⟩
  · refine hf.called (.refused request.jobId) (by rw [hi]; rfl) rfl rfl (le_refl _)
      (fun _ h => by cases h) (fun _ h => by cases h) (fun _ _ _ h => by cases h)
      (fun _ _ => hfin) fun _ hp => ?_
    rw [hfin] at hp
    cases hp
  · have hnext : (h.stage i).next (.exec (.send request)) true = .waiting request.jobId tx := by
      rw [hi]
      rfl
    refine hf.called _ hnext rfl rfl (le_refl _) ?_ (fun _ h => by cases h) ?_
      (fun _ h => by cases h) fun ho _ => ?_
    · intro tx' h'
      cases h'
      exact hmine
    · intro o ho jobId he
      cases he
      exact hf.heard o ho i _ (by rw [hi]; rfl)
    · have hmem := ho.kept i _ tx hi
      have hfresh : request.jobId ∉ (h.unanswered ++ s.out).map JobRequest.jobId := by
        intro hm
        obtain ⟨q, hq, hid⟩ := List.mem_map.mp hm
        obtain ⟨e, he, hq', hw⟩ := ho.requested q hq
        obtain rfl : e = (request.jobId, tx) := ho.same_job he hmem (hq'.trans hid)
        rw [hmine.1, hi] at hw
        cases hw
      refine ho.called hf.owner hnext (fun _ _ h => by rw [hi] at h; cases h) rfl
        (fun e he _ => he) (fun e he => ?_) ho.keys (fun e he => ?_) (fun q hq => ?_) ?_
      · by_cases hj : e.2.owner = i
        · obtain rfl : e = (request.jobId, tx) := ho.same_owner he hmem (hj.trans hmine.1.symm)
          exact Or.inr ⟨hj, rfl, ho.silent _ hmem⟩
        · exact Or.inl ⟨hj, he⟩
      · cases he
        exact hmem
      · rw [← List.append_assoc, List.mem_append, List.mem_singleton] at hq
        rcases hq with hq | rfl
        · exact Or.inl hq
        · exact Or.inr ⟨_, hmem, rfl, hmine.1, rfl⟩
      · rw [← List.append_assoc, List.map_append]
        exact List.nodup_append'.mpr ⟨ho.once, List.nodup_singleton _,
          List.disjoint_singleton.mpr hfresh⟩

theorem Flow.recv {s t : Session ι} {h : Traffic ι} {i : ι} {jobId : Uuid} {tx : Tx ι}
    {r : Option JobOutcome} {slots : Nat} (hf : Flow s h) (hi : h.stage i = .waiting jobId tx)
    (hs : RemoteCall.step slots i (.recv tx) () s = some (r, t)) :
    Flow t (h.called i (.exec (.recv tx)) r) := by
  obtain ⟨rfl, hr⟩ := recv_cases hs
  refine hf.called .quiet rfl rfl rfl (le_refl _) (fun _ h => by cases h)
    (fun _ h => by cases h) (fun _ _ _ h => by cases h) (fun _ h => by cases h) fun ho _ => ?_
  have hgone : (jobId, tx) ∉ t.pending := by
    intro hm
    rcases hr with ⟨o, hmo, he, _⟩ | ⟨_, hh, _⟩
    · exact ho.silent _ hm o hmo he
    · exact hh ⟨_, hm, rfl⟩
  have hne : ∀ e ∈ t.pending, e.2.owner ≠ i := by
    rintro e he rfl
    have hs' := ho.stored e he
    rw [hi] at hs'
    cases hs'
    exact hgone he
  refine ho.called hf.owner rfl (fun jobId' tx' h => ?_) rfl (fun e he _ => he)
    (fun e he => Or.inl ⟨hne e he, he⟩) ho.keys (fun _ h => by cases h) (fun q hq => Or.inl hq)
    ho.once
  rw [hi] at h
  cases h
  exact hgone

theorem Flow.remove {s : Session ι} {h : Traffic ι} {i : ι} {jobId : Uuid} (hf : Flow s h)
    (hi : h.stage i = .refused jobId) :
    Flow (s.forget jobId) (h.called i (.exec (.remove jobId)) ()) := by
  refine hf.called .quiet rfl rfl rfl (le_refl _) (fun _ h => by cases h)
    (fun _ h => by cases h) (fun _ _ _ h => by cases h) (fun _ h => by cases h) fun _ hp => ?_
  rw [hf.refused i jobId hi] at hp
  cases hp

theorem Flow.dispatch {s t : Session ι} {h : Traffic ι} (hf : Flow s h) (hp : s.phase = .running)
    (hd : s.dispatch = some t) : Flow t (h.sent s) := by
  unfold Session.dispatch at hd
  split at hd
  case h_1 => cases hd
  case h_2 r out hout =>
    cases hd
    have ho := hf.opened hp
    have hway : (h.sent s).unanswered ++ out = h.unanswered ++ s.out := by
      show (h.unanswered ++ s.out.take 1) ++ out = h.unanswered ++ s.out
      rw [hout, List.append_assoc]
      rfl
    have hopen : Open { s with out } (h.sent s) := by
      refine ⟨ho.stored, ho.keys, ho.silent, ho.kept, ho.waits, fun q hq => ?_, ?_⟩
      · exact ho.requested q (by rw [← hway]; exact hq)
      · show (((h.sent s).unanswered ++ out).map JobRequest.jobId).Nodup
        rw [hway]
        exact ho.once
    refine ⟨hf.mine, hf.used, hf.unused, hf.heard, hf.refused, ?_, fun _ => hopen⟩
    exact le_trans (List.sublist_append_left _ out).length_le hopen.length_le

theorem jobId_ne_of_erased {l : List JobRequest} (hl : (l.map JobRequest.jobId).Nodup)
    {jobId : Uuid} {r : JobRequest} (hr : r ∈ l.eraseP fun q => q.jobId = jobId) :
    r.jobId ≠ jobId := by
  induction l with
  | nil => cases hr
  | cons q l ih =>
    obtain ⟨hq, hl'⟩ := List.nodup_cons.mp hl
    by_cases he : q.jobId = jobId
    · have hpos : decide (q.jobId = jobId) = true := decide_eq_true he
      rw [List.eraseP_cons, hpos] at hr
      rintro rfl
      exact hq (he ▸ List.mem_map_of_mem hr)
    · have hneg : decide (q.jobId = jobId) = false := decide_eq_false he
      rw [List.eraseP_cons, hneg] at hr
      rcases List.mem_cons.mp hr with rfl | hr
      · exact he
      · exact ih hl' hr

theorem Traffic.heard_mono (h : Traffic ι) (jobId : Uuid) (outcome : JobOutcome) {i : ι}
    {o : JobOutcome} (ho : o ∈ h.heard i) : o ∈ (h.received jobId outcome).heard i := by
  show o ∈ if _ then _ else _
  split
  · exact List.mem_cons_of_mem _ ho
  · exact ho

/-- the waiter of an answered request is taken out, and its loop has heard the outcome -/
theorem Open.completeJob {s : Session ι} {h : Traffic ι} {e : Uuid × Tx ι} {outcome : JobOutcome}
    (ho : Open s h) (hmine : ∀ j tx, (h.stage j).tx = some tx → tx.owner = j)
    (he : e ∈ s.pending) (hreq : ∃ r ∈ h.unanswered, r.jobId = e.1) :
    Open { s.forget e.1 with outcomes := (e.2, outcome) :: s.outcomes }
      (h.received e.1 outcome) := by
  obtain ⟨q, hq, hqid⟩ := hreq
  have hkept : ∀ f ∈ s.pending, f ≠ e → f ∈ (s.forget e.1).pending := by
    intro f hf hne
    exact List.mem_filter.mpr ⟨hf, decide_eq_true fun hj => hne (ho.same_job hf he hj)⟩
  have hwait : h.stage e.2.owner = .waiting e.1 e.2 := by
    obtain ⟨f, hf, hid, hw⟩ := ho.requested q (List.mem_append_left _ hq)
    obtain rfl : f = e := ho.same_job hf he (hid.trans hqid)
    exact hw
  have hsub : ((h.received e.1 outcome).unanswered ++ s.out).Sublist (h.unanswered ++ s.out) :=
    List.Sublist.append List.eraseP_sublist (List.Sublist.refl _)
  have honce := ho.once
  rw [List.map_append, List.nodup_append'] at honce
  obtain ⟨hun, _, hdisj⟩ := honce
  refine ⟨fun f hf => ho.stored f (Session.mem_forget hf), ho.keys.sublist ?_, ?_, ?_, ?_, ?_,
    ho.once.sublist (hsub.map _)⟩
  · exact (List.filter_sublist).map _
  · intro f hf o hm
    rcases List.mem_cons.mp hm with rfl | hm
    · intro htx
      obtain rfl : e = f := ho.same_owner he (Session.mem_forget hf) (congrArg Tx.owner htx)
      exact of_decide_eq_true (List.mem_filter.mp hf).2 rfl
    · exact ho.silent f (Session.mem_forget hf) o hm
  · intro j jobId tx hj
    replace hj : h.stage j = .registered jobId tx := hj
    refine hkept _ (ho.kept j jobId tx hj) ?_
    rintro rfl
    replace hwait : h.stage tx.owner = .waiting jobId tx := hwait
    rw [hmine j tx (by rw [hj]; rfl), hj] at hwait
    cases hwait
  · intro j jobId tx hj
    rcases ho.waits j jobId tx hj with hm | ⟨o, hm, htx⟩
    · by_cases hje : (jobId, tx) = e
      · exact Or.inr ⟨_, List.mem_cons_self, (congrArg Prod.snd hje).symm⟩
      · exact Or.inl (hkept _ hm hje)
    · exact Or.inr ⟨o, List.mem_cons_of_mem _ hm, htx⟩
  · intro r hr
    obtain ⟨f, hf, hid, hw⟩ := ho.requested r (hsub.subset hr)
    refine ⟨f, hkept f hf ?_, hid, hw⟩
    rintro rfl
    rcases List.mem_append.mp hr with hr | hr
    · exact jobId_ne_of_erased hun hr hid.symm
    · refine hdisj (List.mem_map_of_mem hq) ?_
      rw [hqid, hid]
      exact List.mem_map_of_mem hr

/-- a Result comes in, for a job without waiter or as the answer of a request -/
theorem Flow.completeJob {s : Session ι} {h : Traffic ι} {jobId : Uuid} {outcome : JobOutcome}
    (hf : Flow s h) (hp : s.phase = .running)
    (hok : (∀ e ∈ s.pending, e.1 ≠ jobId) ∨ ∃ r ∈ h.unanswered, r.jobId = jobId) :
    Flow (s.completeJob jobId outcome) (h.received jobId outcome) := by
  have ho := hf.opened hp
  have hlen : (h.received jobId outcome).unanswered.length ≤ Fintype.card ι :=
    le_trans List.eraseP_sublist.length_le hf.bounded
  unfold Session.completeJob
  split
  case h_1 e hfind =>
    have he := List.mem_of_find?_eq_some hfind
    obtain rfl : e.1 = jobId := of_decide_eq_true (List.find?_some hfind :)
    have hreq : ∃ r ∈ h.unanswered, r.jobId = e.1 :=
      hok.resolve_left fun hno => hno e he rfl
    have hstage := ho.stored e he
    refine ⟨hf.mine, ?_, ?_, ?_, hf.refused, hlen, fun _ => ho.completeJob hf.owner he hreq⟩
    · intro o hm
      rcases List.mem_cons.mp hm with rfl | hm
      · exact (hf.mine _ _ (Stage.tx_of_entry hstage)).2
      · exact hf.used o hm
    · intro j tx hj o hm
      rcases List.mem_cons.mp hm with rfl | hm
      · replace hj : h.stage j = .opened tx := hj
        rintro rfl
        rw [hf.owner j e.2 (by rw [hj]; rfl), hj] at hstage
        cases hstage
      · exact hf.unused j tx hj o hm
    · intro o hm j jobId hj
      rcases List.mem_cons.mp hm with rfl | hm
      · replace hj : (h.stage j).entry = some (jobId, e.2) := hj
        rw [hf.owner j e.2 (Stage.tx_of_entry (e := (jobId, e.2)) hj)] at hstage
        show outcome ∈ if (h.stage j).entry.map Prod.fst = some e.1 then _ else _
        have hjob : (h.stage j).entry.map Prod.fst = some e.1 := by
          rw [hstage]
          rfl
        rw [if_pos hjob]
        exact List.mem_cons_self
      · exact h.heard_mono _ _ (hf.heard o hm j jobId hj)
  case h_2 hnone =>
    have hno : ∀ e ∈ s.pending, e.1 ≠ jobId := fun e he hj =>
      List.find?_eq_none.mp hnone e he (decide_eq_true hj)
    have hsame : (h.received jobId outcome).unanswered = h.unanswered := by
      refine List.eraseP_of_forall_not fun r hr hj => ?_
      obtain ⟨e, he, hid, _⟩ := ho.requested r (List.mem_append_left _ hr)
      exact hno e he (hid.trans (of_decide_eq_true hj))
    refine ⟨hf.mine, hf.used, hf.unused,
      fun o hm j id hj => h.heard_mono _ _ (hf.heard o hm j id hj),
      hf.refused, hlen, fun _ => ⟨ho.stored, ho.keys, ho.silent, ho.kept, ho.waits, ?_, ?_⟩⟩
    · rw [hsame]
      exact ho.requested
    · rw [hsame]
      exact ho.once

theorem Flow.teardown {s t : Session ι} {h : Traffic ι} (hf : Flow s h)
    (hp : t.phase ≠ .running) (hfin : s.phase = .finished → t.phase = .finished)
    (hout : t.outcomes = s.outcomes) (hnext : t.nextTx = s.nextTx) : Flow t h := by
  refine ⟨?_, ?_, ?_, ?_, fun j jobId hj => hfin (hf.refused j jobId hj), hf.bounded,
    fun hr => absurd hr hp⟩
  · rw [hnext]
    exact hf.mine
  · rw [hout, hnext]
    exact hf.used
  · rw [hout]
    exact hf.unused
  · rw [hout]
    exact hf.heard

theorem Flow.io {s t : Session ι} {h : Traffic ι} {a : SessionIo} (slots : Nat)
    {p : SessionPool ι} (hf : Flow s h) (hm : p.mem.executor = s) (hs : s.io a = some t)
    (hok : unshared (p, h) (.io a) = true) : Flow t (Traffic.note slots p (.io a) h) := by
  subst hm
  cases a with
  | dispatch =>
    obtain ⟨hp, hd⟩ := Option.ite_none_right_eq_some.mp hs
    exact hf.dispatch hp hd
  | completeJob jobId outcome =>
    obtain ⟨hp, hd⟩ := Option.ite_none_right_eq_some.mp hs
    cases hd
    refine hf.completeJob hp ?_
    rcases (Bool.or_eq_true ..).mp hok with hno | hreq
    · exact Or.inl fun e he => of_decide_eq_true (List.all_eq_true.mp hno e he)
    · obtain ⟨r, hr, hid⟩ := List.any_eq_true.mp hreq
      exact Or.inr ⟨r, hr, of_decide_eq_true hid⟩
  | leave =>
    obtain ⟨hp, hd⟩ := Option.ite_none_right_eq_some.mp hs
    cases hd
    exact hf.teardown (fun h => by cases h) (fun h => by rw [hp] at h; cases h) rfl rfl
  | cancel =>
    obtain ⟨hp, hd⟩ := Option.ite_none_right_eq_some.mp hs
    cases hd
    exact hf.teardown (fun h => by cases h) (fun h => by rw [hp] at h; cases h) rfl rfl
  | clear =>
    obtain ⟨hp, hd⟩ := Option.ite_none_right_eq_some.mp hs
    cases hd
    exact hf.teardown (fun h => by cases h) (fun h => by rw [hp] at h; cases h) rfl rfl
  | finish =>
    obtain ⟨hp, hd⟩ := Option.ite_none_right_eq_some.mp hs
    cases hd
    exact hf.teardown (fun h => by cases h) (fun _ => rfl) rfl rfl

theorem Flow.exec {s t : Session ι} {h : Traffic ι} {i : ι} {c : RemoteCall ι}
    {r : RemoteAnswer c} {slots : Nat} (hf : Flow s h)
    (hallow : (h.stage i).allowed (.exec c))
    (hnew : ∀ jobId tx, c = .insert jobId tx → s.phase = .running → ∀ e ∈ s.pending, e.1 ≠ jobId)
    (hs : RemoteCall.step slots i c () s = some (r, t)) : Flow t (h.called i (.exec c) r) := by
  cases c with
  | oneshot =>
    cases hs
    exact hf.oneshot hallow
  | insert jobId tx =>
    cases hs
    exact hf.insert hallow (hnew jobId tx rfl)
  | send request =>
    obtain ⟨tx, hi⟩ := hallow
    exact hf.send hi hs
  | recv tx =>
    obtain ⟨jobId, hi⟩ := hallow
    exact hf.recv hi hs
  | remove jobId =>
    cases hs
    exact hf.remove hallow

/-! ## every run that shares no job -/

variable {cfg : WorkerConfig} {slots : Nat}

/-- **The invariant of a recorded run**: the flow of the session, and what every loop has left
to do in its stage. -/
structure Flowing (p : SessionPool ι × Traffic ι) : Prop where
  flow : Flow p.1.mem.executor p.2
  talks : ∀ i, Talks (p.1.thread i) (p.2.stage i)

theorem Call.step_exec {E τ χ : Type} {A : E → Type} {step : ExecutorStep ι E τ χ A} {i : ι}
    {e : E} {x : CallOutcome χ} {s t : Store τ} {r : A e}
    (h : Call.step step i (.exec e) x s = some (r, t)) :
    ∃ y, step i e y s.executor = some (r, t.executor) := by
  cases x with
  | exec y =>
    obtain ⟨⟨_, _⟩, h1, h2⟩ := Option.map_eq_some_iff.mp h
    cases h2
    exact ⟨y, h1⟩
  | ok => cases h
  | err msg => cases h
  | lost msg => cases h

theorem Traffic.called_quiet (h : Traffic ι) (i : ι) {c : Call (RemoteCall ι)}
    (hc : ∀ e, c ≠ .exec e) (r : Answer RemoteAnswer c) : h.called i c r = h := by
  cases c with
  | exec e => exact absurd rfl (hc e)
  | _ =>
    unfold Traffic.called Stage.next
    rw [Function.update_eq_self]

theorem traffic_call {p q : SessionPool ι × Traffic ι} {i : ι} {x : CallOutcome Unit}
    (hs : (trafficSys cfg slots).step p (.call i x) = some q) :
    ∃ c k r m, p.1.thread i = some (.call c k) ∧
      Call.step (RemoteCall.step slots) i c x p.1.mem = some (r, m) ∧
      q.1 = { mem := m, thread := Function.update p.1.thread i (some (k r)) } ∧
      q.2 = p.2.called i c r := by
  obtain ⟨ht, hh⟩ := Sys.withHistory_step hs
  obtain ⟨c, k, r, m, hi, he, hq⟩ := Pool.run_some ht
  refine ⟨c, k, r, m, hi, he, hq, ?_⟩
  rw [hh]
  unfold Traffic.note
  dsimp only
  rw [hi]
  dsimp only
  rw [he]

theorem Flowing.call {p q : SessionPool ι × Traffic ι} {i : ι} {x : CallOutcome Unit}
    (hf : Flowing p) (hok : unshared p (.call i x) = true)
    (hs : (trafficSys cfg slots).step p (.call i x) = some q) : Flowing q := by
  obtain ⟨c, k, r, m, hi, he, hq, hnote⟩ := traffic_call hs
  have hi' := hf.talks i
  rw [hi] at hi'
  obtain ⟨hallow, hrest⟩ := hi'
  refine ⟨?_, fun j => ?_⟩
  · rw [hq, hnote]
    by_cases hc : ∃ e, c = .exec e
    · obtain ⟨e, rfl⟩ := hc
      obtain ⟨_, hstep⟩ := Call.step_exec he
      refine hf.flow.exec hallow (fun jobId tx hins hp f hm => ?_) hstep
      subst hins
      unfold unshared at hok
      dsimp only at hok
      rw [hi] at hok
      rcases (Bool.or_eq_true ..).mp hok with hne | hall
      · exact absurd hp (of_decide_eq_true hne)
      · exact of_decide_eq_true (List.all_eq_true.mp hall f hm)
    · have hno : ∀ e, c ≠ .exec e := fun e h => hc ⟨e, h⟩
      rw [p.2.called_quiet i hno]
      have hex : m.executor = p.1.mem.executor := Call.step_executor hno he
      show Flow m.executor p.2
      rw [hex]
      exact hf.flow
  · rw [hq, hnote]
    dsimp only [Traffic.called]
    by_cases hj : j = i
    · subst hj
      rw [Function.update_self, Function.update_self]
      exact hrest r
    · rw [Function.update_of_ne hj, Function.update_of_ne hj]
      exact hf.talks j

theorem Flowing.stepped {p q : SessionPool ι × Traffic ι} {a : SessionAct ι} (hf : Flowing p)
    (hok : unshared p a = true) (hs : (trafficSys cfg slots).step p a = some q) : Flowing q := by
  cases a with
  | call i x => exact hf.call hok hs
  | lease i msgId =>
    obtain ⟨ht, hh⟩ := Sys.withHistory_step hs
    have hl : workerStep RemoteExecutor.analyze cfg (RemoteCall.step slots) p.1 (.lease i msgId)
      = some q.1 := ht
    obtain ⟨hidle, msg, queue, _, hq⟩ := lease_some hl
    replace hh : q.2 = p.2 := hh
    have hquiet : p.2.stage i = .quiet := by
      have hi := hf.talks i
      cases hthread : p.1.thread i with
      | none => rw [hthread] at hi; exact hi
      | some prog =>
        cases prog with
        | ret r => rw [hthread] at hi; exact hi
        | call c k => rw [hthread] at hidle; cases hidle
    rw [← Prod.mk.eta (p := q), hq, hh]
    refine ⟨hf.flow, fun j => ?_⟩
    dsimp only
    by_cases hj : j = i
    · subst hj
      rw [Function.update_self, hquiet]
      exact handle_conforms cfg msg
    · rw [Function.update_of_ne hj]
      exact hf.talks j
  | io a =>
    obtain ⟨ht, hh⟩ := Sys.withHistory_step hs
    obtain ⟨e, he, hq⟩ := Option.map_eq_some_iff.mp ht
    have hflow := hf.flow.io slots rfl he hok
    rw [← Prod.mk.eta (p := q), ← hq, hh]
    refine ⟨hflow, fun j => ?_⟩
    have hstage : (Traffic.note slots p.1 (.io a) p.2).stage = p.2.stage := by
      cases a <;> rfl
    rw [hstage]
    exact hf.talks j
  | store jobs queue now =>
    cases hs
    exact ⟨hf.flow, hf.talks⟩

theorem traffic_flowing {p : SessionPool ι × Traffic ι}
    (h : (trafficSys cfg slots).ReachableIf (fun p a => unshared p a = true) p) : Flowing p := by
  refine h.rule ?_ fun p a q hf hok hs => hf.stepped hok hs
  rintro ⟨s, k⟩ ⟨⟨hnew, h0⟩, hk⟩
  cases hk
  refine ⟨?_, fun i => ?_⟩
  · rw [hnew]
    have hopen : Open (Session.new : Session ι) Traffic.start :=
      ⟨List.forall_mem_nil _, List.nodup_nil, List.forall_mem_nil _, fun _ _ _ h => (by cases h),
        fun _ _ _ h => (by cases h), List.forall_mem_nil _, List.nodup_nil⟩
    exact ⟨fun _ _ h => (by cases h), List.forall_mem_nil _, fun _ _ h => (by cases h),
      List.forall_mem_nil _, fun _ _ h => (by cases h), Nat.zero_le _, fun _ => hopen⟩
  · rw [h0 i]
    rfl

/-- the analysis of loop `i` ends with a Result of its job that came in since it registered the
channel `tx`, or the session has left its I/O loop -/
def EndsRight (p q : SessionPool ι × Traffic ι) (i : ι) (tx : Tx ι) : Prop :=
  p.1.mem.executor.phase ≠ .running ∨
    ∃ (k : Option JobOutcome → Prog (Call (RemoteCall ι)) (Answer RemoteAnswer) (AppResult Unit))
      (outcome : JobOutcome), outcome ∈ p.2.heard i ∧
      p.1.thread i = some (.call (.exec (.recv tx)) k) ∧ q.1.thread i = some (k (some outcome))

theorem note_stage {p q : SessionPool ι × Traffic ι} {a : SessionAct ι} {i : ι}
    (hs : (trafficSys cfg slots).step p a = some q) (hne : q.2.stage i ≠ p.2.stage i) :
    ∃ x, a = .call i x := by
  cases a with
  | call j x =>
    by_cases hj : i = j
    · exact ⟨x, by rw [hj]⟩
    · refine absurd ?_ hne
      obtain ⟨_, _, _, _, _, _, _, hnote⟩ := traffic_call hs
      rw [hnote]
      exact Function.update_of_ne hj _ _
  | io a =>
    obtain ⟨_, hh⟩ := Sys.withHistory_step hs
    refine absurd ?_ hne
    rw [hh]
    cases a <;> rfl
  | lease j msgId =>
    obtain ⟨_, hh⟩ := Sys.withHistory_step hs
    exact absurd (congrFun (congrArg Traffic.stage hh) i) hne
  | store jobs queue now =>
    obtain ⟨_, hh⟩ := Sys.withHistory_step hs
    exact absurd (congrFun (congrArg Traffic.stage hh) i) hne

/-- **An analysis ends with its own Result, or with the session.** -/
theorem Flowing.ends {p q : SessionPool ι × Traffic ι} {a : SessionAct ι} (hf : Flowing p)
    (hs : (trafficSys cfg slots).step p a = some q) {i : ι} {jobId : Uuid} {tx : Tx ι}
    (hp : (p.2.stage i).entry = some (jobId, tx)) (hq : (q.2.stage i).entry = none) :
    EndsRight p q i tx := by
  have hne : q.2.stage i ≠ p.2.stage i := fun h => by
    rw [h, hp] at hq
    cases hq
  obtain ⟨x, rfl⟩ := note_stage hs hne
  obtain ⟨c, k, r, m, hi, he, hq1, hq2⟩ := traffic_call hs
  have hnext : q.2.stage i = (p.2.stage i).next c r := by
    rw [hq2]
    exact Function.update_self ..
  have hallow : (p.2.stage i).allowed c := by
    have htalk := hf.talks i
    rw [hi] at htalk
    exact htalk.1
  have hbusy : p.2.stage i ≠ .quiet := fun h => by
    rw [h] at hp
    cases hp
  match c, k, r, hi, he, hq1, hallow, hnext with
  | .exec (.send request), k, sent, hi, he, hq1, ⟨tx', hst⟩, hnext =>
    left
    obtain ⟨_, hstep⟩ := Call.step_exec he
    rw [hst] at hnext
    rcases send_cases hstep with ⟨hfin, -, -⟩ | ⟨-, rfl, -⟩
    · intro hrun
      rw [hrun] at hfin
      cases hfin
    · rw [hnext] at hq
      cases hq
  | .exec (.recv tx'), k, r, hi, he, hq1, ⟨jobId', hst⟩, hnext =>
    have hjob : (jobId', tx') = (jobId, tx) := by
      rw [hst] at hp
      exact Option.some.inj hp
    obtain ⟨rfl, rfl⟩ := Prod.mk.inj hjob
    obtain ⟨_, hstep⟩ := Call.step_exec he
    obtain ⟨_, ⟨o, ho, rfl, rfl⟩ | ⟨_, hh', hno⟩⟩ := recv_cases hstep
    · refine Or.inr ⟨k, o.2, hf.flow.heard o ho i jobId' (by rw [hst]; rfl), hi, ?_⟩
      rw [hq1]
      exact Function.update_self ..
    · left
      intro hrun
      rcases (hf.flow.opened hrun).waits i jobId' tx' hst with hm | ⟨o, ho, htx⟩
      · exact hh' ⟨_, hm, rfl⟩
      · exact hno o ho htx
  | .exec (.insert _ tx'), k, r, hi, he, hq1, hst, hnext =>
    rw [show p.2.stage i = .opened tx' from hst] at hp
    cases hp
  | .exec (.remove jobId'), k, r, hi, he, hq1, hst, hnext =>
    rw [show p.2.stage i = .refused jobId' from hst] at hp
    cases hp
  | .exec .oneshot, k, r, hi, he, hq1, hst, hnext => exact absurd hst hbusy
  | .store _, k, r, hi, he, hq1, hst, hnext => exact absurd hst hbusy
  | .startHeartbeat _, k, r, hi, he, hq1, hst, hnext => exact absurd hst hbusy
  | .dropHeartbeat _, k, r, hi, he, hq1, hst, hnext => exact absurd hst hbusy

end

/-- **A worker is never over-committed**, in every run that shares no job: it owes at most
`slots` answers, and an analysis ends with a Result of its own job or with the session. -/
theorem slots_kept (cfg : WorkerConfig) (advertised : Nat)
    {p : SessionPool (Fin (clampSlots advertised)) × Traffic (Fin (clampSlots advertised))}
    (hr : (trafficSys cfg (clampSlots advertised)).ReachableIf
      (fun p a => unshared p a = true) p) :
    p.2.unanswered.length ≤ clampSlots advertised ∧
    ∀ a q i jobId tx, (trafficSys cfg (clampSlots advertised)).step p a = some q →
      (p.2.stage i).entry = some (jobId, tx) → (q.2.stage i).entry = none →
        EndsRight p q i tx := by
  have hf := traffic_flowing hr
  refine ⟨?_, fun a q i jobId tx hs hp hq => hf.ends hs hp hq⟩
  have hb := hf.flow.bounded
  rw [Fintype.card_fin] at hb
  exact hb

/-! ## one job, two loops -/

def twoJobs : Queue :=
  (Queue.empty.send ⟨7, "(;B[pd])", none⟩).send ⟨8, "(;B[dd])", none⟩

def twoLoops : SessionPool (Fin 2) × Traffic (Fin 2) :=
  (⟨⟨Jobs.empty, twoJobs, 0, [], Session.new⟩, fun _ => none⟩, Traffic.start)

/-- a loop leases the message and sends its request, which goes out -/
def ask (i : Fin 2) (msgId : Nat) : List (SessionAct (Fin 2)) :=
  [.lease i msgId, .call i .ok, .call i .ok, .call i (.exec ()), .call i (.exec ()),
   .call i (.exec ()), .io .dispatch]

/-- job 7 is analysed and answered twice; then its loop takes job 8 -/
def answered : List (SessionAct (Fin 2)) :=
  ask 0 1 ++ [.io (.completeJob 7 (.ok .null)), .io (.completeJob 7 (.ok .null)),
    .call 0 (.exec ()), .call 0 .ok, .call 0 .ok, .call 0 .ok] ++ ask 0 2

def afterAnswered : SessionPool (Fin 2) × Traffic (Fin 2) :=
  ((trafficSys ⟨3⟩ (clampSlots 2)).exec twoLoops answered).getD twoLoops

theorem slots_kept_answered : afterAnswered.2.unanswered.map JobRequest.jobId = [8] ∧
    afterAnswered.2.unanswered.length ≤ clampSlots 2 := by
  refine ⟨by decide, (slots_kept ⟨3⟩ 2 (p := afterAnswered) ?_).1⟩
  exact ⟨twoLoops, answered, ⟨⟨rfl, fun _ => rfl⟩, rfl⟩, rfl, Sys.Meets.of_check rfl⟩

/-- the lease of job 7 lapses, and the other loop registers it again: the first one has lost its
waiter, and takes job 8 -/
def shared : List (SessionAct (Fin 2)) :=
  ask 0 1 ++ [.store Jobs.empty twoJobs 0] ++ ask 1 1 ++
    [.call 0 (.exec ()), .call 0 .ok, .call 0 .ok] ++ ask 0 2

def afterShared : SessionPool (Fin 2) × Traffic (Fin 2) :=
  ((trafficSys ⟨3⟩ (clampSlots 2)).exec twoLoops shared).getD twoLoops

/-- two loops, three requests unanswered -/
theorem slots_exceeded : ¬ ∀ (cfg : WorkerConfig) (advertised : Nat)
    (p : SessionPool (Fin (clampSlots advertised)) × Traffic (Fin (clampSlots advertised))),
    (trafficSys cfg (clampSlots advertised)).Reachable p →
      p.2.unanswered.length ≤ clampSlots advertised := by
  intro h
  have hr : (trafficSys ⟨3⟩ (clampSlots 2)).Reachable afterShared :=
    ⟨twoLoops, shared, ⟨⟨rfl, fun _ => rfl⟩, rfl⟩, rfl⟩
  exact absurd (h ⟨3⟩ 2 afterShared hr) (by decide)

end KatagoWs
