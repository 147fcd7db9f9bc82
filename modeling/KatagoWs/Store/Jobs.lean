import Mathlib.Data.List.Nodup
import KatagoWs.Basic
import KatagoWs.Lib.Run

/-!
# The `jobs` table: guarded transitions

One row per job, updated in place.  Every write goes through the trigger `jobs_stamp_change`
(`Job.stampChange`: the next `change_seq`, `updated_at = now()`) and is rejected as a whole when
a written row breaks the constraint `jobs_result_xor_error`; an insert of an id that exists is
rejected by the primary key, which a table value carries as `Jobs.nodup`.

* `Jobs.setRunning`, `Jobs.recordAttemptFailure`, `Jobs.setDone`, `Jobs.setFailed`   the four
  updates: one guard (`NON_TERMINAL`), four SET lists (`JobSet`);
* `Job.Evolves`, `Jobs.Evolves`   what may become of a row, and of a table, over time;
* `Jobs.update_spec`     what one update does;
* `jobsSys`              the table under any sequence of inserts and updates;
* `lifecycle_monotone`   the lifecycle only moves forward, and no update is ever rejected.
-/

set_option linter.unusedSectionVars false

namespace KatagoWs
open Lib

/-! ## statuses and rows -/

inductive JobStatus where
  | queued
  | running
  | done
  | failed
deriving DecidableEq, Repr

/-- `NON_TERMINAL`: the statuses a transition may move from -/
def nonTerminal : List JobStatus := [.queued, .running]

def JobStatus.rank : JobStatus → Nat
  | .queued => 0
  | .running => 1
  | .done => 2
  | .failed => 2

structure Job where
  id : Uuid
  status : JobStatus
  result : Option Json
  error : Option String
  lastError : Option String
  createdAt : Timestamp
  updatedAt : Timestamp
  changeSeq : Nat

/-- the CHECK constraint `jobs_result_xor_error` -/
def Job.resultXorError (j : Job) : Bool :=
  (nonTerminal.contains j.status && j.result.isNone && j.error.isNone) ||
  (j.status == .done && j.result.isSome && j.error.isNone) ||
  (j.status == .failed && j.error.isSome && j.result.isNone)

/-- the trigger `jobs_stamp_change` -/
def Job.stampChange (now : Timestamp) (seq : Nat) (j : Job) : Job :=
  { j with changeSeq := seq, updatedAt := now }

/-- a SET list: `none` leaves the column alone, `some v` writes `v` -/
structure JobSet where
  status : Option JobStatus := none
  result : Option (Option Json) := none
  error : Option (Option String) := none
  lastError : Option (Option String) := none

def JobSet.assign (c : JobSet) (j : Job) : Job :=
  { j with
    status := c.status.getD j.status
    result := c.result.getD j.result
    error := c.error.getD j.error
    lastError := c.lastError.getD j.lastError }

theorem nonTerminal_iff (s : JobStatus) : s ∈ nonTerminal ↔ s.rank < 2 := by
  cases s <;> decide

/-! ## the table -/

/-- the rows in insertion order, the last number drawn from `jobs_change_seq`, and the primary
key -/
structure Jobs where
  rows : List Job
  seq : Nat
  nodup : (rows.map Job.id).Nodup

def Jobs.empty : Jobs := ⟨[], 0, List.nodup_nil⟩

def Jobs.ids (t : Jobs) : List Uuid := t.rows.map Job.id

/-- the rows after `UPDATE jobs SET c WHERE p`, and the last number drawn -/
def updateRows (now : Timestamp) (p : Job → Bool) (c : JobSet) : List Job → Nat → List Job × Nat
  | [], n => ([], n)
  | j :: js, n =>
    if p j then
      let (js', m) := updateRows now p c js (n + 1)
      ((c.assign j).stampChange now (n + 1) :: js', m)
    else
      let (js', m) := updateRows now p c js n
      (j :: js', m)

theorem updateRows_ids (now : Timestamp) (p : Job → Bool) (c : JobSet) (js : List Job) (n : Nat) :
    (updateRows now p c js n).1.map Job.id = js.map Job.id := by
  induction js generalizing n with
  | nil => rfl
  | cons j js ih =>
    by_cases h : p j = true
    · simp only [updateRows, h, if_true, List.map_cons, ih]
      rfl
    · simp only [updateRows, h, if_false, List.map_cons, ih, Bool.false_eq_true]

theorem updateRows_seq (now : Timestamp) (p : Job → Bool) (c : JobSet) (js : List Job) (n : Nat) :
    n ≤ (updateRows now p c js n).2 := by
  induction js generalizing n with
  | nil => exact le_refl n
  | cons j js ih =>
    by_cases h : p j = true
    · simp only [updateRows, h, if_true]
      exact le_trans (Nat.le_succ n) (ih (n + 1))
    · simp only [updateRows, h, if_false, Bool.false_eq_true]
      exact ih n

/-- `UPDATE jobs SET c WHERE p`; `none` when a written row breaks the constraint -/
def Jobs.update (t : Jobs) (now : Timestamp) (p : Job → Bool) (c : JobSet) : Option Jobs :=
  if (t.rows.filter p).all fun j => (c.assign j).resultXorError then
    some {
      rows := (updateRows now p c t.rows t.seq).1
      seq := (updateRows now p c t.rows t.seq).2
      nodup := by rw [updateRows_ids]; exact t.nodup }
  else none

/-- the row of `INSERT INTO jobs DEFAULT VALUES` that minted `id` -/
def Job.fresh (id : Uuid) (now : Timestamp) (seq : Nat) : Job :=
  { id, status := .queued, result := none, error := none, lastError := none
    createdAt := now, updatedAt := now, changeSeq := seq }

theorem Jobs.insert_nodup (t : Jobs) (id : Uuid) (j : Job) (hj : j.id = id) (h : id ∉ t.ids) :
    ((t.rows ++ [j]).map Job.id).Nodup := by
  rw [List.map_append, List.nodup_append]
  refine ⟨t.nodup, by simp, ?_⟩
  intro a ha b hb e
  simp only [List.map_cons, List.map_nil, List.mem_singleton] at hb
  rw [e, hb, hj] at ha
  exact h ha

/-- `INSERT INTO jobs DEFAULT VALUES`, with the id the database mints; `none` when it exists -/
def Jobs.insert (t : Jobs) (now : Timestamp) (id : Uuid) : Option Jobs :=
  if h : id ∈ t.ids then none
  else some {
    rows := t.rows ++ [Job.fresh id now (t.seq + 1)]
    seq := t.seq + 1
    nodup := t.insert_nodup id _ rfl h }

/-- `WHERE id = job_id AND status IN NON_TERMINAL` -/
def guarded (jobId : Uuid) (j : Job) : Bool := j.id == jobId && nonTerminal.contains j.status

/-- Mark a job as running.  No-op if already terminal. -/
def Jobs.setRunning (t : Jobs) (now : Timestamp) (jobId : Uuid) : Option Jobs :=
  t.update now (guarded jobId) { status := some .running }

/-- Record a transient attempt failure: the job stays retryable. -/
def Jobs.recordAttemptFailure (t : Jobs) (now : Timestamp) (jobId : Uuid) (error : String) :
    Option Jobs :=
  t.update now (guarded jobId) { lastError := some (some error) }

def Jobs.setDone (t : Jobs) (now : Timestamp) (jobId : Uuid) (result : Json) : Option Jobs :=
  t.update now (guarded jobId)
    { status := some .done, result := some (some result), error := some none }

/-- Give up on a job after exhausting retries. -/
def Jobs.setFailed (t : Jobs) (now : Timestamp) (jobId : Uuid) (error : String) : Option Jobs :=
  t.update now (guarded jobId)
    { status := some .failed, error := some (some error), result := some none }

/-! ## what may become of a row -/

/-- `j'` is a later state of the row `j` -/
structure Job.Evolves (j j' : Job) : Prop where
  id : j'.id = j.id
  createdAt : j'.createdAt = j.createdAt
  forward : j'.status = j.status ∨ j.status.rank < j'.status.rank
  frozen : j.status ∉ nonTerminal →
    j'.status = j.status ∧ j'.result = j.result ∧ j'.error = j.error

theorem Job.Evolves.refl (j : Job) : j.Evolves j :=
  ⟨rfl, rfl, Or.inl rfl, fun _ => ⟨rfl, rfl, rfl⟩⟩

theorem Job.Evolves.trans {a b c : Job} (h : a.Evolves b) (k : b.Evolves c) : a.Evolves c := by
  refine ⟨k.id.trans h.id, k.createdAt.trans h.createdAt, ?_, fun hn => ?_⟩
  · rcases h.forward with e | l
    · rw [← e]; exact k.forward
    · rcases k.forward with e | l'
      · exact Or.inr (by rw [e]; exact l)
      · exact Or.inr (lt_trans l l')
  · obtain ⟨h1, h2, h3⟩ := h.frozen hn
    obtain ⟨k1, k2, k3⟩ := k.frozen (by rw [h1]; exact hn)
    exact ⟨k1.trans h1, k2.trans h2, k3.trans h3⟩

/-- no row is lost, and every row evolves -/
def Jobs.Evolves (t t' : Jobs) : Prop :=
  t.seq ≤ t'.seq ∧ ∀ j ∈ t.rows, ∃ j' ∈ t'.rows, j.Evolves j'

theorem Jobs.Evolves.refl (t : Jobs) : t.Evolves t :=
  ⟨le_refl _, fun j hj => ⟨j, hj, Job.Evolves.refl j⟩⟩

theorem Jobs.Evolves.trans {a b c : Jobs} (h : a.Evolves b) (k : b.Evolves c) : a.Evolves c := by
  refine ⟨le_trans h.1 k.1, fun j hj => ?_⟩
  obtain ⟨j', hj', e⟩ := h.2 j hj
  obtain ⟨j'', hj'', e'⟩ := k.2 j' hj'
  exact ⟨j'', hj'', e.trans e'⟩

theorem Jobs.Evolves.ids {t t' : Jobs} (h : t.Evolves t') {id : Uuid} (hi : id ∈ t.ids) :
    id ∈ t'.ids := by
  obtain ⟨j, hj, rfl⟩ := List.mem_map.mp hi
  obtain ⟨j', hj', e⟩ := h.2 j hj
  exact List.mem_map.mpr ⟨j', hj', e.id⟩

theorem Jobs.row_unique (t : Jobs) {j k : Job} (hj : j ∈ t.rows) (hk : k ∈ t.rows)
    (h : j.id = k.id) : j = k := List.inj_on_of_nodup_map t.nodup hj hk h

/-! ## one update -/

/-- a row after an update: an old row the guard let be, or the new version of one it matched -/
theorem mem_updateRows {now : Timestamp} {p : Job → Bool} {c : JobSet} {js : List Job} {n : Nat}
    {j' : Job} (h : j' ∈ (updateRows now p c js n).1) :
    (j' ∈ js ∧ p j' = false) ∨
      ∃ j ∈ js, p j = true ∧ ∃ m, n < m ∧ m ≤ (updateRows now p c js n).2 ∧
        j' = (c.assign j).stampChange now m := by
  induction js generalizing n with
  | nil => simp [updateRows] at h
  | cons j js ih =>
    by_cases hp : p j = true
    · simp only [updateRows, hp, if_true, List.mem_cons] at h ⊢
      rcases h with rfl | h
      · exact Or.inr ⟨j, Or.inl rfl, hp, n + 1, Nat.lt_succ_self n, updateRows_seq .., rfl⟩
      · rcases ih h with ⟨h1, h2⟩ | ⟨k, h1, h2, m, h3, h4, h5⟩
        · exact Or.inl ⟨Or.inr h1, h2⟩
        · exact Or.inr ⟨k, Or.inr h1, h2, m, by omega, h4, h5⟩
    · simp only [updateRows, hp, if_false, List.mem_cons, Bool.false_eq_true] at h ⊢
      rcases h with rfl | h
      · exact Or.inl ⟨Or.inl rfl, Bool.not_eq_true _ ▸ hp⟩
      · rcases ih h with ⟨h1, h2⟩ | ⟨k, h1, h2, m, h3, h4, h5⟩
        · exact Or.inl ⟨Or.inr h1, h2⟩
        · exact Or.inr ⟨k, Or.inr h1, h2, m, h3, h4, h5⟩

theorem updateRows_keep (now : Timestamp) (p : Job → Bool) (c : JobSet) {js : List Job} (n : Nat)
    {j : Job} (hj : j ∈ js) :
    (p j = false ∧ j ∈ (updateRows now p c js n).1) ∨
      (p j = true ∧ ∃ m, (c.assign j).stampChange now m ∈ (updateRows now p c js n).1) := by
  induction js generalizing n with
  | nil => simp at hj
  | cons k js ih =>
    by_cases hp : p k = true
    · simp only [updateRows, hp, if_true, List.mem_cons] at hj ⊢
      rcases hj with rfl | hj
      · exact Or.inr ⟨hp, n + 1, Or.inl rfl⟩
      · rcases ih (n + 1) hj with ⟨h1, h2⟩ | ⟨h1, m, h2⟩
        · exact Or.inl ⟨h1, Or.inr h2⟩
        · exact Or.inr ⟨h1, m, Or.inr h2⟩
    · simp only [updateRows, hp, if_false, List.mem_cons, Bool.false_eq_true] at hj ⊢
      rcases hj with rfl | hj
      · exact Or.inl ⟨Bool.not_eq_true _ ▸ hp, Or.inl rfl⟩
      · rcases ih n hj with ⟨h1, h2⟩ | ⟨h1, m, h2⟩
        · exact Or.inl ⟨h1, Or.inr h2⟩
        · exact Or.inr ⟨h1, m, Or.inr h2⟩

/-- a SET list that moves every non-terminal row forward, and to a row the constraint allows -/
structure JobSet.Lawful (c : JobSet) : Prop where
  forward : ∀ j : Job, j.status ∈ nonTerminal →
    (c.assign j).status = j.status ∨ j.status.rank < (c.assign j).status.rank
  check : ∀ j : Job, j.status ∈ nonTerminal → j.resultXorError = true →
    (c.assign j).resultXorError = true

def Jobs.Checked (t : Jobs) : Prop := ∀ j ∈ t.rows, j.resultXorError = true

theorem guarded_true {jobId : Uuid} {j : Job} (h : guarded jobId j = true) :
    j.id = jobId ∧ j.status ∈ nonTerminal := by
  simpa [guarded] using h

/-- **One guarded update**: it is not rejected, every row evolves, the constraint is kept, and
the rows of other jobs and the terminal rows stay as they are. -/
theorem Jobs.update_spec {t : Jobs} (now : Timestamp) (jobId : Uuid) {c : JobSet} (hc : c.Lawful)
    (ht : t.Checked) : ∃ t', t.update now (guarded jobId) c = some t' ∧ t.Evolves t' ∧
      t'.Checked ∧ t'.ids = t.ids ∧
      (∀ j' ∈ t'.rows, (j' ∈ t.rows ∧ guarded jobId j' = false) ∨
        ∃ j ∈ t.rows, j.id = jobId ∧ j.status ∈ nonTerminal ∧ ∃ m,
          j' = (c.assign j).stampChange now m) := by
  have hall : ((t.rows.filter (guarded jobId)).all fun j => (c.assign j).resultXorError)
      = true := by
    rw [List.all_eq_true]
    intro j hj
    obtain ⟨hm, hg⟩ := List.mem_filter.mp hj
    exact hc.check j (guarded_true hg).2 (ht j hm)
  have hcases : ∀ j' ∈ (updateRows now (guarded jobId) c t.rows t.seq).1,
      (j' ∈ t.rows ∧ guarded jobId j' = false) ∨
        ∃ j ∈ t.rows, j.id = jobId ∧ j.status ∈ nonTerminal ∧ ∃ m,
          j' = (c.assign j).stampChange now m := by
    intro j' hj'
    rcases mem_updateRows hj' with h | ⟨j, hj, hg, m, _, _, e⟩
    · exact Or.inl h
    · exact Or.inr ⟨j, hj, (guarded_true hg).1, (guarded_true hg).2, m, e⟩
  refine ⟨_, if_pos hall, ⟨updateRows_seq .., ?_⟩, ?_, updateRows_ids .., hcases⟩
  · intro j hj
    rcases updateRows_keep now (guarded jobId) c t.seq hj with ⟨_, h⟩ | ⟨hg, m, h⟩
    · exact ⟨j, h, Job.Evolves.refl j⟩
    · have hn := (guarded_true hg).2
      exact ⟨_, h, ⟨rfl, rfl, hc.forward j hn, fun hf => absurd hn hf⟩⟩
  · intro j' hj'
    rcases hcases j' hj' with ⟨h, _⟩ | ⟨j, hj, _, hn, m, rfl⟩
    · exact ht j' h
    · exact hc.check j hn (ht j hj)

def Jobs.Unfinished (t : Jobs) (id : Uuid) : Prop :=
  ∃ j ∈ t.rows, j.id = id ∧ j.status ∈ nonTerminal

/-- the job `id` exists and has reached a terminal status -/
def Jobs.Settled (t : Jobs) (id : Uuid) : Prop := id ∈ t.ids ∧ ¬ t.Unfinished id

theorem Jobs.Settled.evolves {t t' : Jobs} {id : Uuid} (h : t.Settled id) (e : t.Evolves t') :
    t'.Settled id := by
  refine ⟨e.ids h.1, ?_⟩
  rintro ⟨j', hj', rfl, hn⟩
  obtain ⟨j, hj, hid⟩ := List.mem_map.mp h.1
  obtain ⟨k, hk, hev⟩ := e.2 j hj
  have hkj : k = j' := t'.row_unique hk hj' (hev.id.trans hid)
  by_cases hs : j.status ∈ nonTerminal
  · exact h.2 ⟨j, hj, hid, hs⟩
  · obtain ⟨h1, _⟩ := hev.frozen hs
    rw [← hkj, h1] at hn
    exact hs hn

/-! ## the four SET lists -/

theorem Job.blank {j : Job} (hn : j.status ∈ nonTerminal) (h : j.resultXorError = true) :
    j.result = none ∧ j.error = none := by
  have hd : j.status ≠ .done := by rintro e; rw [e] at hn; exact absurd hn (by decide)
  have hf : j.status ≠ .failed := by rintro e; rw [e] at hn; exact absurd hn (by decide)
  simp only [Job.resultXorError, Bool.or_eq_true, Bool.and_eq_true, beq_iff_eq,
    Option.isNone_iff_eq_none] at h
  rcases h with (⟨⟨_, h1⟩, h2⟩ | ⟨⟨h1, _⟩, _⟩) | ⟨⟨h1, _⟩, _⟩
  · exact ⟨h1, h2⟩
  · exact absurd h1 hd
  · exact absurd h1 hf

theorem lawful_running : ({ status := some .running } : JobSet).Lawful where
  forward j hn := by
    have h := (nonTerminal_iff _).mp hn
    show JobStatus.running = j.status ∨ j.status.rank < 1
    cases hs : j.status with
    | queued => exact Or.inr (by decide)
    | running => exact Or.inl rfl
    | done => rw [hs] at h; exact absurd h (by decide)
    | failed => rw [hs] at h; exact absurd h (by decide)
  check j hn h := by
    obtain ⟨h1, h2⟩ := Job.blank hn h
    simp [Job.resultXorError, JobSet.assign, h1, h2, nonTerminal]

theorem lawful_attempt (error : String) :
    ({ lastError := some (some error) } : JobSet).Lawful where
  forward _ _ := Or.inl rfl
  check _ _ h := h

theorem lawful_done (result : Json) :
    ({ status := some .done, result := some (some result), error := some none } :
      JobSet).Lawful where
  forward _ hn := Or.inr ((nonTerminal_iff _).mp hn)
  check _ _ _ := rfl

theorem lawful_failed (error : String) :
    ({ status := some .failed, error := some (some error), result := some none } :
      JobSet).Lawful where
  forward _ hn := Or.inr ((nonTerminal_iff _).mp hn)
  check _ _ _ := rfl

/-! ## any sequence of writes -/

/-- the writes of the program: a submitted row, and the four transitions of a delivery -/
inductive JobsOp where
  | insert (now : Timestamp) (id : Uuid)
  | setRunning (now : Timestamp) (jobId : Uuid)
  | recordAttemptFailure (now : Timestamp) (jobId : Uuid) (error : String)
  | setDone (now : Timestamp) (jobId : Uuid) (result : Json)
  | setFailed (now : Timestamp) (jobId : Uuid) (error : String)

def JobsOp.isInsert : JobsOp → Bool
  | .insert _ _ => true
  | _ => false

def Jobs.apply (t : Jobs) : JobsOp → Option Jobs
  | .insert now id => t.insert now id
  | .setRunning now jobId => t.setRunning now jobId
  | .recordAttemptFailure now jobId error => t.recordAttemptFailure now jobId error
  | .setDone now jobId result => t.setDone now jobId result
  | .setFailed now jobId error => t.setFailed now jobId error

def jobsSys : Sys Jobs JobsOp where
  init t := t = Jobs.empty
  step := Jobs.apply

theorem Job.fresh_checked (id : Uuid) (now : Timestamp) (seq : Nat) :
    (Job.fresh id now seq).resultXorError = true := rfl

theorem Jobs.insert_spec {t t' : Jobs} {now : Timestamp} {id : Uuid}
    (h : t.insert now id = some t') :
    id ∉ t.ids ∧ t'.rows = t.rows ++ [Job.fresh id now (t.seq + 1)] ∧ t'.seq = t.seq + 1 := by
  unfold Jobs.insert at h
  split at h
  · exact absurd h (by simp)
  · rename_i hn
    cases h
    exact ⟨hn, rfl, rfl⟩

theorem Jobs.insert_evolves {t t' : Jobs} {now : Timestamp} {id : Uuid}
    (h : t.insert now id = some t') : t.Evolves t' := by
  obtain ⟨_, hr, hs⟩ := Jobs.insert_spec h
  refine ⟨by omega, fun j hj => ⟨j, ?_, Job.Evolves.refl j⟩⟩
  rw [hr]
  exact List.mem_append_left _ hj

theorem Jobs.insert_checked {t t' : Jobs} {now : Timestamp} {id : Uuid}
    (h : t.insert now id = some t') (ht : t.Checked) : t'.Checked := by
  obtain ⟨_, hr, _⟩ := Jobs.insert_spec h
  intro j hj
  rw [hr, List.mem_append, List.mem_singleton] at hj
  rcases hj with hj | rfl
  · exact ht j hj
  · exact Job.fresh_checked ..

theorem Jobs.apply_isSome {t : Jobs} (ht : t.Checked) {op : JobsOp} (h : op.isInsert = false) :
    (t.apply op).isSome = true := by
  cases op with
  | insert now id => exact absurd h (by simp [JobsOp.isInsert])
  | setRunning now jobId =>
    obtain ⟨t', e, _⟩ := Jobs.update_spec now jobId lawful_running ht
    exact Option.isSome_of_eq_some e
  | recordAttemptFailure now jobId error =>
    obtain ⟨t', e, _⟩ := Jobs.update_spec now jobId (lawful_attempt error) ht
    exact Option.isSome_of_eq_some e
  | setDone now jobId result =>
    obtain ⟨t', e, _⟩ := Jobs.update_spec now jobId (lawful_done result) ht
    exact Option.isSome_of_eq_some e
  | setFailed now jobId error =>
    obtain ⟨t', e, _⟩ := Jobs.update_spec now jobId (lawful_failed error) ht
    exact Option.isSome_of_eq_some e

theorem Jobs.apply_evolves {t t' : Jobs} (ht : t.Checked) {op : JobsOp} (h : t.apply op = some t') :
    t'.Checked ∧ t.Evolves t' := by
  have key : ∀ {now : Timestamp} {jobId : Uuid} {c : JobSet}, c.Lawful →
      t.update now (guarded jobId) c = some t' → t'.Checked ∧ t.Evolves t' := by
    intro now jobId c hc hu
    obtain ⟨u, e, hev, hch, _⟩ := Jobs.update_spec now jobId hc ht
    rw [e] at hu
    cases hu
    exact ⟨hch, hev⟩
  cases op with
  | insert now id => exact ⟨Jobs.insert_checked h ht, Jobs.insert_evolves h⟩
  | setRunning now jobId => exact key lawful_running h
  | recordAttemptFailure now jobId error => exact key (lawful_attempt error) h
  | setDone now jobId result => exact key (lawful_done result) h
  | setFailed now jobId error => exact key (lawful_failed error) h

/-- a row of the later table is a row of the earlier one, or was written since -/
structure Jobs.Grows (t t' : Jobs) : Prop where
  seq : t.seq ≤ t'.seq
  rows : ∀ j ∈ t'.rows, j ∈ t.rows ∨ (t.seq < j.changeSeq ∧ j.changeSeq ≤ t'.seq)

theorem Jobs.Grows.refl (t : Jobs) : t.Grows t := ⟨le_refl _, fun _ hj => Or.inl hj⟩

theorem Jobs.Grows.trans {a b c : Jobs} (h : a.Grows b) (k : b.Grows c) : a.Grows c := by
  have hs := h.seq
  have ks := k.seq
  refine ⟨le_trans hs ks, fun j hj => ?_⟩
  rcases k.rows j hj with hj | ⟨h1, h2⟩
  · rcases h.rows j hj with hj | ⟨h1, h2⟩
    · exact Or.inl hj
    · exact Or.inr ⟨h1, le_trans h2 ks⟩
  · exact Or.inr ⟨lt_of_le_of_lt hs h1, h2⟩

theorem Jobs.apply_grows {t t' : Jobs} {op : JobsOp} (h : t.apply op = some t') : t.Grows t' := by
  have key : ∀ {now : Timestamp} {jobId : Uuid} {c : JobSet},
      t.update now (guarded jobId) c = some t' → t.Grows t' := by
    intro now jobId c hu
    obtain ⟨_, he⟩ := Option.ite_none_right_eq_some.mp hu
    cases he
    refine ⟨updateRows_seq .., fun j hj => ?_⟩
    rcases mem_updateRows hj with ⟨hj, _⟩ | ⟨k, _, _, m, h1, h2, rfl⟩
    · exact Or.inl hj
    · exact Or.inr ⟨h1, h2⟩
  cases op with
  | insert now id =>
    obtain ⟨_, hr, hs⟩ := Jobs.insert_spec h
    refine ⟨by omega, fun j hj => ?_⟩
    rw [hr, List.mem_append, List.mem_singleton] at hj
    rcases hj with hj | rfl
    · exact Or.inl hj
    · have hn : (Job.fresh id now (t.seq + 1)).changeSeq = t.seq + 1 := rfl
      exact Or.inr ⟨by omega, by omega⟩
  | setRunning now jobId => exact key h
  | recordAttemptFailure now jobId error => exact key h
  | setDone now jobId result => exact key h
  | setFailed now jobId error => exact key h

theorem jobsSys_grows {t t' : Jobs} {ops : List JobsOp} (h : jobsSys.exec t ops = some t') :
    t.Grows t' :=
  Sys.exec_rel Jobs.Grows.refl (fun _ _ _ => Jobs.Grows.trans) (fun _ _ _ => Jobs.apply_grows) h

theorem jobsSys_checked {t : Jobs} (h : jobsSys.Reachable t) : t.Checked := by
  refine h.rule ?_ ?_
  · rintro s rfl j hj
    exact absurd hj (by simp [Jobs.empty])
  · exact fun s op s' hs he => (Jobs.apply_evolves hs he).1

theorem jobsSys_evolves {t t' : Jobs} {ops : List JobsOp} (h : jobsSys.Reachable t)
    (he : jobsSys.exec t ops = some t') : t.Evolves t' := by
  have hI : ∀ s op s', (s.Checked ∧ t.Evolves s) → True → jobsSys.step s op = some s' →
      s'.Checked ∧ t.Evolves s' := by
    intro s op s' hs _ hstep
    obtain ⟨h1, h2⟩ := Jobs.apply_evolves hs.1 hstep
    exact ⟨h1, hs.2.trans h2⟩
  exact (Sys.exec_inv hI ⟨jobsSys_checked h, Jobs.Evolves.refl t⟩ (Sys.Meets.trivial t ops) he).2

/-- **Job lifecycle monotonicity**, for every table a run of writes can reach: the constraint
holds, no update is rejected, and whatever writes follow, each row keeps its id, its status is
the same or further along, and once terminal its status, result and error are final. -/
theorem lifecycle_monotone {t : Jobs} (h : jobsSys.Reachable t) :
    (∀ j ∈ t.rows, j.resultXorError = true) ∧
    (∀ op : JobsOp, op.isInsert = false → (t.apply op).isSome = true) ∧
    (∀ (ops : List JobsOp) (t' : Jobs), jobsSys.exec t ops = some t' → ∀ j ∈ t.rows,
      ∃ j' ∈ t'.rows, j'.id = j.id ∧
        (j'.status = j.status ∨ j.status.rank < j'.status.rank) ∧
        (j.status ∉ nonTerminal →
          j'.status = j.status ∧ j'.result = j.result ∧ j'.error = j.error)) := by
  have hch := jobsSys_checked h
  refine ⟨hch, fun op ho => Jobs.apply_isSome hch ho, fun ops t' he j hj => ?_⟩
  obtain ⟨j', hj', e⟩ := (jobsSys_evolves h he).2 j hj
  exact ⟨j', hj', e.id, e.forward, e.frozen⟩

/-- a job that succeeds in its second delivery, and whose late writes come after that -/
def lateWrites : List JobsOp :=
  [.insert 0 7, .setRunning 1 7, .recordAttemptFailure 2 7 "engine", .setRunning 3 7,
   .setDone 4 7 .null, .setRunning 5 7, .setFailed 6 7 "max delivery attempts exceeded"]

def lateTable : Jobs := (jobsSys.exec Jobs.empty lateWrites).getD Jobs.empty

theorem lateTable_exec : jobsSys.exec Jobs.empty lateWrites = some lateTable := rfl

theorem lifecycle_monotone_late :
    (∀ j ∈ lateTable.rows, j.resultXorError = true) ∧
    (∀ op : JobsOp, op.isInsert = false → (lateTable.apply op).isSome = true) ∧
    lateTable.rows.map Job.status = [.done] := by
  have h := lifecycle_monotone ⟨Jobs.empty, lateWrites, rfl, lateTable_exec⟩
  exact ⟨h.1, h.2.1, rfl⟩

end KatagoWs
