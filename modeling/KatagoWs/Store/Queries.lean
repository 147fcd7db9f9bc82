import Mathlib.Data.List.Sort
import KatagoWs.Store.Jobs

/-!
# Reading the `jobs` table

The queries see the committed rows, one per job.

* `listJobs`, `changesSince`, `latestChangeSeq`   the queries of the stream;
* `settledChanges`    the query of the change feed: the changes after a cursor, up to the first
                      one that has not settled;
* `mem_byChangeSeq`, `byChangeSeq_sorted`, `byChangeSeq_ids`   what the ordered scan returns.
-/

namespace KatagoWs

/-- a row without its result: what the list, the stream and the feed report -/
structure JobSummary where
  id : Uuid
  status : JobStatus
  error : Option String
  createdAt : Timestamp
  updatedAt : Timestamp
deriving DecidableEq, Repr

def Job.summary (j : Job) : JobSummary :=
  { id := j.id, status := j.status, error := j.error, createdAt := j.createdAt
    updatedAt := j.updatedAt }

/-- List all jobs, newest first. -/
def listJobs (rows : List Job) : List JobSummary :=
  (rows.insertionSort fun j k => k.createdAt ≤ j.createdAt).map Job.summary

def byChangeSeq (rows : List Job) (cursor : Int) : List Job :=
  (rows.filter fun j => cursor < j.changeSeq).insertionSort fun j k => j.changeSeq ≤ k.changeSeq

/-- Jobs whose `change_seq` is greater than `cursor`, oldest change first. -/
def changesSince (rows : List Job) (cursor : Int) : List (Nat × JobSummary) :=
  (byChangeSeq rows cursor).map fun j => (j.changeSeq, j.summary)

def latestChangeSeq (rows : List Job) : Nat := (rows.map Job.changeSeq).max?.getD 0

def settled (now : Timestamp) (settleSecs : Int) (j : Job) : Bool :=
  j.updatedAt ≤ now - settleSecs * 1000000

/-- Up to `limit` changes after `cursor`, oldest first, cut short at the first change younger
than `settle_secs`, and whether any were held back. -/
def settledChanges (rows : List Job) (now : Timestamp) (cursor : Int) (limit : Nat)
    (settleSecs : Int) : List (Nat × JobSummary) × Bool :=
  let scan := (byChangeSeq rows cursor).take limit
  let ready := scan.takeWhile (settled now settleSecs)
  (ready.map fun j => (j.changeSeq, j.summary), ready.length < scan.length)

/-! ## what the queries return -/

variable {rows : List Job}

theorem mem_listJobs {e : JobSummary} : e ∈ listJobs rows ↔ ∃ j ∈ rows, j.summary = e := by
  rw [listJobs, List.mem_map]
  simp only [List.mem_insertionSort]

theorem listJobs_ids (h : (rows.map Job.id).Nodup) :
    ((listJobs rows).map JobSummary.id).Nodup := by
  have hp : ((listJobs rows).map JobSummary.id).Perm (rows.map Job.id) := by
    rw [listJobs, List.map_map]
    exact (List.perm_insertionSort _ rows).map Job.id
  exact hp.nodup_iff.mpr h

theorem mem_byChangeSeq {cursor : Int} {j : Job} :
    j ∈ byChangeSeq rows cursor ↔ j ∈ rows ∧ cursor < j.changeSeq := by
  rw [byChangeSeq, List.mem_insertionSort, List.mem_filter, decide_eq_true_iff]

theorem byChangeSeq_ids (h : (rows.map Job.id).Nodup) (cursor : Int) :
    ((byChangeSeq rows cursor).map Job.id).Nodup := by
  have hp : ((byChangeSeq rows cursor).map Job.id).Perm
      ((rows.filter fun j => cursor < j.changeSeq).map Job.id) :=
    (List.perm_insertionSort _ _).map Job.id
  exact hp.nodup_iff.mpr (h.sublist (List.filter_sublist.map _))

theorem byChangeSeq_sorted (rows : List Job) (cursor : Int) :
    (byChangeSeq rows cursor).Pairwise fun j k => j.changeSeq ≤ k.changeSeq := by
  have htot : Std.Total fun j k : Job => j.changeSeq ≤ k.changeSeq :=
    ⟨fun j k => le_total j.changeSeq k.changeSeq⟩
  have htr : IsTrans Job fun j k => j.changeSeq ≤ k.changeSeq := ⟨fun _ _ _ => le_trans⟩
  exact List.pairwise_insertionSort _ _

theorem latest_le {n : Nat} (h : ∀ j ∈ rows, j.changeSeq ≤ n) : latestChangeSeq rows ≤ n := by
  rw [latestChangeSeq]
  cases hm : (rows.map Job.changeSeq).max? with
  | none => exact Nat.zero_le n
  | some m =>
    obtain ⟨j, hj, rfl⟩ := List.mem_map.mp (List.max?_mem hm)
    exact h j hj

theorem le_latest {j : Job} (h : j ∈ rows) : j.changeSeq ≤ latestChangeSeq rows := by
  have hm : j.changeSeq ∈ rows.map Job.changeSeq := List.mem_map_of_mem h
  obtain ⟨m, hmax⟩ := Option.isSome_iff_exists.mp (List.isSome_max?_of_mem hm)
  rw [latestChangeSeq, hmax]
  exact (List.max?_le_iff hmax).mp (le_refl m) _ hm

theorem latest_mono {rows' : List Job}
    (h : ∀ j ∈ rows, ∃ k ∈ rows', j.changeSeq ≤ k.changeSeq) :
    latestChangeSeq rows ≤ latestChangeSeq rows' := by
  refine latest_le fun j hj => ?_
  obtain ⟨k, hk, hle⟩ := h j hj
  exact le_trans hle (le_latest hk)

theorem byChangeSeq_nodup (h : (rows.map Job.changeSeq).Nodup) (cursor : Int) :
    ((byChangeSeq rows cursor).map Job.changeSeq).Nodup := by
  have hp : ((byChangeSeq rows cursor).map Job.changeSeq).Perm
      ((rows.filter fun j => cursor < j.changeSeq).map Job.changeSeq) :=
    (List.perm_insertionSort _ _).map Job.changeSeq
  exact hp.nodup_iff.mpr (h.sublist (List.filter_sublist.map _))

theorem byChangeSeq_strict (h : (rows.map Job.changeSeq).Nodup) (cursor : Int) :
    (byChangeSeq rows cursor).Pairwise fun j k => j.changeSeq < k.changeSeq := by
  have hne := List.pairwise_map.mp (byChangeSeq_nodup h cursor)
  exact (byChangeSeq_sorted rows cursor).imp₂ (fun _ _ => lt_of_le_of_ne) hne

end KatagoWs
