import Mathlib.Data.List.TakeWhile
import KatagoWs.Store.Queries

/-!
# The change feed under concurrent transactions

`change_seq` is drawn when a row is written, `updated_at` is the start of the writing
transaction, and the new version is visible from its commit on: the three orders differ.  A poll
of `GET /analyses/changes` hands out the visible changes after the client's cursor, up to the
first one that started less than `SETTLE_SECS` ago.

* `changes`            one request;
* `feedSys`            transactions and polls in any order, each transaction committing less than
                       `SETTLE_SECS` after it starts;
* `settledInTime`      a transaction commits less than `SETTLE_SECS` after the start of every
                       transaction that committed with a higher number;
* `feed_skips_nothing`   then every visible version the cursor has passed was delivered;
* `skippedFeed`        without it a long transaction can be passed: the settle rule looks at the
                       start of the other one.
-/

namespace KatagoWs
open Lib

def SETTLE_SECS : Int := 5

/-! ## one request -/

structure ChangesQuery where
  since : Int
  limit : Option Int

structure Change where
  seq : Nat
  id : Uuid
  status : JobStatus
  error : Option String
  updatedAt : Timestamp
deriving DecidableEq, Repr

structure ChangesResponse where
  changes : List Change
  cursor : Int
  latest : Int
  more : Bool

def Change.of (seq : Nat) (row : JobSummary) : Change :=
  { seq, id := row.id, status := row.status, error := row.error, updatedAt := row.updatedAt }

def Job.change (j : Job) : Change := Change.of j.changeSeq j.summary

/-- `limit.unwrap_or(500).clamp(1, 1000)` -/
def ChangesQuery.pageLimit (query : ChangesQuery) : Nat :=
  (max 1 (min (query.limit.getD 500) 1000)).toNat

/-- The response, from the visible rows at `now` and what the second query answers. -/
def changes (rows : List Job) (now : Timestamp) (latest : Int) (query : ChangesQuery) :
    ChangesResponse :=
  let limit := query.pageLimit
  let (rows, heldBack) := settledChanges rows now query.since limit SETTLE_SECS
  { changes := rows.map fun (seq, row) => Change.of seq row
    cursor := (rows.getLast?.map fun (seq, _) => (seq : Int)).getD query.since
    latest
    more := heldBack || limit ≤ rows.length }

/-! ## transactions -/

/-- a transaction in flight: its start, and the row versions it wrote and locks -/
structure Txn where
  tid : Nat
  start : Timestamp
  rows : List Job

def Txn.put (x : Txn) (v : Job) : Txn :=
  { x with rows := x.rows.filter (fun j => j.id ≠ v.id) ++ [v] }

/-- The database and one client of the feed.  `rows` are the visible versions; `stamps` records
number and stamp of every committed one, `start` the cursor the client began with. -/
structure Feed where
  now : Timestamp
  seq : Nat
  rows : List Job
  txns : List Txn
  nextTid : Nat
  stamps : List (Nat × Timestamp)
  start : Int
  since : Int
  delivered : List Change

inductive FeedAct where
  | tick (now : Timestamp)
  | begin
  | write (tid : Nat) (row : Job)
  | commit (tid : Nat)
  | rollback (tid : Nat)
  | poll (limit : Option Int) (latest : Int)

def Feed.txn (s : Feed) (tid : Nat) : Option Txn := s.txns.find? fun x => x.tid = tid

/-- another transaction in flight holds the row -/
def Feed.locked (s : Feed) (tid : Nat) (id : Uuid) : Bool :=
  s.txns.any fun x => x.tid ≠ tid && x.rows.any fun j => j.id = id

/-- one row write: the trigger draws the next number and stamps the transaction's `now()` -/
def Feed.write (s : Feed) (x : Txn) (row : Job) : Feed :=
  { s with
    seq := s.seq + 1
    txns := s.txns.map fun y =>
      if y.tid = x.tid then y.put (row.stampChange x.start (s.seq + 1)) else y }

def Feed.drop (s : Feed) (x : Txn) : Feed :=
  { s with txns := s.txns.filter fun y => y.tid ≠ x.tid }

def Feed.commit (s : Feed) (x : Txn) : Feed :=
  { s.drop x with
    rows := s.rows.filter (fun j => !x.rows.any fun v => v.id = j.id) ++ x.rows
    stamps := s.stamps ++ x.rows.map fun v => (v.changeSeq, v.updatedAt) }

/-- the client asks with the cursor of the previous response -/
def Feed.poll (s : Feed) (limit : Option Int) (latest : Int) : Feed :=
  let response := changes s.rows s.now latest ⟨s.since, limit⟩
  { s with
    since := response.cursor
    delivered := s.delivered ++ response.changes }

def feedStep (s : Feed) : FeedAct → Option Feed
  | .tick now => if s.now ≤ now then some { s with now } else none
  | .begin =>
    some { s with txns := s.txns ++ [⟨s.nextTid, s.now, []⟩], nextTid := s.nextTid + 1 }
  | .write tid row =>
    (s.txn tid).bind fun x => if s.locked tid row.id then none else some (s.write x row)
  | .commit tid =>
    (s.txn tid).bind fun x =>
      if s.now < x.start + SETTLE_SECS * 1000000 then some (s.commit x) else none
  | .rollback tid => (s.txn tid).map s.drop
  | .poll limit latest => some (s.poll limit latest)

def feedSys : Sys Feed FeedAct where
  init s := s.seq = 0 ∧ s.rows = [] ∧ s.txns = [] ∧ s.since = s.start ∧ s.delivered = []
  step := feedStep

/-- the commit comes less than `SETTLE_SECS` after the start of every transaction that committed
with a number above one of this one's -/
def settledInTime (s : Feed) : FeedAct → Bool
  | .commit tid =>
    (s.txn tid).all fun x => x.rows.all fun v => s.stamps.all fun p =>
      p.1 ≤ v.changeSeq || s.now < p.2 + SETTLE_SECS * 1000000
  | _ => true

/-! ## what one request returns -/

section
variable {rows : List Job} {now : Timestamp} {query : ChangesQuery} {latest : Int}

theorem settledChanges_prefix (rows : List Job) (now : Timestamp) (cursor : Int) (limit : Nat)
    (settleSecs : Int) : ∃ ready rest, byChangeSeq rows cursor = ready ++ rest ∧
      (settledChanges rows now cursor limit settleSecs).1
        = ready.map (fun j => (j.changeSeq, j.summary)) ∧
      ∀ j ∈ ready, settled now settleSecs j = true := by
  have h1 := List.takeWhile_prefix (l := (byChangeSeq rows cursor).take limit)
    (settled now settleSecs)
  obtain ⟨rest, hr⟩ := h1.trans (List.take_prefix limit _)
  refine ⟨_, rest, hr.symm, rfl, fun j hj => ?_⟩
  exact List.mem_takeWhile_imp hj

/-- **One poll** hands out every visible change up to its cursor, which is the number of a
settled version unless it stays. -/
theorem changes_spec (now : Timestamp) (latest : Int) (query : ChangesQuery)
    (hn : (rows.map Job.changeSeq).Nodup) :
    query.since ≤ (changes rows now latest query).cursor ∧
    (∀ j ∈ rows, query.since < j.changeSeq → j.changeSeq ≤ (changes rows now latest query).cursor →
      j.change ∈ (changes rows now latest query).changes) ∧
    ((changes rows now latest query).cursor = query.since ∨ ∃ y ∈ rows,
      (changes rows now latest query).cursor = y.changeSeq ∧
        settled now SETTLE_SECS y = true) := by
  obtain ⟨ready, rest, hsplit, hready, hset⟩ :=
    settledChanges_prefix rows now query.since query.pageLimit SETTLE_SECS
  have hsort := byChangeSeq_sorted rows query.since
  rw [hsplit] at hsort
  have hmem : ∀ j, j ∈ rows ∧ query.since < j.changeSeq ↔ j ∈ ready ∨ j ∈ rest := by
    intro j
    rw [← mem_byChangeSeq, hsplit, List.mem_append]
  have hchanges : (changes rows now latest query).changes = ready.map Job.change := by
    show ((settledChanges rows now query.since query.pageLimit SETTLE_SECS).1.map _) = _
    rw [hready, List.map_map]
    rfl
  have hcursor : (changes rows now latest query).cursor
      = (ready.getLast?.map fun j => (j.changeSeq : Int)).getD query.since := by
    show (((settledChanges rows now query.since query.pageLimit SETTLE_SECS).1.getLast?).map
      _).getD _ = _
    rw [hready, List.getLast?_map, Option.map_map]
    rfl
  cases hl : ready.getLast? with
  | none =>
    have hcur : (changes rows now latest query).cursor = query.since := by rw [hcursor, hl]; rfl
    rw [hcur]
    exact ⟨le_refl _, fun j _ h1 h2 => absurd h1 (not_lt.mpr h2), Or.inl rfl⟩
  | some y =>
    have hcur : (changes rows now latest query).cursor = y.changeSeq := by rw [hcursor, hl]; rfl
    have hy : y ∈ ready := List.mem_of_getLast? hl
    obtain ⟨hyr, hys⟩ := (hmem y).mpr (Or.inl hy)
    rw [hcur, hchanges]
    refine ⟨le_of_lt hys, fun j hj h1 h2 => ?_, Or.inr ⟨y, hyr, rfl, hset y hy⟩⟩
    rcases (hmem j).mp ⟨hj, h1⟩ with hm | hm
    · exact List.mem_map_of_mem hm
    · -- past the prefix the numbers are higher, and `y` is the only version with its number
      have hle : y.changeSeq ≤ j.changeSeq := (List.pairwise_append.mp hsort).2.2 y hy j hm
      have heq : j.changeSeq = y.changeSeq := by omega
      have hjy : j = y := List.inj_on_of_nodup_map hn hj hyr heq
      rw [hjy]
      exact List.mem_map_of_mem hy

end

/-! ## the invariant -/

/-- numbers are drawn once: no two versions, visible or in flight, share one -/
structure Feed.Distinct (s : Feed) : Prop where
  rows : (s.rows.map Job.changeSeq).Nodup
  own : ∀ x ∈ s.txns, (x.rows.map Job.changeSeq).Nodup
  visible : ∀ x ∈ s.txns, ∀ v ∈ x.rows, ∀ j ∈ s.rows, v.changeSeq ≠ j.changeSeq
  others : ∀ x ∈ s.txns, ∀ y ∈ s.txns, x.tid ≠ y.tid → ∀ v ∈ x.rows, ∀ w ∈ y.rows,
    v.changeSeq ≠ w.changeSeq
  rowsLe : ∀ j ∈ s.rows, j.changeSeq ≤ s.seq
  txnsLe : ∀ x ∈ s.txns, ∀ v ∈ x.rows, v.changeSeq ≤ s.seq

/-- **The invariant of the feed**: what the cursor has passed was delivered if visible, and if
in flight it was passed by a settled version with a higher number. -/
structure Feed.Inv (s : Feed) : Prop where
  distinct : s.Distinct
  cursor : s.start ≤ s.since ∧ s.since ≤ max s.start s.seq
  stamped : ∀ j ∈ s.rows, (j.changeSeq, j.updatedAt) ∈ s.stamps
  delivered : ∀ j ∈ s.rows, s.start < j.changeSeq → j.changeSeq ≤ s.since →
    j.change ∈ s.delivered
  passed : ∀ x ∈ s.txns, ∀ v ∈ x.rows, s.start < v.changeSeq → v.changeSeq ≤ s.since →
    ∃ p ∈ s.stamps, v.changeSeq < p.1 ∧ p.2 + SETTLE_SECS * 1000000 ≤ s.now

theorem Feed.txn_some {s : Feed} {tid : Nat} {x : Txn} (h : s.txn tid = some x) :
    x ∈ s.txns ∧ x.tid = tid := by
  have hf : s.txns.find? (fun x => x.tid = tid) = some x := h
  have hp := List.find?_some hf
  rw [decide_eq_true_iff] at hp
  exact ⟨List.mem_of_find?_eq_some hf, hp⟩

theorem Txn.mem_put {x : Txn} {v w : Job} (h : w ∈ (x.put v).rows) : w ∈ x.rows ∨ w = v := by
  rcases List.mem_append.mp h with h | h
  · exact Or.inl (List.mem_filter.mp h).1
  · exact Or.inr (List.mem_singleton.mp h)

/-- a transaction after a row write: an old one, and its versions are old or the new one -/
theorem Feed.mem_write {s : Feed} {x y : Txn} {row : Job} (h : y ∈ (s.write x row).txns) :
    ∃ z ∈ s.txns, z.tid = y.tid ∧ ((y.tid ≠ x.tid ∧ y = z) ∨
      (y.tid = x.tid ∧ y = z.put (row.stampChange x.start (s.seq + 1)))) := by
  obtain ⟨z, hz, he⟩ := List.mem_map.mp h
  by_cases ht : z.tid = x.tid
  · rw [if_pos ht] at he
    subst he
    exact ⟨z, hz, rfl, Or.inr ⟨ht, rfl⟩⟩
  · rw [if_neg ht] at he
    subst he
    exact ⟨z, hz, rfl, Or.inl ⟨ht, rfl⟩⟩

theorem Feed.Distinct.write {s : Feed} (h : s.Distinct) (x : Txn) (row : Job) :
    (s.write x row).Distinct := by
  have hnew : ∀ y ∈ (s.write x row).txns, ∀ v ∈ y.rows,
      (∃ z ∈ s.txns, z.tid = y.tid ∧ v ∈ z.rows) ∨ (y.tid = x.tid ∧ v.changeSeq = s.seq + 1) := by
    intro y hy v hv
    obtain ⟨z, hz, ht, ⟨_, rfl⟩ | ⟨hx, rfl⟩⟩ := Feed.mem_write hy
    · exact Or.inl ⟨y, hz, rfl, hv⟩
    · rcases Txn.mem_put hv with hv | rfl
      · exact Or.inl ⟨z, hz, rfl, hv⟩
      · exact Or.inr ⟨hx, rfl⟩
  refine ⟨h.rows, fun y hy => ?_, fun y hy v hv j hj => ?_, fun y hy w hw hne v hv u hu => ?_,
    fun j hj => ?_, fun y hy v hv => ?_⟩
  · obtain ⟨z, hz, _, ⟨_, rfl⟩ | ⟨_, rfl⟩⟩ := Feed.mem_write hy
    · exact h.own y hz
    · show ((z.rows.filter _ ++ [_]).map Job.changeSeq).Nodup
      rw [List.map_append, List.nodup_append]
      refine ⟨(h.own z hz).sublist (List.filter_sublist.map _), by simp, ?_⟩
      intro a ha b hb
      obtain ⟨v, hv, rfl⟩ := List.mem_map.mp ha
      have hle := h.txnsLe z hz v (List.mem_filter.mp hv).1
      have hb' : b = s.seq + 1 := List.mem_singleton.mp hb
      omega
  · rcases hnew y hy v hv with ⟨z, hz, _, hvz⟩ | ⟨_, hs⟩
    · exact h.visible z hz v hvz j hj
    · have hle := h.rowsLe j hj
      omega
  · rcases hnew y hy v hv with ⟨z, hz, htz, hvz⟩ | ⟨hyx, hs⟩
    · rcases hnew w hw u hu with ⟨z', hz', htz', huz⟩ | ⟨_, hs'⟩
      · exact h.others z hz z' hz' (by rw [htz, htz']; exact hne) v hvz u huz
      · have hle := h.txnsLe z hz v hvz
        omega
    · rcases hnew w hw u hu with ⟨z', hz', _, huz⟩ | ⟨hwx, _⟩
      · have hle := h.txnsLe z' hz' u huz
        omega
      · exact absurd (hyx.trans hwx.symm) hne
  · exact le_trans (h.rowsLe j hj) (Nat.le_succ _)
  · rcases hnew y hy v hv with ⟨z, hz, _, hvz⟩ | ⟨_, hs⟩
    · exact le_trans (h.txnsLe z hz v hvz) (Nat.le_succ _)
    · exact le_of_eq hs

theorem Feed.Distinct.drop {s : Feed} (h : s.Distinct) (x : Txn) : (s.drop x).Distinct := by
  have hsub : ∀ y ∈ (s.drop x).txns, y ∈ s.txns := fun y hy => (List.mem_filter.mp hy).1
  exact ⟨h.rows, fun y hy => h.own y (hsub y hy), fun y hy => h.visible y (hsub y hy),
    fun y hy w hw => h.others y (hsub y hy) w (hsub w hw), h.rowsLe,
    fun y hy => h.txnsLe y (hsub y hy)⟩

theorem Feed.mem_commit {s : Feed} {x : Txn} {j : Job} (h : j ∈ (s.commit x).rows) :
    j ∈ s.rows ∨ j ∈ x.rows := by
  rcases List.mem_append.mp h with h | h
  · exact Or.inl (List.mem_filter.mp h).1
  · exact Or.inr h

theorem Feed.Distinct.commit {s : Feed} (h : s.Distinct) {x : Txn} (hx : x ∈ s.txns) :
    (s.commit x).Distinct := by
  have hd := h.drop x
  have hsub : ∀ y ∈ (s.commit x).txns, y ∈ s.txns ∧ y.tid ≠ x.tid := by
    intro y hy
    obtain ⟨h1, h2⟩ := List.mem_filter.mp hy
    exact ⟨h1, of_decide_eq_true h2⟩
  refine ⟨?_, hd.own, fun y hy v hv j hj => ?_, hd.others, fun j hj => ?_, hd.txnsLe⟩
  · show ((s.rows.filter _ ++ x.rows).map Job.changeSeq).Nodup
    rw [List.map_append, List.nodup_append]
    refine ⟨h.rows.sublist (List.filter_sublist.map _), h.own x hx, ?_⟩
    intro a ha b hb
    obtain ⟨j, hj, rfl⟩ := List.mem_map.mp ha
    obtain ⟨v, hv, rfl⟩ := List.mem_map.mp hb
    exact (h.visible x hx v hv j (List.mem_filter.mp hj).1).symm
  · obtain ⟨hy', hne⟩ := hsub y hy
    rcases Feed.mem_commit hj with hj | hj
    · exact h.visible y hy' v hv j hj
    · exact h.others y hy' x hx hne v hv j hj
  · rcases Feed.mem_commit hj with hj | hj
    · exact h.rowsLe j hj
    · exact h.txnsLe x hx j hj

/-! ## the steps -/

theorem Feed.Inv.write {s : Feed} (h : s.Inv) (x : Txn) (row : Job) : (s.write x row).Inv := by
  obtain ⟨hc1, hc2⟩ := h.cursor
  have hle : s.seq ≤ (s.write x row).seq := Nat.le_succ _
  refine ⟨h.distinct.write x row, ⟨hc1, ?_⟩, h.stamped, h.delivered, fun y hy v hv h1 h2 => ?_⟩
  · show s.since ≤ max s.start ((s.seq + 1 : Nat) : Int)
    omega
  · have h1' : s.start < v.changeSeq := h1
    have h2' : v.changeSeq ≤ s.since := h2
    obtain ⟨z, hz, _, ⟨_, rfl⟩ | ⟨_, rfl⟩⟩ := Feed.mem_write hy
    · exact h.passed y hz v hv h1 h2
    · rcases Txn.mem_put hv with hv | rfl
      · exact h.passed z hz v hv h1 h2
      · -- a number drawn now is past the cursor
        have hseq : (row.stampChange x.start (s.seq + 1)).changeSeq = s.seq + 1 := rfl
        rw [hseq] at h1' h2'
        omega

theorem Feed.Inv.drop {s : Feed} (h : s.Inv) (x : Txn) : (s.drop x).Inv :=
  ⟨h.distinct.drop x, h.cursor, h.stamped, h.delivered,
    fun y hy => h.passed y (List.mem_filter.mp hy).1⟩

/-- **A commit in time**: none of its versions has been passed. -/
theorem Feed.Inv.commit {s : Feed} (h : s.Inv) {x : Txn} (hx : x ∈ s.txns)
    (hok : ∀ v ∈ x.rows, ∀ p ∈ s.stamps, v.changeSeq < p.1 →
      s.now < p.2 + SETTLE_SECS * 1000000) : (s.commit x).Inv := by
  refine ⟨h.distinct.commit hx, h.cursor, fun j hj => ?_, fun j hj h1 h2 => ?_,
    fun y hy v hv h1 h2 => ?_⟩
  · rcases Feed.mem_commit hj with hj | hj
    · exact List.mem_append_left _ (h.stamped j hj)
    · exact List.mem_append_right _ (List.mem_map_of_mem hj)
  · rcases Feed.mem_commit hj with hj | hj
    · exact h.delivered j hj h1 h2
    · obtain ⟨p, hp, hlt, hset⟩ := h.passed x hx j hj h1 h2
      have hnow := hok j hj p hp hlt
      exact absurd hnow (not_lt.mpr hset)
  · obtain ⟨p, hp, hlt, hset⟩ := h.passed y (List.mem_filter.mp hy).1 v hv h1 h2
    exact ⟨p, List.mem_append_left _ hp, hlt, hset⟩

theorem Feed.Inv.poll {s : Feed} (h : s.Inv) (limit : Option Int) (latest : Int) :
    (s.poll limit latest).Inv := by
  obtain ⟨hc1, hc2⟩ := h.cursor
  obtain ⟨hmono, hall, hlast⟩ := changes_spec s.now latest ⟨s.since, limit⟩ h.distinct.rows
  have hmono' : s.since ≤ (s.poll limit latest).since := hmono
  refine ⟨⟨h.distinct.rows, h.distinct.own, h.distinct.visible, h.distinct.others,
    h.distinct.rowsLe, h.distinct.txnsLe⟩, ⟨le_trans hc1 hmono', ?_⟩, h.stamped,
    fun j hj h1 h2 => ?_, fun x hx v hv h1 h2 => ?_⟩
  · rcases hlast with he | ⟨y, hy, he, _⟩
    · show (s.poll limit latest).since ≤ _
      have he' : (s.poll limit latest).since = s.since := he
      rw [he']
      exact hc2
    · have he' : (s.poll limit latest).since = y.changeSeq := he
      have hle := h.distinct.rowsLe y hy
      show (s.poll limit latest).since ≤ max s.start (s.seq : Int)
      rw [he']
      omega
  · by_cases hs : j.changeSeq ≤ s.since
    · exact List.mem_append_left _ (h.delivered j hj h1 hs)
    · exact List.mem_append_right _ (hall j hj (not_le.mp hs) h2)
  · by_cases hs : v.changeSeq ≤ s.since
    · exact h.passed x hx v hv h1 hs
    · have h2' : v.changeSeq ≤ (s.poll limit latest).since := h2
      rcases hlast with he | ⟨y, hy, he, hset⟩
      · have he' : (s.poll limit latest).since = s.since := he
        rw [he'] at h2'
        exact absurd h2' hs
      · have he' : (s.poll limit latest).since = y.changeSeq := he
        rw [he'] at h2'
        have hne := h.distinct.visible x hx v hv y hy
        have hst : y.updatedAt ≤ s.now - SETTLE_SECS * 1000000 := of_decide_eq_true hset
        refine ⟨_, h.stamped y hy, ?_, ?_⟩
        · show v.changeSeq < y.changeSeq
          omega
        · exact Int.add_le_of_le_sub_right hst

theorem feedStep_inv {s t : Feed} {a : FeedAct} (h : s.Inv) (hok : settledInTime s a = true)
    (hs : feedStep s a = some t) : t.Inv := by
  cases a with
  | tick now =>
    obtain ⟨hle, he⟩ := Option.ite_none_right_eq_some.mp hs
    cases he
    refine ⟨⟨h.distinct.rows, h.distinct.own, h.distinct.visible, h.distinct.others,
      h.distinct.rowsLe, h.distinct.txnsLe⟩, h.cursor, h.stamped, h.delivered, ?_⟩
    intro x hx v hv h1 h2
    obtain ⟨p, hp, hlt, hset⟩ := h.passed x hx v hv h1 h2
    exact ⟨p, hp, hlt, le_trans hset hle⟩
  | begin =>
    cases hs
    have hmem : ∀ x, x ∈ s.txns ++ [⟨s.nextTid, s.now, []⟩] → ∀ v ∈ x.rows, x ∈ s.txns := by
      intro x hx v hv
      rcases List.mem_append.mp hx with hx | hx
      · exact hx
      · rw [List.mem_singleton.mp hx] at hv
        cases hv
    refine ⟨⟨h.distinct.rows, fun x hx => ?_, fun x hx v hv => ?_,
      fun x hx y hy hne v hv w hw => ?_, h.distinct.rowsLe, fun x hx v hv => ?_⟩, h.cursor,
      h.stamped, h.delivered,
      fun x hx v hv => ?_⟩
    · rcases List.mem_append.mp hx with hx | hx
      · exact h.distinct.own x hx
      · rw [List.mem_singleton.mp hx]
        exact List.nodup_nil
    · exact h.distinct.visible x (hmem x hx v hv) v hv
    · exact h.distinct.others x (hmem x hx v hv) y (hmem y hy w hw) hne v hv w hw
    · exact h.distinct.txnsLe x (hmem x hx v hv) v hv
    · exact h.passed x (hmem x hx v hv) v hv
  | write tid row =>
    obtain ⟨x, _, he⟩ := Option.bind_eq_some_iff.mp hs
    obtain ⟨_, he'⟩ := Option.ite_none_left_eq_some.mp he
    cases he'
    exact h.write x row
  | commit tid =>
    obtain ⟨x, hx, he⟩ := Option.bind_eq_some_iff.mp hs
    obtain ⟨_, he'⟩ := Option.ite_none_right_eq_some.mp he
    cases he'
    refine h.commit (Feed.txn_some hx).1 fun v hv p hp hlt => ?_
    have hall : (s.txn tid).all (fun x => x.rows.all fun v => s.stamps.all fun p =>
      p.1 ≤ v.changeSeq || s.now < p.2 + SETTLE_SECS * 1000000) = true := hok
    rw [hx] at hall
    have hp' := List.all_eq_true.mp (List.all_eq_true.mp hall v hv) p hp
    rw [Bool.or_eq_true, decide_eq_true_iff, decide_eq_true_iff] at hp'
    rcases hp' with hp' | hp'
    · omega
    · exact hp'
  | rollback tid =>
    obtain ⟨x, _, rfl⟩ := Option.map_eq_some_iff.mp hs
    exact h.drop x
  | poll limit latest =>
    cases hs
    exact h.poll limit latest

/-- **The feed's cursor skips no write**, in every run whose commits are in time: every version
that is, or becomes, the current one of its row and whose number the cursor has passed was
delivered. -/
theorem feed_skips_nothing {s : Feed}
    (h : feedSys.ReachableIf (fun s a => settledInTime s a = true) s) :
    ∀ j ∈ s.rows, s.start < j.changeSeq → j.changeSeq ≤ s.since → j.change ∈ s.delivered := by
  have hI : s.Inv := by
    refine h.rule (I := Feed.Inv) ?_ fun s a t hs hok he => feedStep_inv hs hok he
    rintro s₀ ⟨h1, h2, h3, h4, _⟩
    refine ⟨⟨?_, ?_, ?_, ?_, ?_, ?_⟩, ⟨?_, ?_⟩, ?_, ?_, ?_⟩
    all_goals simp [h1, h2, h3, h4]
  exact hI.delivered

/-! ## two overlapping transactions -/

def emptyFeed : Feed := ⟨0, 0, [], [], 0, [], 0, 0, []⟩

/-- transaction 0 starts at 0 s; transaction 1 starts at 3 s and draws the lower number; 0 commits
at 4.5 s -/
def overlap : List FeedAct :=
  [.begin, .tick 3000000, .begin, .tick 3500000, .write 1 (Job.fresh 7 0 0), .tick 4000000,
   .write 0 (Job.fresh 8 0 0), .tick 4500000, .commit 0]

def commitEarly : List FeedAct :=
  overlap ++ [.tick 4900000, .commit 1, .tick 9000000, .poll none 2]

def settledFeed : Feed := (feedSys.exec emptyFeed commitEarly).getD emptyFeed

theorem feed_skips_nothing_early : settledFeed.since = 2 ∧
    ∀ j ∈ settledFeed.rows, settledFeed.start < j.changeSeq → j.changeSeq ≤ settledFeed.since →
      j.change ∈ settledFeed.delivered := by
  have hr : feedSys.ReachableIf (fun s a => settledInTime s a = true) settledFeed :=
    ⟨emptyFeed, commitEarly, ⟨rfl, rfl, rfl, rfl, rfl⟩, rfl, Sys.Meets.of_check rfl⟩
  exact ⟨rfl, feed_skips_nothing hr⟩

/-- a poll at 5 s passes both numbers; transaction 1 commits at 7 s, 4 s after its start -/
def commitLate : List FeedAct :=
  overlap ++ [.tick 5000000, .poll none 2, .tick 7000000, .commit 1]

def skippedFeed : Feed := (feedSys.exec emptyFeed commitLate).getD emptyFeed

theorem feed_skips_write : ¬ ∀ s : Feed, feedSys.Reachable s →
    ∀ j ∈ s.rows, s.start < j.changeSeq → j.changeSeq ≤ s.since → j.change ∈ s.delivered := by
  intro h
  have hr : feedSys.Reachable skippedFeed :=
    ⟨emptyFeed, commitLate, ⟨rfl, rfl, rfl, rfl, rfl⟩, rfl⟩
  have hd := h skippedFeed hr _ (List.mem_cons_of_mem _ List.mem_cons_self)
  exact absurd (hd (by decide) (by decide)) (by decide)

end KatagoWs
