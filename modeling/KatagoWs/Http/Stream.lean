import KatagoWs.Lib.Tie
import KatagoWs.Store.Queries

/-!
# The live stream

One `GET /analyses/stream` connection: it emits a snapshot of every job, reads its cursor, and
then polls for the changes since the cursor.  The three are separate queries, and writes commit
between any two of them.

* `streamSys`        the connection and the table it reads;
* `stream_exact`     after a completed poll the client is up to date on a row written since the
                     cursor was read, and on an older row exactly when the snapshot showed it
                     as it is;
* `stream_misses_nothing`   with no write between the snapshot and the cursor read, it is up to
                     date on every row;
* `staleStream`      with one, it may never hear that a job moved.
-/

namespace KatagoWs
open Lib

/-- `AnalysisSummary`: the fields of `JobSummary` -/
abbrev AnalysisSummary := JobSummary

inductive StreamPhase where
  | opened
  | snapped
  | tailing
deriving DecidableEq, Repr

/-- the committed table, and the connection: its cursor and the events it emitted, in order;
`snapshot` and `tailFrom` record what the first two queries read -/
structure Stream where
  table : Jobs
  phase : StreamPhase
  cursor : Nat
  events : List AnalysisSummary
  snapshot : List Job
  tailFrom : Nat

inductive StreamAct where
  | commit (writes : List JobsOp)
  | listJobs
  | latestChangeSeq
  | changesSince

def Stream.opened : Stream := ⟨Jobs.empty, .opened, 0, [], [], 0⟩

/-- Snapshot: every job currently known. -/
def Stream.listJobs (s : Stream) : Stream :=
  { s with
    phase := .snapped
    events := s.events ++ KatagoWs.listJobs s.table.rows
    snapshot := s.table.rows }

def Stream.latestChangeSeq (s : Stream) : Stream :=
  { s with
    phase := .tailing
    cursor := KatagoWs.latestChangeSeq s.table.rows
    tailFrom := KatagoWs.latestChangeSeq s.table.rows }

def Stream.changesSince (s : Stream) : Stream :=
  let rows := KatagoWs.changesSince s.table.rows s.cursor
  { s with
    cursor := rows.foldl (fun cursor row => max cursor row.1) s.cursor
    events := s.events ++ rows.map Prod.snd }

def streamStep (s : Stream) : StreamAct → Option Stream
  | .commit writes => (jobsSys.exec s.table writes).map fun table => { s with table }
  | .listJobs => if s.phase = .opened then some s.listJobs else none
  | .latestChangeSeq => if s.phase = .snapped then some s.latestChangeSeq else none
  | .changesSince => if s.phase = .tailing then some s.changesSince else none

def streamSys : Sys Stream StreamAct where
  init s := jobsSys.Reachable s.table ∧ s = { Stream.opened with table := s.table }
  step := streamStep

def lastEvent (events : List AnalysisSummary) (id : Uuid) : Option AnalysisSummary :=
  (events.filter fun e => e.id == id).getLast?

/-- no write commits between the snapshot and the cursor read -/
def commitInTime (s : Stream) : StreamAct → Bool
  | .commit _ => s.phase ≠ .snapped
  | _ => true

/-! ## the last event of a job -/

theorem lastEvent_append (es fs : List AnalysisSummary) (id : Uuid) :
    lastEvent (es ++ fs) id = (lastEvent fs id).or (lastEvent es id) := by
  rw [lastEvent, List.filter_append, List.getLast?_append]
  rfl

theorem lastEvent_none {es : List AnalysisSummary} {id : Uuid} (h : ∀ e ∈ es, e.id ≠ id) :
    lastEvent es id = none := by
  have hf : es.filter (fun e => e.id == id) = [] := by
    rw [List.filter_eq_nil_iff]
    intro e he
    rw [beq_iff_eq]
    exact h e he
  rw [lastEvent, hf]
  rfl

theorem lastEvent_mem {es : List AnalysisSummary} {id : Uuid} {e : AnalysisSummary}
    (h : lastEvent es id = some e) : e ∈ es ∧ e.id = id := by
  obtain ⟨h1, h2⟩ := List.mem_filter.mp (List.mem_of_getLast? h)
  exact ⟨h1, beq_iff_eq.mp h2⟩

theorem lastEvent_unique {es : List AnalysisSummary} (hn : (es.map JobSummary.id).Nodup)
    {e : AnalysisSummary} (he : e ∈ es) : lastEvent es e.id = some e := by
  cases hl : lastEvent es e.id with
  | none =>
    have hm : e ∈ es.filter fun f => f.id == e.id := List.mem_filter.mpr ⟨he, by simp⟩
    rw [lastEvent, List.getLast?_eq_none_iff] at hl
    rw [hl] at hm
    cases hm
  | some f =>
    obtain ⟨hf, hid⟩ := lastEvent_mem hl
    rw [List.inj_on_of_nodup_map hn hf he hid]

/-! ## the tail -/

/-- no row is newer than the last number drawn -/
def Jobs.Bounded (t : Jobs) : Prop := ∀ j ∈ t.rows, j.changeSeq ≤ t.seq

theorem Jobs.Bounded.grows {t t' : Jobs} (h : t.Bounded) (hg : t.Grows t') : t'.Bounded := by
  have hs := hg.seq
  intro j hj
  rcases hg.rows j hj with hj | ⟨_, h2⟩
  · exact le_trans (h j hj) hs
  · exact h2

theorem jobsSys_bounded {t : Jobs} (h : jobsSys.Reachable t) : t.Bounded := by
  obtain ⟨t₀, ops, rfl, he⟩ := h
  refine Jobs.Bounded.grows (fun j hj => ?_) (jobsSys_grows he)
  cases hj

/-- **The invariant of the tail**: the client is up to date on the rows written since the cursor
was first read and passed by it, and has the snapshot of the older ones. -/
structure Stream.Tailing (s : Stream) : Prop where
  cursor : s.tailFrom ≤ s.cursor ∧ s.cursor ≤ s.table.seq
  newer : ∀ j ∈ s.table.rows, s.tailFrom < j.changeSeq → j.changeSeq ≤ s.cursor →
    lastEvent s.events j.id = some j.summary
  older : ∀ j ∈ s.table.rows, j.changeSeq ≤ s.tailFrom →
    lastEvent s.events j.id = lastEvent (KatagoWs.listJobs s.snapshot) j.id

structure Stream.Inv (s : Stream) : Prop where
  bounded : s.table.Bounded
  snapshot : (s.snapshot.map Job.id).Nodup
  opened : s.phase = .opened → s.events = []
  snapped : s.phase = .snapped → s.events = KatagoWs.listJobs s.snapshot
  tailing : s.phase = .tailing → s.Tailing

theorem Stream.Tailing.commit {s : Stream} {table : Jobs} (h : s.Tailing)
    (hg : s.table.Grows table) : Stream.Tailing { s with table } := by
  obtain ⟨hc1, hc2⟩ := h.cursor
  have hs := hg.seq
  refine ⟨⟨hc1, le_trans hc2 hs⟩, fun j hj h1 h2 => ?_, fun j hj h1 => ?_⟩
  · rcases hg.rows j hj with hj | ⟨h3, _⟩
    · exact h.newer j hj h1 h2
    · have h2' : j.changeSeq ≤ s.cursor := h2
      omega
  · rcases hg.rows j hj with hj | ⟨h3, _⟩
    · exact h.older j hj h1
    · have h1' : j.changeSeq ≤ s.tailFrom := h1
      omega

/-- the events of a poll: every row past the cursor, once -/
theorem lastEvent_poll (s : Stream) {j : Job} (hj : j ∈ s.table.rows) :
    lastEvent s.changesSince.events j.id =
      if s.cursor < j.changeSeq then some j.summary else lastEvent s.events j.id := by
  have hrows : (KatagoWs.changesSince s.table.rows s.cursor).map Prod.snd
      = (byChangeSeq s.table.rows s.cursor).map Job.summary := by
    rw [KatagoWs.changesSince, List.map_map]
    rfl
  have hev : s.changesSince.events
      = s.events ++ (byChangeSeq s.table.rows s.cursor).map Job.summary := by
    rw [← hrows]
    rfl
  rw [hev, lastEvent_append]
  by_cases h : s.cursor < j.changeSeq
  · have hm : j ∈ byChangeSeq s.table.rows s.cursor :=
      mem_byChangeSeq.mpr ⟨hj, by exact_mod_cast h⟩
    have hn : (((byChangeSeq s.table.rows s.cursor).map Job.summary).map JobSummary.id).Nodup := by
      rw [List.map_map]
      exact byChangeSeq_ids s.table.nodup s.cursor
    have hl := lastEvent_unique hn (List.mem_map_of_mem hm)
    have hid : j.summary.id = j.id := rfl
    rw [if_pos h, ← hid, hl]
    rfl
  · have hl : lastEvent ((byChangeSeq s.table.rows s.cursor).map Job.summary) j.id = none := by
      refine lastEvent_none fun e he hid => ?_
      obtain ⟨k, hk, rfl⟩ := List.mem_map.mp he
      obtain ⟨hk1, hk2⟩ := mem_byChangeSeq.mp hk
      have hkj : k = j := s.table.row_unique hk1 hj hid
      rw [hkj] at hk2
      exact h (by exact_mod_cast hk2)
    rw [if_neg h, hl]
    rfl

theorem Stream.Tailing.poll {s : Stream} (h : s.Tailing) (hb : s.table.Bounded) :
    s.changesSince.Tailing := by
  obtain ⟨hc1, hc2⟩ := h.cursor
  have hm : s.cursor ≤ s.changesSince.cursor := ((foldl_max_le_iff Prod.fst).mp le_rfl).1
  refine ⟨⟨le_trans hc1 hm, (foldl_max_le_iff Prod.fst).mpr ⟨hc2, fun r hr => ?_⟩⟩,
    fun j hj h1 _ => ?_, fun j hj h1 => ?_⟩
  · obtain ⟨j, hj, rfl⟩ := List.mem_map.mp hr
    exact hb j (mem_byChangeSeq.mp hj).1
  · rw [lastEvent_poll s hj]
    split
    · rfl
    · exact h.newer j hj h1 (by omega)
  · rw [lastEvent_poll s hj]
    have h1' : j.changeSeq ≤ s.tailFrom := h1
    rw [if_neg (by omega)]
    exact h.older j hj h1

theorem Stream.latestChangeSeq_tailing {s : Stream} (hb : s.table.Bounded)
    (h : s.events = KatagoWs.listJobs s.snapshot) : s.latestChangeSeq.Tailing := by
  refine ⟨⟨le_refl _, latest_le hb⟩, fun j _ h1 h2 => absurd h1 (not_lt.mpr h2), fun j _ _ => ?_⟩
  show lastEvent s.events j.id = _
  rw [h]
  rfl

theorem streamStep_inv {s t : Stream} {a : StreamAct} (h : s.Inv)
    (hs : streamStep s a = some t) : t.Inv := by
  cases a with
  | commit writes =>
    obtain ⟨table, he, rfl⟩ := Option.map_eq_some_iff.mp hs
    have hg := jobsSys_grows he
    exact ⟨h.bounded.grows hg, h.snapshot, h.opened, h.snapped, fun hp => (h.tailing hp).commit hg⟩
  | listJobs =>
    obtain ⟨hp, he⟩ := Option.ite_none_right_eq_some.mp hs
    cases he
    refine ⟨h.bounded, s.table.nodup, fun hp => (by cases hp), fun _ => ?_, fun hp => (by cases hp)⟩
    show s.events ++ _ = _
    rw [h.opened hp]
    rfl
  | latestChangeSeq =>
    obtain ⟨hp, he⟩ := Option.ite_none_right_eq_some.mp hs
    cases he
    exact ⟨h.bounded, h.snapshot, fun hp => (by cases hp), fun hp => (by cases hp),
      fun _ => Stream.latestChangeSeq_tailing h.bounded (h.snapped hp)⟩
  | changesSince =>
    obtain ⟨hp, he⟩ := Option.ite_none_right_eq_some.mp hs
    cases he
    have ho : s.changesSince.phase = .tailing := hp
    refine ⟨h.bounded, h.snapshot, fun hp => ?_, fun hp => ?_,
      fun _ => (h.tailing hp).poll h.bounded⟩
    · rw [ho] at hp; cases hp
    · rw [ho] at hp; cases hp

theorem streamSys_inv {s : Stream} (h : streamSys.Reachable s) : s.Inv := by
  refine h.rule (I := Stream.Inv) ?_ fun s a t hs he => streamStep_inv hs he
  rintro s₀ ⟨ht, h0⟩
  rw [h0]
  exact ⟨jobsSys_bounded ht, List.nodup_nil, fun _ => rfl, fun hp => (by cases hp),
    fun hp => (by cases hp)⟩

/-- **What a completed poll leaves**: the last event of every visible job is its current state
exactly when the snapshot showed every row not written since the cursor read as it is now. -/
theorem stream_exact {s t : Stream} (h : streamSys.Reachable s)
    (hp : streamStep s .changesSince = some t) :
    (∀ j ∈ t.table.rows, lastEvent t.events j.id = some j.summary) ↔
      ∀ j ∈ t.table.rows, j.changeSeq ≤ t.tailFrom →
        ∃ k ∈ t.snapshot, k.summary = j.summary := by
  have hI := streamSys_inv h
  have hIt := streamStep_inv hI hp
  obtain ⟨hph, he⟩ := Option.ite_none_right_eq_some.mp hp
  cases he
  have hT : s.changesSince.Tailing := hIt.tailing hph
  have hsnap : ∀ id e, lastEvent (KatagoWs.listJobs s.snapshot) id = some e ↔
      e.id = id ∧ ∃ k ∈ s.snapshot, k.summary = e := by
    intro id e
    constructor
    · intro hl
      obtain ⟨h1, h2⟩ := lastEvent_mem hl
      exact ⟨h2, mem_listJobs.mp h1⟩
    · rintro ⟨rfl, hk⟩
      exact lastEvent_unique (listJobs_ids hI.snapshot) (mem_listJobs.mpr hk)
  constructor
  · intro hall j hj hle
    have hl := (hT.older j hj hle).symm.trans (hall j hj)
    exact ((hsnap _ _).mp hl).2
  · intro hall j hj
    by_cases hle : j.changeSeq ≤ s.changesSince.tailFrom
    · exact (hT.older j hj hle).trans ((hsnap _ _).mpr ⟨rfl, hall j hj hle⟩)
    · have hle' : ¬ j.changeSeq ≤ s.tailFrom := hle
      have hc := (hI.tailing hph).cursor.1
      rw [lastEvent_poll s hj]
      split
      · rfl
      · exact (hI.tailing hph).newer j hj (by omega) (by omega)

/-! ## no write between the snapshot and the cursor read -/

/-- then the cursor read sees the snapshot -/
structure Stream.Whole (s : Stream) : Prop where
  snapped : s.phase = .snapped → s.snapshot = s.table.rows
  tailing : s.phase = .tailing → s.tailFrom ≤ s.table.seq ∧
    ∀ j ∈ s.table.rows, j.changeSeq ≤ s.tailFrom → j ∈ s.snapshot

theorem streamStep_whole {s t : Stream} {a : StreamAct} (hb : s.table.Bounded) (h : s.Whole)
    (hok : commitInTime s a = true) (hs : streamStep s a = some t) : t.Whole := by
  cases a with
  | commit writes =>
    obtain ⟨table, he, rfl⟩ := Option.map_eq_some_iff.mp hs
    have hg := jobsSys_grows he
    have hseq := hg.seq
    have hne : s.phase ≠ .snapped := of_decide_eq_true hok
    refine ⟨fun hp => absurd hp hne, fun hp => ?_⟩
    obtain ⟨h1, h2⟩ := h.tailing hp
    refine ⟨le_trans h1 hseq, fun j hj hle => ?_⟩
    rcases hg.rows j hj with hj | ⟨h3, _⟩
    · exact h2 j hj hle
    · have hle' : j.changeSeq ≤ s.tailFrom := hle
      omega
  | listJobs =>
    obtain ⟨_, he⟩ := Option.ite_none_right_eq_some.mp hs
    cases he
    exact ⟨fun _ => rfl, fun hp => (by cases hp)⟩
  | latestChangeSeq =>
    obtain ⟨hp, he⟩ := Option.ite_none_right_eq_some.mp hs
    cases he
    refine ⟨fun hp => (by cases hp), fun _ => ⟨latest_le hb, fun j hj _ => ?_⟩⟩
    show j ∈ s.snapshot
    rw [h.snapped hp]
    exact hj
  | changesSince =>
    obtain ⟨hp, he⟩ := Option.ite_none_right_eq_some.mp hs
    cases he
    exact ⟨h.snapped, h.tailing⟩

theorem streamSys_whole {s : Stream}
    (h : streamSys.ReachableIf (fun s a => commitInTime s a = true) s) : s.Inv ∧ s.Whole := by
  refine h.rule (I := fun s => s.Inv ∧ s.Whole) ?_ fun s a t hs hok he =>
    ⟨streamStep_inv hs.1 he, streamStep_whole hs.1.bounded hs.2 hok he⟩
  rintro s₀ ⟨ht, h0⟩
  refine ⟨streamSys_inv (Sys.Reachable.init ⟨ht, h0⟩), ?_⟩
  rw [h0]
  exact ⟨fun hp => (by cases hp), fun hp => (by cases hp)⟩

/-- **The live stream misses no change**, in every run without a write between the snapshot and
the cursor read: after every completed poll the last event of every visible job is its current
state. -/
theorem stream_misses_nothing {s t : Stream}
    (h : streamSys.ReachableIf (fun s a => commitInTime s a = true) s)
    (hp : streamStep s .changesSince = some t) :
    ∀ j ∈ t.table.rows, lastEvent t.events j.id = some j.summary := by
  have hW := (streamSys_whole h).2
  rw [stream_exact h.reachable hp]
  obtain ⟨hph, he⟩ := Option.ite_none_right_eq_some.mp hp
  cases he
  intro j hj hle
  exact ⟨j, (hW.tailing hph).2 j hj hle, rfl⟩

/-! ## the window -/

def snapshotFirst : List StreamAct :=
  [.commit [.insert 0 7, .insert 0 8], .listJobs, .latestChangeSeq, .commit [.setRunning 1 7],
   .changesSince, .commit [.setDone 2 7 .null]]

def freshStream : Stream := (streamSys.exec Stream.opened snapshotFirst).getD Stream.opened

theorem stream_misses_nothing_fresh :
    (freshStream.changesSince.table.rows.map fun j =>
        lastEvent freshStream.changesSince.events j.id)
      = freshStream.changesSince.table.rows.map fun j => some j.summary := by
  have hr : streamSys.ReachableIf (fun s a => commitInTime s a = true) freshStream :=
    ⟨Stream.opened, snapshotFirst, ⟨Sys.Reachable.init rfl, rfl⟩, rfl, Sys.Meets.of_check rfl⟩
  exact List.map_congr_left (stream_misses_nothing hr rfl)

/-- job 7 starts to run after the snapshot and before the cursor is read -/
def writeInWindow : List StreamAct :=
  [.commit [.insert 0 7], .listJobs, .commit [.setRunning 1 7], .latestChangeSeq]

def staleStream : Stream := (streamSys.exec Stream.opened writeInWindow).getD Stream.opened

theorem stream_misses_change : ¬ ∀ s t : Stream, streamSys.Reachable s →
    streamStep s .changesSince = some t →
    ∀ j ∈ t.table.rows, lastEvent t.events j.id = some j.summary := by
  intro h
  have hr : streamSys.Reachable staleStream :=
    ⟨Stream.opened, writeInWindow, ⟨Sys.Reachable.init rfl, rfl⟩, rfl⟩
  have hl := h staleStream _ hr rfl _ List.mem_cons_self
  exact absurd hl (by decide)

end KatagoWs
