import KatagoWs.Http.Changes
import KatagoWs.Lib.Overlay

/-!
# Paging the change feed

A page of `GET /analyses/changes` is cut by the limit, by the settled prefix and by the end of the
table; a client follows the cursor until `more` is false.

* `page_spec`        what one page is, whatever cut it;
* `followCursor`     the client's loop on a table that is settled and not written: it ends, and
                     delivers the pending rows once, in order (`followCursor_pages`);
* `pollsSys`         requests in two queries, between any writes of concurrent transactions:
                     `latest` is never below a cursor the service gave out (`latest_covers`).
-/

namespace KatagoWs
open Lib

/-! ## one page -/

section
variable {rows : List Job}

theorem byChangeSeq_from (h : (rows.map Job.changeSeq).Nodup) {cursor : Int}
    {ready rest : List Job} (hs : byChangeSeq rows cursor = ready ++ rest) {last : Job}
    (hl : ready.getLast? = some last) : byChangeSeq rows last.changeSeq = rest := by
  obtain ⟨front, rfl⟩ := List.getLast?_eq_some_iff.mp hl
  have hstrict := byChangeSeq_strict h cursor
  rw [hs] at hstrict
  obtain ⟨hready, hrest, hcross⟩ := List.pairwise_append.mp hstrict
  have hfront : ∀ j ∈ front, j.changeSeq < last.changeSeq := fun j hj =>
    (List.pairwise_append.mp hready).2.2 j hj last (List.mem_singleton_self _)
  have hlast : cursor < last.changeSeq := by
    have hm : last ∈ byChangeSeq rows cursor := by
      rw [hs]
      exact List.mem_append_left _ (List.mem_append_right _ (List.mem_singleton_self _))
    exact (mem_byChangeSeq.mp hm).2
  refine eq_of_strict (byChangeSeq_strict h _) hrest fun j => ?_
  have hj : j ∈ rows ∧ cursor < j.changeSeq ↔ (j ∈ front ∨ j = last) ∨ j ∈ rest := by
    rw [← mem_byChangeSeq, hs, List.mem_append, List.mem_append, List.mem_singleton]
  rw [mem_byChangeSeq]
  constructor
  · rintro ⟨hr, hlt⟩
    rcases hj.mp ⟨hr, by omega⟩ with (hf | rfl) | hm
    · have := hfront j hf
      omega
    · omega
    · exact hm
  · intro hm
    have hlt := hcross last (List.mem_append_right _ (List.mem_singleton_self _)) j hm
    exact ⟨(hj.mpr (Or.inr hm)).1, by omega⟩

variable {now : Timestamp} {query : ChangesQuery} {latest : Int}

theorem pageLimit_pos (query : ChangesQuery) : 0 < query.pageLimit := by
  rw [ChangesQuery.pageLimit]
  omega

/-- **One page**: the rows it delivers are the first of the scan, settled and no more than the
limit; `more` is false only when they are all of it. -/
theorem page_spec (rows : List Job) (now : Timestamp) (latest : Int) (query : ChangesQuery) :
    ∃ ready rest, byChangeSeq rows query.since = ready ++ rest ∧
      (changes rows now latest query).changes = ready.map Job.change ∧
      (changes rows now latest query).cursor =
        (ready.getLast?.map fun j => (j.changeSeq : Int)).getD query.since ∧
      ((changes rows now latest query).more = false → rest = []) ∧
      ((∀ j ∈ rows, settled now SETTLE_SECS j = true) →
        (changes rows now latest query).more = true → ready ≠ []) := by
  have hscan := List.take_append_drop query.pageLimit (byChangeSeq rows query.since)
  have hready := List.takeWhile_append_dropWhile (p := settled now SETTLE_SECS)
    (l := (byChangeSeq rows query.since).take query.pageLimit)
  set scan := (byChangeSeq rows query.since).take query.pageLimit with hs
  set ready := scan.takeWhile (settled now SETTLE_SECS) with hr
  have hmore : (changes rows now latest query).more = (decide (ready.length < scan.length) ||
      decide (query.pageLimit ≤ (ready.map fun j => (j.changeSeq, j.summary)).length)) := rfl
  refine ⟨ready, scan.dropWhile (settled now SETTLE_SECS) ++
    (byChangeSeq rows query.since).drop query.pageLimit, ?_, ?_, ?_, ?_, ?_⟩
  · rw [← List.append_assoc, hready, hscan]
  · show ((ready.map fun j => (j.changeSeq, j.summary)).map _) = _
    rw [List.map_map]
    rfl
  · show ((ready.map fun j => (j.changeSeq, j.summary)).getLast?.map _).getD _ = _
    rw [List.getLast?_map, Option.map_map]
    rfl
  · intro hm
    rw [hmore, Bool.or_eq_false_iff, decide_eq_false_iff_not, decide_eq_false_iff_not, not_lt,
      not_le, List.length_map] at hm
    have hlen := congrArg List.length hready
    rw [List.length_append] at hlen
    have hd : scan.dropWhile (settled now SETTLE_SECS) = [] := List.length_eq_zero_iff.mp (by omega)
    have hscan' : scan.length < query.pageLimit := by omega
    rw [hs, List.length_take] at hscan'
    rw [hd, List.nil_append]
    exact List.drop_eq_nil_of_le (by omega)
  · intro hset hm hnil
    have hall : ready = scan := by
      rw [hr, List.takeWhile_eq_self_iff]
      intro j hj
      exact hset j (mem_byChangeSeq.mp (List.mem_of_mem_take hj)).1
    have hpos := pageLimit_pos query
    rw [hmore, ← hall, hnil, Bool.or_eq_true, decide_eq_true_iff, decide_eq_true_iff] at hm
    rcases hm with hm | hm
    · exact lt_irrefl _ hm
    · exact absurd hm (not_le.mpr hpos)

theorem cursor_cases (rows : List Job) (now : Timestamp) (latest : Int) (query : ChangesQuery) :
    (changes rows now latest query).cursor = query.since ∨
      ∃ j ∈ byChangeSeq rows query.since,
        (changes rows now latest query).cursor = j.changeSeq := by
  obtain ⟨ready, rest, hs, -, hcursor, -⟩ := page_spec rows now latest query
  cases hl : ready.getLast? with
  | none =>
    rw [hl] at hcursor
    exact Or.inl hcursor
  | some last =>
    rw [hl] at hcursor
    refine Or.inr ⟨last, ?_, hcursor⟩
    rw [hs]
    exact List.mem_append_left _ (List.mem_of_getLast? hl)

theorem since_le_cursor (rows : List Job) (now : Timestamp) (latest : Int) (query : ChangesQuery) :
    query.since ≤ (changes rows now latest query).cursor := by
  rcases cursor_cases rows now latest query with he | ⟨j, hj, he⟩
  · exact le_of_eq he.symm
  · rw [he]
    exact le_of_lt (mem_byChangeSeq.mp hj).2

theorem le_cursor (hm : (changes rows now latest query).more = false) {j : Job} (hj : j ∈ rows) :
    (j.changeSeq : Int) ≤ (changes rows now latest query).cursor := by
  obtain ⟨ready, rest, hs, -, hcursor, hlast, -⟩ := page_spec rows now latest query
  rw [hlast hm, List.append_nil] at hs
  by_cases hlt : query.since < j.changeSeq
  · have hjr : j ∈ ready := hs ▸ mem_byChangeSeq.mpr ⟨hj, hlt⟩
    have hne := List.ne_nil_of_mem hjr
    rw [hcursor, List.getLast?_eq_some_getLast hne]
    have hsort := byChangeSeq_sorted rows query.since
    rw [hs, ← List.dropLast_append_getLast hne] at hsort
    rw [← List.dropLast_append_getLast hne] at hjr
    rcases List.mem_append.mp hjr with hfront | hl
    · have hle := (List.pairwise_append.mp hsort).2.2 j hfront _ (List.mem_singleton_self _)
      exact Int.ofNat_le.mpr hle
    · rw [List.mem_singleton.mp hl]
      exact le_refl _
  · exact le_trans (not_lt.mp hlt) (since_le_cursor rows now latest query)

/-! ## following the cursor -/

/-- A client's loop: ask with the cursor of the last response until `more` is false.  Nothing is
written meanwhile; request `i` comes at `now i` with `limit i`. -/
def followCursor (rows : List Job) (now : Nat → Timestamp) (limit : Nat → Option Int) :
    (fuel : Nat) → (i : Nat) → (since : Int) → Option (List Change × Int)
  | 0, _, _ => none
  | fuel + 1, i, since =>
    let response := changes rows (now i) (latestChangeSeq rows) ⟨since, limit i⟩
    if response.more then
      (followCursor rows now limit fuel (i + 1) response.cursor).map fun p =>
        (response.changes ++ p.1, p.2)
    else some (response.changes, response.cursor)

/-- **Paging** a settled table ends, and delivers what is pending, in order: each page but the
last has at least one row, so one request more than there are rows is enough. -/
theorem followCursor_pages (h : (rows.map Job.changeSeq).Nodup) {now : Nat → Timestamp}
    (hset : ∀ i, ∀ j ∈ rows, settled (now i) SETTLE_SECS j = true) (limit : Nat → Option Int)
    (fuel i : Nat) (since : Int) (hfuel : (byChangeSeq rows since).length < fuel) :
    ∃ cursor, followCursor rows now limit fuel i since =
      some ((byChangeSeq rows since).map Job.change, cursor) := by
  induction fuel generalizing i since with
  | zero => omega
  | succ fuel ih =>
    obtain ⟨ready, rest, hs, hchanges, hcursor, hlast, hsome⟩ :=
      page_spec rows (now i) (latestChangeSeq rows) ⟨since, limit i⟩
    rw [followCursor]
    dsimp only at hs ⊢
    cases hm : (changes rows (now i) (latestChangeSeq rows) ⟨since, limit i⟩).more with
    | false =>
      rw [if_neg Bool.false_ne_true, hchanges, hs, hlast hm, List.append_nil]
      exact ⟨_, rfl⟩
    | true =>
      have hne := hsome (hset i) hm
      have hl := List.getLast?_eq_some_getLast hne
      set last := ready.getLast hne
      have hfrom := byChangeSeq_from h hs hl
      have hcur : (changes rows (now i) (latestChangeSeq rows) ⟨since, limit i⟩).cursor
          = last.changeSeq := by
        rw [hcursor, hl]
        rfl
      have hpos : 0 < ready.length := List.length_pos_iff.mpr hne
      rw [hs, List.length_append] at hfuel
      rw [if_pos rfl, hcur]
      obtain ⟨cursor, hf⟩ := ih (i + 1) last.changeSeq (by rw [hfrom]; omega)
      refine ⟨cursor, ?_⟩
      rw [hf, hfrom, Option.map_some, hchanges, hs, List.map_append]

end

/-! ## requests among writes -/

/-- a request between its two queries: what the first one saw -/
structure Asked where
  query : ChangesQuery
  rows : List Job
  now : Timestamp

def Asked.answer (asked : Asked) (latest : Int) : ChangesResponse :=
  changes asked.rows asked.now latest asked.query

/-- The database and the requests of any number of clients: the cursors the service has given
out, the requests between their two queries, and the answered ones. -/
structure Polls where
  db : Feed
  cursors : List Int
  asked : List Asked
  answered : List (ChangesQuery × ChangesResponse)

inductive PollsAct where
  | tick (now : Timestamp)
  | begin
  | write (tid : Nat) (row : Job)
  | commit (tid : Nat)
  | rollback (tid : Nat)
  | ask (query : ChangesQuery)
  | answer (i : Nat)

/-- `answer i` is the second query of the `i`-th request asked -/
def pollsStep (s : Polls) : PollsAct → Option Polls
  | .tick now => some { s with db := { s.db with now } }
  | .begin =>
    some { s with db := { s.db with
      txns := s.db.txns ++ [⟨s.db.nextTid, s.db.now, []⟩]
      nextTid := s.db.nextTid + 1 } }
  | .write tid row =>
    (s.db.txn tid).bind fun x =>
      if s.db.locked tid row.id then none else some { s with db := s.db.write x row }
  | .commit tid => (s.db.txn tid).map fun x => { s with db := s.db.commit x }
  | .rollback tid => (s.db.txn tid).map fun x => { s with db := s.db.drop x }
  | .ask query =>
    if query.since ∈ s.cursors then
      some { s with asked := s.asked ++ [⟨query, s.db.rows, s.db.now⟩] }
    else none
  | .answer i =>
    (s.asked[i]?).map fun asked =>
      let response := asked.answer (latestChangeSeq s.db.rows)
      { s with
        cursors := response.cursor :: s.cursors
        answered := s.answered ++ [(asked.query, response)] }

def pollsSys : Sys Polls PollsAct where
  init s := s.db.seq = 0 ∧ s.db.rows = [] ∧ s.db.txns = [] ∧ s.cursors = [0] ∧ s.asked = [] ∧
    s.answered = []
  step := pollsStep

/-- a row's versions in flight are newer than the visible one, and one transaction's at a time -/
structure Feed.Newer (s : Feed) : Prop where
  rowsLe : ∀ j ∈ s.rows, j.changeSeq ≤ s.seq
  txnsLe : ∀ x ∈ s.txns, ∀ v ∈ x.rows, v.changeSeq ≤ s.seq
  newer : ∀ x ∈ s.txns, ∀ v ∈ x.rows, ∀ j ∈ s.rows, j.id = v.id → j.changeSeq < v.changeSeq
  alone : ∀ x ∈ s.txns, ∀ y ∈ s.txns, x.tid ≠ y.tid → ∀ v ∈ x.rows, ∀ w ∈ y.rows, v.id ≠ w.id

theorem Feed.Newer.write {s : Feed} (h : s.Newer) {tid : Nat} {x : Txn} (hx : s.txn tid = some x)
    {row : Job} (hl : s.locked tid row.id = false) : (s.write x row).Newer := by
  obtain ⟨-, htid⟩ := Feed.txn_some hx
  have hrow : (row.stampChange x.start (s.seq + 1)).id = row.id := rfl
  have hseq : (row.stampChange x.start (s.seq + 1)).changeSeq = s.seq + 1 := rfl
  -- a version in flight is an old one, or the one just written
  have hnew : ∀ y ∈ (s.write x row).txns, ∀ v ∈ y.rows,
      ∃ z ∈ s.txns, z.tid = y.tid ∧ (v ∈ z.rows ∨
        (y.tid = x.tid ∧ v = row.stampChange x.start (s.seq + 1))) := by
    intro y hy v hv
    obtain ⟨z, hz, ht, ⟨_, rfl⟩ | ⟨hyx, rfl⟩⟩ := Feed.mem_write hy
    · exact ⟨y, hz, rfl, Or.inl hv⟩
    · rcases Txn.mem_put hv with hv | rfl
      · exact ⟨z, hz, ht, Or.inl hv⟩
      · exact ⟨z, hz, ht, Or.inr ⟨hyx, rfl⟩⟩
  have hother : ∀ z ∈ s.txns, z.tid ≠ x.tid → ∀ v ∈ z.rows, v.id ≠ row.id := by
    intro z hz hne v hv he
    have hlock : s.locked tid row.id = true := by
      rw [Feed.locked, List.any_eq_true]
      refine ⟨z, hz, ?_⟩
      rw [Bool.and_eq_true, decide_eq_true_iff, List.any_eq_true]
      exact ⟨htid ▸ hne, v, hv, decide_eq_true he⟩
    rw [hl] at hlock
    cases hlock
  refine ⟨fun j hj => le_trans (h.rowsLe j hj) (Nat.le_succ _), fun y hy v hv => ?_,
    fun y hy v hv j hj he => ?_, fun y hy w hw hne v hv u hu => ?_⟩
  · obtain ⟨z, hz, -, hv | ⟨-, rfl⟩⟩ := hnew y hy v hv
    · exact le_trans (h.txnsLe z hz v hv) (Nat.le_succ _)
    · exact le_refl _
  · obtain ⟨z, hz, -, hv | ⟨-, rfl⟩⟩ := hnew y hy v hv
    · exact h.newer z hz v hv j hj he
    · rw [hseq]
      exact Nat.lt_succ_of_le (h.rowsLe j hj)
  · obtain ⟨z, hz, htz, hv | ⟨hyx, rfl⟩⟩ := hnew y hy v hv
    · obtain ⟨z', hz', htz', hu | ⟨hwx, rfl⟩⟩ := hnew w hw u hu
      · exact h.alone z hz z' hz' (by rw [htz, htz']; exact hne) v hv u hu
      · rw [hrow]
        exact hother z hz (fun he => hne (htz.symm.trans (he.trans hwx.symm))) v hv
    · obtain ⟨z', hz', htz', hu | ⟨hwx, rfl⟩⟩ := hnew w hw u hu
      · rw [hrow]
        exact (hother z' hz' (fun he => hne (hyx.trans (he.symm.trans htz'))) u hu).symm
      · exact absurd (hyx.trans hwx.symm) hne

theorem Feed.Newer.drop {s : Feed} (h : s.Newer) (x : Txn) : (s.drop x).Newer := by
  have hsub : ∀ y ∈ (s.drop x).txns, y ∈ s.txns := fun y hy => (List.mem_filter.mp hy).1
  exact ⟨h.rowsLe, fun y hy => h.txnsLe y (hsub y hy), fun y hy => h.newer y (hsub y hy),
    fun y hy w hw => h.alone y (hsub y hy) w (hsub w hw)⟩

theorem Feed.Newer.commit {s : Feed} (h : s.Newer) {x : Txn} (hx : x ∈ s.txns) :
    (s.commit x).Newer := by
  have hd := h.drop x
  refine ⟨fun j hj => ?_, hd.txnsLe, fun y hy v hv j hj he => ?_, hd.alone⟩
  · rcases Feed.mem_commit hj with hj | hj
    · exact h.rowsLe j hj
    · exact h.txnsLe x hx j hj
  · rcases Feed.mem_commit hj with hj | hj
    · exact hd.newer y hy v hv j hj he
    · obtain ⟨hy', hne⟩ := List.mem_filter.mp hy
      exact absurd he (h.alone x hx y hy' (of_decide_eq_true hne).symm j hj v hv)

theorem Feed.Newer.latest {s : Feed} (h : s.Newer) {x : Txn} (hx : x ∈ s.txns) :
    latestChangeSeq s.rows ≤ latestChangeSeq (s.commit x).rows := by
  refine latest_mono fun j hj => ?_
  by_cases hv : x.rows.any fun v => v.id = j.id
  · obtain ⟨v, hvx, he⟩ := List.any_eq_true.mp hv
    refine ⟨v, List.mem_append_right _ hvx, le_of_lt ?_⟩
    exact h.newer x hx v hvx j hj (of_decide_eq_true he).symm
  · refine ⟨j, List.mem_append_left _ (List.mem_filter.mpr ⟨hj, ?_⟩), le_refl _⟩
    rw [Bool.not_eq_true] at hv
    rw [hv]
    rfl

/-- **The invariant of the requests**: the newest number is at or above every cursor given out
and every row a request has seen. -/
structure Polls.Inv (s : Polls) : Prop where
  newer : s.db.Newer
  cursors : ∀ c ∈ s.cursors, c ≤ latestChangeSeq s.db.rows
  since : ∀ a ∈ s.asked, a.query.since ≤ latestChangeSeq s.db.rows
  seen : ∀ a ∈ s.asked, ∀ j ∈ a.rows, j.changeSeq ≤ latestChangeSeq s.db.rows
  answered : ∀ p ∈ s.answered, p.1.since ≤ p.2.latest ∧ p.2.cursor ≤ p.2.latest

theorem Polls.Inv.db {s : Polls} (h : s.Inv) {db : Feed} (hn : db.Newer)
    (hle : latestChangeSeq s.db.rows ≤ latestChangeSeq db.rows) : Polls.Inv { s with db } := by
  have hle' : (latestChangeSeq s.db.rows : Int) ≤ latestChangeSeq db.rows := by omega
  exact ⟨hn, fun c hc => le_trans (h.cursors c hc) hle', fun a ha => le_trans (h.since a ha) hle',
    fun a ha j hj => le_trans (h.seen a ha j hj) hle, h.answered⟩

theorem pollsStep_inv {s t : Polls} {a : PollsAct} (h : s.Inv) (hs : pollsStep s a = some t) :
    t.Inv := by
  cases a with
  | tick now =>
    cases hs
    exact h.db ⟨h.newer.rowsLe, h.newer.txnsLe, h.newer.newer, h.newer.alone⟩ (le_refl _)
  | begin =>
    cases hs
    have hmem : ∀ x, x ∈ s.db.txns ++ [⟨s.db.nextTid, s.db.now, []⟩] → ∀ v ∈ x.rows,
        x ∈ s.db.txns := by
      intro x hx v hv
      rcases List.mem_append.mp hx with hx | hx
      · exact hx
      · rw [List.mem_singleton.mp hx] at hv
        cases hv
    refine h.db ⟨h.newer.rowsLe, fun x hx v hv => ?_, fun x hx v hv => ?_,
      fun x hx y hy hne v hv w hw => ?_⟩ (le_refl _)
    · exact h.newer.txnsLe x (hmem x hx v hv) v hv
    · exact h.newer.newer x (hmem x hx v hv) v hv
    · exact h.newer.alone x (hmem x hx v hv) y (hmem y hy w hw) hne v hv w hw
  | write tid row =>
    obtain ⟨x, hx, he⟩ := Option.bind_eq_some_iff.mp hs
    obtain ⟨hl, he'⟩ := Option.ite_none_left_eq_some.mp he
    cases he'
    exact h.db (h.newer.write hx (Bool.eq_false_iff.mpr hl)) (le_refl _)
  | commit tid =>
    obtain ⟨x, hx, rfl⟩ := Option.map_eq_some_iff.mp hs
    have hmem := (Feed.txn_some hx).1
    exact h.db (h.newer.commit hmem) (h.newer.latest hmem)
  | rollback tid =>
    obtain ⟨x, hx, rfl⟩ := Option.map_eq_some_iff.mp hs
    exact h.db (h.newer.drop x) (le_refl _)
  | ask query =>
    obtain ⟨hc, he⟩ := Option.ite_none_right_eq_some.mp hs
    cases he
    refine ⟨h.newer, h.cursors, fun a ha => ?_, fun a ha j hj => ?_, h.answered⟩
    · rcases List.mem_append.mp ha with ha | ha
      · exact h.since a ha
      · rw [List.mem_singleton.mp ha]
        exact h.cursors _ hc
    · rcases List.mem_append.mp ha with ha | ha
      · exact h.seen a ha j hj
      · rw [List.mem_singleton.mp ha] at hj
        exact le_latest hj
  | answer i =>
    obtain ⟨asked, hi, rfl⟩ := Option.map_eq_some_iff.mp hs
    have ha := List.mem_of_getElem? hi
    have hcursor : (asked.answer (latestChangeSeq s.db.rows)).cursor
        ≤ latestChangeSeq s.db.rows := by
      rcases cursor_cases asked.rows asked.now (latestChangeSeq s.db.rows) asked.query with
        he | ⟨j, hj, he⟩
      · rw [Asked.answer, he]
        exact h.since asked ha
      · rw [Asked.answer, he]
        exact Int.ofNat_le.mpr (h.seen asked ha j (mem_byChangeSeq.mp hj).1)
    refine ⟨h.newer, fun c hc => ?_, h.since, h.seen, fun p hp => ?_⟩
    · rcases List.mem_cons.mp hc with rfl | hc
      · exact hcursor
      · exact h.cursors c hc
    · rcases List.mem_append.mp hp with hp | hp
      · exact h.answered p hp
      · rw [List.mem_singleton.mp hp]
        exact ⟨h.since asked ha, hcursor⟩

/-- **`latest` covers every cursor** the service gave out: the reset signal is never false. -/
theorem latest_covers {s : Polls} (h : pollsSys.Reachable s) :
    ∀ p ∈ s.answered, p.1.since ≤ p.2.latest ∧ p.2.cursor ≤ p.2.latest := by
  have hI : s.Inv := by
    refine h.rule (I := Polls.Inv) ?_ fun s a t hs he => pollsStep_inv hs he
    rintro s₀ ⟨h1, h2, h3, h4, h5, h6⟩
    refine ⟨⟨?_, ?_, ?_, ?_⟩, ?_, ?_, ?_, ?_⟩
    all_goals simp [h2, h3, h4, h5, h6]
  exact hI.answered

/-! ## the feed is complete -/

/-- **Paging the change feed**: following the cursor on a settled table ends with every pending
row delivered once, in order; a page is a prefix of what is pending, its cursor does not go back,
and `more` is false only when nothing is above it; and `latest` covers every cursor asked with. -/
theorem paging_complete :
    (∀ rows : List Job, (rows.map Job.changeSeq).Nodup →
      ∀ (now : Nat → Timestamp) (limit : Nat → Option Int) (since : Int),
        (∀ i, ∀ j ∈ rows, settled (now i) SETTLE_SECS j = true) →
        ∃ fuel delivered cursor,
          followCursor rows now limit fuel 0 since = some (delivered, cursor) ∧
          delivered.Perm ((rows.filter fun j => since < j.changeSeq).map Job.change) ∧
          delivered.Pairwise fun c d => c.seq < d.seq) ∧
    (∀ (rows : List Job) (now : Timestamp) (latest : Int) (query : ChangesQuery),
      (changes rows now latest query).changes <+: (byChangeSeq rows query.since).map Job.change ∧
      ((changes rows now latest query).more = false →
        ∀ j ∈ rows, (j.changeSeq : Int) ≤ (changes rows now latest query).cursor) ∧
      query.since ≤ (changes rows now latest query).cursor) ∧
    ∀ s, pollsSys.Reachable s → ∀ p ∈ s.answered, p.1.since ≤ p.2.latest := by
  refine ⟨fun rows h now limit since hset => ?_, fun rows now latest query => ⟨?_, ?_, ?_⟩,
    fun s hs p hp => (latest_covers hs p hp).1⟩
  · obtain ⟨cursor, hf⟩ := followCursor_pages h hset limit _ 0 since (Nat.lt_succ_self _)
    refine ⟨_, _, cursor, hf, (List.perm_insertionSort _ _).map _, ?_⟩
    rw [List.pairwise_map]
    exact byChangeSeq_strict h since
  · obtain ⟨ready, rest, hs, hchanges, -⟩ := page_spec rows now latest query
    rw [hchanges, hs, List.map_append]
    exact List.prefix_append _ _
  · exact fun hm j hj => le_cursor hm hj
  · exact since_le_cursor rows now latest query

/-- three settled rows in pages of one, and a request among the writes of two transactions -/
def pagedRows : List Job := [Job.fresh 7 0 5, Job.fresh 8 0 1, Job.fresh 9 0 2]

def interleaved : List PollsAct :=
  [.begin, .write 0 (Job.fresh 7 0 0), .begin, .write 1 (Job.fresh 8 0 0), .commit 1,
   .tick 6000000, .ask ⟨0, none⟩, .commit 0, .answer 0, .ask ⟨2, some 0⟩, .answer 1]

def polledState : Polls := (pollsSys.exec ⟨emptyFeed, [0], [], []⟩ interleaved).getD
  ⟨emptyFeed, [0], [], []⟩

theorem paging_complete_sample :
    (∃ fuel delivered cursor,
      followCursor pagedRows (fun _ => 6000000) (fun _ => some (-3)) fuel 0 1
        = some (delivered, cursor) ∧
      delivered.Perm ((pagedRows.filter fun j => (1 : Int) < j.changeSeq).map Job.change) ∧
      delivered.Pairwise fun c d => c.seq < d.seq) ∧
    (polledState.answered.map fun p => (p.1.since, p.2.cursor, p.2.latest)) =
      [(0, 2, 2), (2, 2, 2)] ∧
    ∀ p ∈ polledState.answered, p.1.since ≤ p.2.latest :=
  ⟨paging_complete.1 pagedRows (by decide) _ _ 1 (fun _ => by decide), by decide,
    paging_complete.2.2 polledState ⟨⟨emptyFeed, [0], [], []⟩, interleaved,
      ⟨rfl, rfl, rfl, rfl, rfl, rfl⟩, rfl⟩⟩

end KatagoWs
