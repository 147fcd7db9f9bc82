import KatagoWs.Engine.Sgf
import KatagoWs.Lib.Run
import Mathlib.Algebra.GroupWithZero.Nat
import Mathlib.Data.List.Perm.Basic

/-!
# The feeder of a trial

While a candidate is measured, `feed` keeps the engine's queue at a depth: it submits the chunks
of a plan, which it goes round and round, until enough turns are queued, waits for a query to
complete, and submits again.  Queries complete in any order.

* `chunks_cover`       the plan has every turn of every game once, in order (`chunks_formed`: no
                       chunk is empty, none is longer than the size);
* `step_cases`         what a step of the feeder can be;
* `Feeder.Counted`     the invariant: `queued` is the number of turns in flight (`kept_step`);
* `filling_ends`       every filling loop comes to its end;
* `returned_by`        the feeder returns from the first failed query, or from an empty corpus;
* `feed_at_depth`      the four together, of every run.
-/

namespace KatagoWs
namespace Autotune
open Lib

/-! ## the plan -/

def CHUNK_TURNS : Nat := 16

/-- the turns `start .. stop` of a game -/
structure Chunk where
  game : Nat
  start : Nat
  stop : Nat
deriving DecidableEq, Repr

def Chunk.len (chunk : Chunk) : Nat := chunk.stop - chunk.start

def Chunk.turns (chunk : Chunk) : List (Nat × Nat) :=
  (List.range' chunk.start chunk.len).map fun turn => (chunk.game, turn)

/-- the chunks of one game, from the turn `start` on -/
def chunksOf (size idx count start : Nat) : List Chunk :=
  if start < count then
    let stop := min (start + max size 1) count
    ⟨idx, start, stop⟩ :: chunksOf size idx count stop
  else []
termination_by count - start

/-- Split games of the given turn counts into chunks of at most `size` turns. -/
def chunks (turnCounts : List Nat) (size : Nat) : List Chunk :=
  turnCounts.zipIdx.flatMap fun e => chunksOf size e.2 e.1 0

def turnsOf (turnCounts : List Nat) : List (Nat × Nat) :=
  turnCounts.zipIdx.flatMap fun e => (List.range e.1).map fun turn => (e.2, turn)

def plan (games : List ParsedGame) : List Chunk :=
  chunks (games.map fun game => game.moves.length + 1) CHUNK_TURNS

/-! ## the feeder -/

structure Feeder where
  /-- the chunks taken from the plan so far, round after round -/
  taken : Nat
  queued : Nat
  inFlight : List Chunk
deriving DecidableEq, Repr

/-- in the filling loop, waiting for a query to complete, or at its end -/
inductive FeedState where
  | filling (s : Feeder)
  | waiting (s : Feeder)
  | returned (err : String)
deriving DecidableEq, Repr

/-- what moves the feeder: its own loop, the query `i` that completes, or that there is none -/
inductive FeedEvent where
  | iterate
  | completed (i : Nat) (result : AppResult Unit)
  | none

def Feeder.submit (s : Feeder) (chunk : Chunk) : Feeder :=
  { taken := s.taken + 1, queued := s.queued + chunk.len, inFlight := s.inFlight ++ [chunk] }

def Feeder.complete (s : Feeder) (i : Nat) (chunk : Chunk) : Feeder :=
  { s with queued := s.queued - chunk.len, inFlight := s.inFlight.eraseIdx i }

def Feeder.fill (plan : List Chunk) (games : List ParsedGame) (depth : Nat) (s : Feeder) :
    FeedState :=
  if s.queued < depth then
    match plan[s.taken % plan.length]? with
    | none => .waiting s
    | some chunk =>
      match games[chunk.game]? with
      | none => .waiting { s with taken := s.taken + 1 }
      | some _ => .filling (s.submit chunk)
  else .waiting s

def feedStep (plan : List Chunk) (games : List ParsedGame) (depth : Nat) :
    FeedState → FeedEvent → Option FeedState
  | .filling s, .iterate => some (s.fill plan games depth)
  | .waiting s, .completed i result =>
    s.inFlight[i]?.map fun chunk =>
      match result with
      | .ok _ => .filling (s.complete i chunk)
      | .error err => .returned err.toString
  | .waiting s, .none => if s.inFlight = [] then some (.returned "no corpus games") else none
  | _, _ => none

/-- Keep about `depth` positions queued. -/
def feed (games : List ParsedGame) (depth : Nat) : Sys FeedState FeedEvent where
  init s := s = .filling ⟨0, 0, []⟩
  step := feedStep (plan games) games depth

/-! ## the chunks of a plan -/

theorem chunksOf_formed (size idx count start : Nat) : ∀ chunk ∈ chunksOf size idx count start,
    chunk.game = idx ∧ 0 < chunk.len ∧ chunk.len ≤ max size 1 := by
  induction start using chunksOf.induct size count with
  | case1 start h stop ih =>
    intro chunk hc
    rw [chunksOf, if_pos h] at hc
    rcases List.mem_cons.mp hc with rfl | hc
    · refine ⟨rfl, ?_, ?_⟩
      · show 0 < min (start + max size 1) count - start
        omega
      · show min (start + max size 1) count - start ≤ max size 1
        omega
    · exact ih chunk hc
  | case2 start h =>
    intro chunk hc
    rw [chunksOf, if_neg h] at hc
    cases hc

theorem chunksOf_turns (size idx count start : Nat) :
    (chunksOf size idx count start).flatMap Chunk.turns
      = (List.range' start (count - start)).map fun turn => (idx, turn) := by
  induction start using chunksOf.induct size count with
  | case1 start h stop ih =>
    have hsplit : count - start = (stop - start) + (count - stop) := by
      show count - start = (min (start + max size 1) count - start)
        + (count - min (start + max size 1) count)
      omega
    have hstop : start + (stop - start) = stop := by
      show start + (min (start + max size 1) count - start) = min (start + max size 1) count
      omega
    rw [chunksOf, if_pos h, List.flatMap_cons, ih, hsplit, ← List.range'_append_1, hstop,
      List.map_append]
    rfl
  | case2 start h =>
    have hz : count - start = 0 := by omega
    rw [chunksOf, if_neg h, hz]
    rfl

theorem chunks_formed (turnCounts : List Nat) (size : Nat) : ∀ chunk ∈ chunks turnCounts size,
    chunk.game < turnCounts.length ∧ 0 < chunk.len ∧ chunk.len ≤ max size 1 := by
  intro chunk hc
  obtain ⟨e, he, hc⟩ := List.mem_flatMap.mp hc
  obtain ⟨hg, hlen⟩ := chunksOf_formed size e.2 e.1 0 chunk hc
  exact ⟨hg ▸ (List.mem_zipIdx' he).1, hlen⟩

theorem chunks_cover (turnCounts : List Nat) (size : Nat) :
    (chunks turnCounts size).flatMap Chunk.turns = turnsOf turnCounts := by
  unfold chunks turnsOf
  rw [List.flatMap_assoc]
  apply List.flatMap_congr
  intro e _
  rw [chunksOf_turns, List.range_eq_range']
  rfl

theorem turnsOf_sorted (turnCounts : List Nat) : (turnsOf turnCounts).Pairwise
    fun a b => a.1 < b.1 ∨ (a.1 = b.1 ∧ a.2 < b.2) := by
  unfold turnsOf
  rw [List.pairwise_flatMap]
  constructor
  · intro e _
    rw [List.pairwise_map]
    exact List.pairwise_lt_range.imp fun hlt => Or.inr ⟨rfl, hlt⟩
  · have hidx : (turnCounts.zipIdx.map Prod.snd).Pairwise (· < ·) := by
      rw [List.zipIdx_map_snd]
      exact List.pairwise_lt_range'
    refine (List.pairwise_map.mp hidx).imp fun hlt x hx y hy => ?_
    obtain ⟨_, _, rfl⟩ := List.mem_map.mp hx
    obtain ⟨_, _, rfl⟩ := List.mem_map.mp hy
    exact Or.inl hlt

theorem mem_turnsOf {turnCounts : List Nat} {game turn : Nat} :
    (game, turn) ∈ turnsOf turnCounts ↔ ∃ count, turnCounts[game]? = some count ∧ turn < count := by
  unfold turnsOf
  rw [List.mem_flatMap]
  constructor
  · rintro ⟨⟨count, idx⟩, he, hm⟩
    obtain ⟨t, ht, heq⟩ := List.mem_map.mp hm
    cases heq
    exact ⟨count, List.mem_zipIdx_iff_getElem?.mp he, List.mem_range.mp ht⟩
  · rintro ⟨count, hc, ht⟩
    exact ⟨(count, game), List.mem_zipIdx_iff_getElem?.mpr hc,
      List.mem_map.mpr ⟨turn, List.mem_range.mpr ht, rfl⟩⟩

section
variable {games : List ParsedGame}

theorem plan_formed {chunk : Chunk} (h : chunk ∈ plan games) :
    chunk.game < games.length ∧ 0 < chunk.len ∧ chunk.len ≤ CHUNK_TURNS := by
  have hf := chunks_formed _ _ chunk h
  rwa [List.length_map] at hf

theorem plan_turns (games : List ParsedGame) : (plan games).flatMap Chunk.turns
    = turnsOf (games.map fun game => game.moves.length + 1) := chunks_cover _ _

theorem plan_ne_nil (h : games ≠ []) : plan games ≠ [] := by
  intro hnil
  obtain ⟨game, rest, rfl⟩ := List.exists_cons_of_ne_nil h
  have hfirst : (0, 0) ∈ turnsOf ((game :: rest).map fun game => game.moves.length + 1) :=
    mem_turnsOf.mpr ⟨_, rfl, Nat.succ_pos _⟩
  rw [← plan_turns, hnil] at hfirst
  cases hfirst

/-! ## the steps of the feeder -/

/-- **One turn of the filling loop** submits a chunk of the plan, or ends the loop: with a corpus,
only because enough is queued. -/
theorem fill_cases (games : List ParsedGame) (depth : Nat) (s : Feeder) :
    (s.queued < depth ∧ ∃ chunk ∈ plan games,
      s.fill (plan games) games depth = .filling (s.submit chunk)) ∨
    ((games ≠ [] → depth ≤ s.queued) ∧ s.fill (plan games) games depth = .waiting s) := by
  unfold Feeder.fill
  by_cases hq : s.queued < depth
  · rw [if_pos hq]
    by_cases hg : games = []
    · subst hg
      exact Or.inr ⟨fun h => absurd rfl h, rfl⟩
    · -- the plan is not empty, and its chunks are of the corpus
      have hpos : 0 < (plan games).length := List.length_pos_iff.mpr (plan_ne_nil hg)
      have hlt := Nat.mod_lt s.taken hpos
      have hmem := List.getElem_mem hlt
      rw [List.getElem?_eq_getElem hlt]
      dsimp only
      rw [List.getElem?_eq_getElem (plan_formed hmem).1]
      exact Or.inl ⟨hq, _, hmem, rfl⟩
  · rw [if_neg hq]
    exact Or.inr ⟨fun _ => Nat.le_of_not_lt hq, rfl⟩

/-- **A step** is a turn of the filling loop, a query that completes, with a result or an error,
or the discovery that there is none. -/
theorem step_cases {depth : Nat} {state t : FeedState} {event : FeedEvent}
    (h : (feed games depth).step state event = some t) :
    (∃ s, state = .filling s ∧ event = .iterate ∧ t = s.fill (plan games) games depth) ∨
    (∃ s i chunk, state = .waiting s ∧ s.inFlight[i]? = some chunk ∧
      ((event = .completed i (.ok ()) ∧ t = .filling (s.complete i chunk)) ∨
        ∃ failure, event = .completed i (.error failure) ∧ t = .returned failure.toString)) ∨
    (∃ s, state = .waiting s ∧ event = .none ∧ s.inFlight = [] ∧
      t = .returned "no corpus games") := by
  change feedStep (plan games) games depth state event = some t at h
  cases state with
  | filling s =>
    cases event with
    | iterate => exact Or.inl ⟨s, rfl, rfl, (Option.some.inj h).symm⟩
    | completed i result => cases h
    | none => cases h
  | waiting s =>
    cases event with
    | iterate => cases h
    | completed i result =>
      obtain ⟨chunk, hi, rfl⟩ := Option.map_eq_some_iff.mp h
      cases result with
      | ok _ => exact Or.inr (Or.inl ⟨s, i, chunk, rfl, hi, Or.inl ⟨rfl, rfl⟩⟩)
      | error failure => exact Or.inr (Or.inl ⟨s, i, chunk, rfl, hi, Or.inr ⟨failure, rfl, rfl⟩⟩)
    | none =>
      obtain ⟨hnil, ht⟩ := Option.ite_none_right_eq_some.mp h
      exact Or.inr (Or.inr ⟨s, rfl, rfl, hnil, (Option.some.inj ht).symm⟩)
  | returned err => cases event <;> cases h

/-- what is queued is what is in flight: chunks of the plan, at most one more than the depth -/
structure Feeder.Counted (games : List ParsedGame) (depth : Nat) (s : Feeder) : Prop where
  queued : s.queued = (s.inFlight.map Chunk.len).sum
  planned : ∀ chunk ∈ s.inFlight, chunk ∈ plan games
  below : s.queued < depth + CHUNK_TURNS

theorem Feeder.Counted.submit {depth : Nat} {s : Feeder} (h : s.Counted games depth)
    (hq : s.queued < depth) {chunk : Chunk} (hc : chunk ∈ plan games) :
    (s.submit chunk).Counted games depth := by
  refine ⟨?_, ?_, ?_⟩
  · show s.queued + chunk.len = ((s.inFlight ++ [chunk]).map Chunk.len).sum
    simp [h.queued]
  · intro c hm
    rcases List.mem_append.mp hm with hm | hm
    · exact h.planned c hm
    · rw [List.mem_singleton.mp hm]
      exact hc
  · show s.queued + chunk.len < depth + CHUNK_TURNS
    have hlen := (plan_formed hc).2.2
    omega

/-- a query that completes takes its own turns off the count -/
theorem Feeder.Counted.complete {depth : Nat} {s : Feeder} (h : s.Counted games depth) {i : Nat}
    {chunk : Chunk} (hi : s.inFlight[i]? = some chunk) :
    (s.complete i chunk).Counted games depth := by
  have hperm : s.inFlight.Perm (chunk :: s.inFlight.eraseIdx i) := by
    obtain ⟨hlt, rfl⟩ := List.getElem?_eq_some_iff.mp hi
    exact (List.getElem_cons_eraseIdx_perm hlt).symm
  have hsum : s.queued = chunk.len + ((s.inFlight.eraseIdx i).map Chunk.len).sum := by
    rw [h.queued, (hperm.map Chunk.len).sum_nat, List.map_cons, List.sum_cons]
  refine ⟨?_, ?_, ?_⟩
  · show s.queued - chunk.len = ((s.inFlight.eraseIdx i).map Chunk.len).sum
    omega
  · intro c hm
    exact h.planned c (List.mem_of_mem_eraseIdx hm)
  · show s.queued - chunk.len < depth + CHUNK_TURNS
    have hbelow := h.below
    omega

def FeedState.Kept (games : List ParsedGame) (depth : Nat) : FeedState → Prop
  | .filling s => s.Counted games depth
  | .waiting s => s.Counted games depth ∧ (games ≠ [] → depth ≤ s.queued)
  | .returned _ => True

theorem kept_step {depth : Nat} {state t : FeedState} {event : FeedEvent}
    (hkept : state.Kept games depth) (h : (feed games depth).step state event = some t) :
    t.Kept games depth := by
  rcases step_cases h with ⟨s, rfl, -, rfl⟩ | ⟨s, i, chunk, rfl, hi, hr⟩ | ⟨s, -, -, -, rfl⟩
  · rcases fill_cases games depth s with ⟨hq, chunk, hc, he⟩ | ⟨hq, he⟩
    · rw [he]
      exact Feeder.Counted.submit hkept hq hc
    · rw [he]
      exact ⟨hkept, hq⟩
  · rcases hr with ⟨-, rfl⟩ | ⟨failure, -, rfl⟩
    · exact Feeder.Counted.complete hkept.1 hi
    · exact True.intro
  · exact True.intro

theorem kept_run {depth : Nat} {events : List FeedEvent} {s : FeedState}
    (h : (feed games depth).exec (.filling ⟨0, 0, []⟩) events = some s) : s.Kept games depth := by
  have hstart : Feeder.Counted games depth ⟨0, 0, []⟩ := by
    refine ⟨rfl, fun _ hm => (by cases hm), ?_⟩
    show 0 < depth + CHUNK_TURNS
    simp [CHUNK_TURNS]
  apply Sys.Reachable.rule (S := feed games depth) (I := FeedState.Kept games depth)
  · rintro _ rfl
    exact hstart
  · exact fun s event t hs ht => kept_step hs ht
  · exact ⟨_, events, rfl, h⟩

/-! ## the loop ends -/

/-- every turn of the loop but the last queues a turn at least -/
theorem filling_ends (games : List ParsedGame) (depth : Nat) (s : Feeder) :
    ∃ n t, n ≤ depth - s.queued + 1 ∧
      (feed games depth).exec (.filling s) (List.replicate n .iterate) = some (.waiting t) := by
  generalize hroom : depth - s.queued = room
  induction room using Nat.strongRecOn generalizing s with
  | ind room ih =>
    rcases fill_cases games depth s with ⟨hq, chunk, hc, he⟩ | ⟨_, he⟩
    · have hlen := (plan_formed hc).2.1
      have hqueued : (s.submit chunk).queued = s.queued + chunk.len := rfl
      have hless : depth - (s.submit chunk).queued < room := by omega
      obtain ⟨n, t, hn, hrun⟩ := ih _ hless (s.submit chunk) rfl
      refine ⟨n + 1, t, by omega, ?_⟩
      show (some (s.fill (plan games) games depth)).bind _ = _
      rw [he]
      exact hrun
    · refine ⟨1, s, by omega, ?_⟩
      show (some (s.fill (plan games) games depth)).bind _ = _
      rw [he]
      rfl

/-! ## the end of the feeder -/

theorem returned_final {depth : Nat} {err : String} {events : List FeedEvent} {t : FeedState}
    (h : (feed games depth).exec (.returned err) events = some t) : t = .returned err := by
  cases events with
  | nil => exact (Option.some.inj h).symm
  | cons event events =>
    obtain ⟨s, hs, _⟩ := Sys.exec_cons h
    rcases step_cases hs with ⟨_, he, -⟩ | ⟨_, _, _, he, -⟩ | ⟨_, he, -⟩
    · cases he
    · cases he
    · cases he

theorem no_failure {depth : Nat} {events : List FeedEvent} {s t : FeedState}
    (h : (feed games depth).exec s events = some t) (ht : ∀ err, t ≠ .returned err) :
    ∀ i failure, .completed i (.error failure) ∉ events := by
  intro i failure hm
  induction events generalizing s with
  | nil => cases hm
  | cons event events ih =>
    obtain ⟨u, hu, hrun⟩ := Sys.exec_cons h
    rcases List.mem_cons.mp hm with rfl | hm
    · rcases step_cases hu with ⟨_, -, he, -⟩ | ⟨_, _, _, -, -, hr⟩ | ⟨_, -, he, -⟩
      · cases he
      · rcases hr with ⟨he, -⟩ | ⟨_, -, rfl⟩
        · cases he
        · exact ht _ (returned_final hrun)
      · cases he
    · exact ih hrun hm

theorem idle_iff {depth : Nat} (hdepth : 1 ≤ depth) {s : Feeder} (hs : s.Counted games depth)
    (hq : games ≠ [] → depth ≤ s.queued) : s.inFlight = [] ↔ games = [] := by
  constructor
  · intro hnil
    by_contra hg
    have hqueued := hs.queued
    rw [hnil] at hqueued
    have hdeep := hq hg
    simp at hqueued
    omega
  · rintro rfl
    exact List.eq_nil_iff_forall_not_mem.mpr fun chunk hm => by cases hs.planned chunk hm

/-- a run that ended with its first failed query, or for want of a game -/
inductive ReturnedBy (games : List ParsedGame) : List FeedEvent → String → Prop where
  | failed (before : List FeedEvent) (i : Nat) (failure : AppError)
      (first : ∀ j earlier, .completed j (.error earlier) ∉ before) :
      ReturnedBy games (before ++ [.completed i (.error failure)]) failure.toString
  | noGames (before : List FeedEvent) (first : ∀ j earlier, .completed j (.error earlier) ∉ before)
      (empty : games = []) : ReturnedBy games (before ++ [.none]) "no corpus games"

theorem returned_by {depth : Nat} (hdepth : 1 ≤ depth) {events : List FeedEvent} {err : String}
    (h : (feed games depth).exec (.filling ⟨0, 0, []⟩) events = some (.returned err)) :
    ReturnedBy games events err := by
  rcases List.eq_nil_or_concat' events with rfl | ⟨before, event, rfl⟩
  · cases h
  · rw [Sys.exec_append] at h
    obtain ⟨state, hbefore, h⟩ := Option.bind_eq_some_iff.mp h
    obtain ⟨t, hstep, ht⟩ := Sys.exec_cons h
    cases ht
    rcases step_cases hstep with
      ⟨s, -, -, hfill⟩ | ⟨s, i, chunk, rfl, -, hr⟩ | ⟨s, rfl, rfl, hnil, he⟩
    · rcases fill_cases games depth s with ⟨_, chunk, _, he⟩ | ⟨_, he⟩
      · cases hfill.trans he
      · cases hfill.trans he
    · have hfirst := no_failure hbefore (by intro err he; cases he)
      rcases hr with ⟨-, he⟩ | ⟨failure, rfl, he⟩
      · cases he
      · cases he
        exact ReturnedBy.failed before i failure hfirst
    · have hfirst := no_failure hbefore (by intro err he; cases he)
      have hkept := kept_run hbefore
      cases he
      exact ReturnedBy.noGames before hfirst ((idle_iff hdepth hkept.1 hkept.2).mp hnil)

end

/-- **The feeder keeps the queue at depth**, in every run: the plan has every turn once, in order
and in chunks of 1 to `CHUNK_TURNS`; what is queued is what is in flight; every filling loop ends;
when the feeder waits, a corpus with a game has between `depth` and `depth + CHUNK_TURNS - 1` turns
queued; and it returns only from its first failed query, or from an empty corpus with nothing in
flight. -/
theorem feed_at_depth (games : List ParsedGame) {depth : Nat} (hdepth : 1 ≤ depth)
    {events : List FeedEvent} {state : FeedState}
    (h : (feed games depth).exec (.filling ⟨0, 0, []⟩) events = some state) :
    (∀ turnCounts,
      (∀ chunk ∈ chunks turnCounts CHUNK_TURNS, 0 < chunk.len ∧ chunk.len ≤ CHUNK_TURNS) ∧
      (chunks turnCounts CHUNK_TURNS).flatMap Chunk.turns = turnsOf turnCounts ∧
      (turnsOf turnCounts).Pairwise (fun a b => a.1 < b.1 ∨ (a.1 = b.1 ∧ a.2 < b.2)) ∧
      ∀ game turn, (game, turn) ∈ turnsOf turnCounts ↔
        ∃ count, turnCounts[game]? = some count ∧ turn < count) ∧
    (∀ s, state = .filling s → s.queued = (s.inFlight.map Chunk.len).sum ∧
      ∃ n t, n ≤ depth + 1 ∧ (feed games depth).exec state (List.replicate n .iterate)
        = some (.waiting t)) ∧
    (∀ s, state = .waiting s → s.queued = (s.inFlight.map Chunk.len).sum ∧
      (games ≠ [] → depth ≤ s.queued ∧ s.queued ≤ depth + CHUNK_TURNS - 1) ∧
      (((feed games depth).step state .none).isSome ↔ games = [] ∧ s.inFlight = [])) ∧
    ∀ err, state = .returned err → ReturnedBy games events err := by
  have hkept := kept_run h
  refine ⟨fun turnCounts => ⟨fun chunk hc => (chunks_formed turnCounts CHUNK_TURNS chunk hc).2,
    chunks_cover turnCounts CHUNK_TURNS, turnsOf_sorted turnCounts, fun _ _ => mem_turnsOf⟩,
    ?_, ?_, ?_⟩
  · rintro s rfl
    obtain ⟨n, t, hn, hrun⟩ := filling_ends games depth s
    exact ⟨hkept.queued, n, t, by omega, hrun⟩
  · rintro s rfl
    obtain ⟨hcounted, hdeep⟩ := hkept
    refine ⟨hcounted.queued, fun hg => ⟨hdeep hg, ?_⟩, ?_⟩
    · have hbelow := hcounted.below
      omega
    · have hidle := idle_iff hdepth hcounted hdeep
      show (if s.inFlight = [] then some (FeedState.returned "no corpus games") else none).isSome
        ↔ games = [] ∧ s.inFlight = []
      by_cases hn : s.inFlight = []
      · simp [hn, hidle.mp hn]
      · simp [hn]
  · rintro err rfl
    exact returned_by hdepth h

def oneMoveGame : ParsedGame := ⟨19, 6, .japanese, none, [], [(.black, "D4")]⟩

theorem plan_oneMove : plan [oneMoveGame] = [⟨0, 0, 2⟩] := by
  show chunksOf 16 0 2 0 ++ [] = _
  rw [chunksOf, if_pos (by decide)]
  show ⟨0, 0, 2⟩ :: (chunksOf 16 0 2 2 ++ []) = _
  rw [chunksOf, if_neg (by decide)]
  rfl

/-- the second of two queries completes first, and the one submitted for it fails -/
def outOfOrder : List FeedEvent :=
  [.iterate, .iterate, .iterate, .completed 1 (.ok ()), .iterate, .iterate,
    .completed 1 (.error (.inference "gone"))]

theorem feed_at_depth_failed : ReturnedBy [oneMoveGame] outOfOrder "inference error: gone" := by
  have hrun : (feed [oneMoveGame] 3).exec (.filling ⟨0, 0, []⟩) outOfOrder
      = some (.returned "inference error: gone") := by
    unfold feed
    rw [plan_oneMove]
    decide
  exact (feed_at_depth [oneMoveGame] (by decide) hrun).2.2.2 _ rfl

end Autotune
end KatagoWs
