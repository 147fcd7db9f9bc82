import KatagoWs.Engine.Search

/-!
# The fast search

The rungs of a ladder of server threads are walked from the backend's prior: up while each step
wins by more than `TIE`, and once the other way when a step loses.  While nothing is measured yet
the walk goes on to any rung not tried.  The first two trials always run; before each later one
`mayContinue` is asked.

* `Walk.Ok`     no rung is measured twice, and the best is within `TIE` of every measurement;
* `Walk.Steers` where the walk stands: what is ahead of it, and what is behind;
* `Walk.turn_spec`   one trial keeps both;
* `loop_ends`   as many trials as there are rungs are enough;
* `walk_settles`  the walk ends at a local optimum.
-/

namespace KatagoWs
namespace Autotune
namespace Fast
open NNRat

/-- A trial running below this fraction of the best so far is stopped half-way. -/
def PRUNE_RATIO : ℚ≥0 := percent 92

/-- A step must beat the best so far by more than this to move the search. -/
def TIE : ℚ≥0 := percent 3

/-- Nothing to measure: the split is pinned. -/
def Space.isFixed (space : Space) : Bool := decide (space.ladder.length ≤ 1)

/-- one trial of a walk: the rung, its candidate, the floor it ran with, and how it went -/
structure Trial where
  rung : Nat
  cand : Candidate
  floor : Option ℚ≥0
  outcome : Outcome
deriving DecidableEq

/-- The variables of the walk.  `here` is the rung it steps from; `log` has every trial so far, of
which the report keeps the candidates and outcomes. -/
structure Walk where
  measured : List Bool
  best : Option (Nat × ℚ≥0) := none
  here : Nat
  step : Int := 1
  flipped : Bool := false
  log : List Trial := []
  next : Option Nat
deriving DecidableEq

def Walk.start (space : Space) : Walk :=
  { measured := List.replicate space.ladder.length false
    here := space.prior
    next := some space.prior }

def checkedAddSigned (n : Nat) (d : Int) : Option Nat :=
  if 0 ≤ (n : Int) + d then some ((n : Int) + d).toNat else none

def Walk.fresh (w : Walk) (idx : Nat) : Bool := !(w.measured[idx]?.getD true)

def Walk.won (w : Walk) (outcome : Outcome) : Option ℚ≥0 :=
  match outcome, w.best with
  | .measured rate, none => some rate
  | .measured rate, some (_, top) => if top * (1 + TIE) < rate then some rate else none
  | _, _ => none

/-- what a trial leaves, before the next rung is chosen -/
def Walk.record (w : Walk) (t : Trial) : Walk :=
  { w with
    measured := w.measured.set t.rung true
    best := match w.won t.outcome with
      | some rate => some (t.rung, rate)
      | none => w.best
    here := if (w.won t.outcome).isSome then t.rung else w.here
    log := w.log ++ [t] }

def Walk.flip (w : Walk) : Walk := { w with flipped := true, step := -w.step }

def Walk.ahead (w : Walk) : Option Nat :=
  (checkedAddSigned w.here w.step).filter fun idx => w.fresh idx

def Walk.choose (space : Space) (w : Walk) : Walk :=
  let w := { w with next := w.ahead.filter (· < space.ladder.length) }
  -- ran off the end going up: try below the best instead
  let w := if w.next.isNone && !w.flipped && w.best.isSome then { w.flip with next := w.flip.ahead }
    else w
  -- the prior failed outright: fall back down the ladder
  if w.best.isNone && w.next.isNone then { w with next := w.measured.findIdx? (!·) } else w

/-- One trial, and where to go from it. -/
def Walk.turn (space : Space) (measure : Measure) (w : Walk) (idx : Nat) (cand : Candidate) :
    Walk :=
  let pruneBelow := w.best.map fun b => b.2 * PRUNE_RATIO
  let outcome := measure w.log.length cand pruneBelow
  let won := (w.won outcome).isSome
  let w := w.record ⟨idx, cand, pruneBelow, outcome⟩
  if won then w.choose space
  -- this direction lost: look once on the other side of the best
  else if w.best.isSome && !w.flipped then w.flip.choose space
  else if w.best.isSome then { w with next := none }
  else w.choose space

/-- The `while` loop; `mayContinue n` is the answer after `n` trials. -/
def loop (space : Space) (measure : Measure) (mayContinue : Nat → Bool) : Nat → Walk → Option Walk
  | 0, _ => none
  | fuel + 1, w =>
    match w.next with
    | none => some w
    | some idx =>
      if w.log.length ≥ 2 && !mayContinue w.log.length then some w
      else match space.candidate idx with
        | none => some w
        | some cand => loop space measure mayContinue fuel (w.turn space measure idx cand)

def Walk.report (space : Space) (w : Walk) : Report :=
  { best := w.best.bind fun b => (space.candidate b.1).map fun cand => (cand, b.2)
    history := w.log.map fun t => (t.cand, t.outcome) }

def run (space : Space) (measure : Measure) (mayContinue : Nat → Bool) (fuel : Nat) :
    Option Report :=
  match space.candidate space.prior with
  | none => some {}
  | some start =>
    -- nothing to compare
    if space.isFixed then some { best := some (start, 0) }
    else (loop space measure mayContinue fuel (Walk.start space)).map (Walk.report space)

/-! ## what a trial leaves -/

theorem Walk.won_some {w : Walk} {outcome : Outcome} {rate : ℚ≥0} (h : w.won outcome = some rate) :
    outcome = .measured rate ∧ ∀ b top, w.best = some (b, top) → top * (1 + TIE) < rate := by
  unfold Walk.won at h
  split at h
  · next hb =>
    cases h
    exact ⟨rfl, fun b top h => by rw [hb] at h; cases h⟩
  · next hb =>
    split_ifs at h with hlt
    cases h
    refine ⟨rfl, fun b top h => ?_⟩
    rw [hb] at h
    cases h
    exact hlt
  · cases h

theorem Walk.won_none {w : Walk} {rate : ℚ≥0} (h : w.won (.measured rate) = none) :
    ∃ b top, w.best = some (b, top) ∧ rate ≤ top * (1 + TIE) := by
  unfold Walk.won at h
  cases hb : w.best with
  | none =>
    rw [hb] at h
    cases h
  | some x =>
    rw [hb] at h
    refine ⟨x.1, x.2, rfl, le_of_not_gt fun hlt => ?_⟩
    change (if x.2 * (1 + TIE) < rate then some rate else none) = none at h
    rw [if_pos hlt] at h
    cases h

theorem Walk.record_fresh (w : Walk) (t : Trial) (i : Nat) :
    (w.record t).fresh i = true ↔ w.fresh i = true ∧ i ≠ t.rung := by
  show (!((w.measured.set t.rung true)[i]?.getD true)) = true ↔ _
  rw [Walk.fresh, List.getElem?_set]
  by_cases h : t.rung = i
  · rw [if_pos h]
    split_ifs <;> simp [h]
  · rw [if_neg h]
    simp [Ne.symm h]

theorem Space.candidate_isSome {space : Space} {i : Nat} :
    (∃ cand, space.candidate i = some cand) ↔ i < space.ladder.length := by
  rw [← Option.isSome_iff_exists, Space.candidate, Option.isSome_map]
  simp

abbrev Walk.rungs (w : Walk) : List Nat := w.log.map Trial.rung

/-- No rung is measured twice, every trial is one of `measure`'s answers, and the best is within
the tie of every measurement. -/
structure Walk.Ok (space : Space) (measure : Measure) (w : Walk) : Prop where
  fresh_iff : ∀ i, w.fresh i = true ↔ i < space.ladder.length ∧ i ∉ w.rungs
  nodup : w.rungs.Nodup
  asked : ∀ n t, w.log[n]? = some t →
    space.candidate t.rung = some t.cand ∧ t.outcome = measure n t.cand t.floor
  lead : ∀ b top, w.best = some (b, top) → ∃ t ∈ w.log, t.rung = b ∧ t.outcome = .measured top
  led : ∀ t ∈ w.log, ∀ rate, t.outcome = .measured rate →
    ∃ b top, w.best = some (b, top) ∧ rate ≤ top * (1 + TIE)
  floors : ∀ t ∈ w.log, ∀ floor, t.floor = some floor →
    ∃ b top, w.best = some (b, top) ∧ floor ≤ top * PRUNE_RATIO

section
variable {space : Space} {measure : Measure} {w : Walk}

theorem Walk.won_above {outcome : Outcome} {rate : ℚ≥0} (hw : w.won outcome = some rate) {b : Nat}
    {top : ℚ≥0} (hb : w.best = some (b, top)) : top ≤ rate := by
  have hone : (1 : ℚ≥0) ≤ 1 + TIE := by decide +kernel
  calc top ≤ top * (1 + TIE) := le_mul_of_one_le_right zero_le hone
    _ ≤ rate := le_of_lt ((Walk.won_some hw).2 b top hb)

/-- what was below a fraction of the best before a trial is so after it -/
theorem Walk.record_below {x c : ℚ≥0} (t : Trial)
    (h : ∃ b top, w.best = some (b, top) ∧ x ≤ top * c) :
    ∃ b top, (w.record t).best = some (b, top) ∧ x ≤ top * c := by
  obtain ⟨b, top, hb, hx⟩ := h
  cases hw : w.won t.outcome with
  | none =>
    refine ⟨b, top, ?_, hx⟩
    rw [Walk.record, hw]
    exact hb
  | some rate =>
    refine ⟨t.rung, rate, ?_, le_trans hx (mul_le_mul_left (Walk.won_above hw hb) c)⟩
    rw [Walk.record, hw]

theorem Walk.record_ok (h : w.Ok space measure) {t : Trial} (hf : w.fresh t.rung = true)
    (hc : space.candidate t.rung = some t.cand)
    (ho : t.outcome = measure w.log.length t.cand t.floor)
    (hfl : t.floor = w.best.map fun b => b.2 * PRUNE_RATIO) : (w.record t).Ok space measure := by
  have hrungs : (w.record t).rungs = w.rungs ++ [t.rung] := List.map_append
  have hnew : t.rung ∉ w.rungs := ((h.fresh_iff t.rung).mp hf).2
  refine ⟨fun i => ?_, ?_, ?_, ?_, ?_, ?_⟩
  · rw [Walk.record_fresh, h.fresh_iff, hrungs, List.mem_append, List.mem_singleton, not_or,
      and_assoc]
  · rw [hrungs]
    exact List.Nodup.append h.nodup (List.nodup_singleton _) (List.disjoint_singleton.mpr hnew)
  · intro n u hu
    change (w.log ++ [t])[n]? = some u at hu
    rw [List.getElem?_append] at hu
    split_ifs at hu with hn
    · exact h.asked n u hu
    · obtain ⟨hlt, he⟩ := List.getElem?_eq_some_iff.mp hu
      have hn' : n = w.log.length := by
        rw [List.length_singleton] at hlt
        omega
      subst hn'
      obtain rfl : t = u := by simpa using he
      exact ⟨hc, ho⟩
  · intro b top hb
    cases hw : w.won t.outcome with
    | none =>
      rw [Walk.record, hw] at hb
      obtain ⟨u, hu, hur⟩ := h.lead b top hb
      exact ⟨u, List.mem_append_left _ hu, hur⟩
    | some rate =>
      rw [Walk.record, hw] at hb
      cases hb
      exact ⟨t, List.mem_append_right _ List.mem_cons_self, rfl, (Walk.won_some hw).1⟩
  · intro u hu rate hr
    rcases List.mem_append.mp hu with hu | hu
    · exact Walk.record_below t (h.led u hu rate hr)
    · obtain rfl := List.mem_singleton.mp hu
      cases hw : w.won u.outcome with
      | none => exact Walk.record_below u (Walk.won_none (hr ▸ hw))
      | some r =>
        have hone : (1 : ℚ≥0) ≤ 1 + TIE := by decide +kernel
        have hrate : r = rate := by
          have he := (Walk.won_some hw).1
          rw [hr] at he
          exact (Outcome.measured.inj he).symm
        refine ⟨u.rung, r, ?_, ?_⟩
        · rw [Walk.record, hw]
        · rw [hrate]
          exact le_mul_of_one_le_right zero_le hone
  · intro u hu floor hr
    rcases List.mem_append.mp hu with hu | hu
    · exact Walk.record_below t (h.floors u hu floor hr)
    · obtain rfl := List.mem_singleton.mp hu
      rw [hfl] at hr
      obtain ⟨b, hb, rfl⟩ := Option.map_eq_some_iff.mp hr
      exact Walk.record_below u ⟨b.1, b.2, hb, le_rfl⟩

end

/-! ## where the walk goes -/

theorem checkedAddSigned_eq_some {n idx : Nat} {d : Int} :
    checkedAddSigned n d = some idx ↔ (idx : Int) = n + d := by
  unfold checkedAddSigned
  split_ifs with h
  · rw [Option.some.injEq]
    omega
  · constructor
    · intro h'
      cases h'
    · intro h'
      omega

theorem Walk.ahead_eq_some {w : Walk} {idx : Nat} :
    w.ahead = some idx ↔ (idx : Int) = w.here + w.step ∧ w.fresh idx = true := by
  rw [Walk.ahead, Option.filter_eq_some_iff, checkedAddSigned_eq_some]

theorem Walk.ahead_eq_none {w : Walk} (h : w.ahead = none) {i : Nat}
    (hi : (i : Int) = w.here + w.step) : w.fresh i = false := by
  cases hf : w.fresh i with
  | false => rfl
  | true =>
    rw [Walk.ahead_eq_some.mpr ⟨hi, hf⟩] at h
    cases h

/-- Where a walk stands.  Until something is measured it has not turned, and goes on while a rung
is left; then it steps from the best, to a rung on the side it walks: going down, the rung above
the best is done, and at the end both are. -/
structure Walk.Steers (w : Walk) : Prop where
  direction : w.step = if w.flipped then -1 else 1
  unmeasured : w.best = none → w.flipped = false ∧ (w.next = none → ∀ i, w.fresh i = false)
  here : ∀ b top, w.best = some (b, top) → w.here = b
  next_fresh : ∀ idx, w.next = some idx → w.fresh idx = true
  up : ∀ b top idx, w.best = some (b, top) → w.next = some idx → w.flipped = false → idx = b + 1
  down : ∀ b top idx, w.best = some (b, top) → w.next = some idx → w.flipped = true →
    idx + 1 = b ∧ w.fresh (b + 1) = false
  ends : ∀ b top, w.best = some (b, top) → w.next = none →
    ∀ i, (i = b + 1 ∨ i + 1 = b) → w.fresh i = false

section
variable {space : Space} {measure : Measure} {w : Walk}

theorem Walk.choose_cases (h : w.Ok space measure) :
    (∃ idx, w.ahead = some idx ∧ w.choose space = { w with next := some idx }) ∨
    (w.ahead = none ∧ w.best = none ∧
      w.choose space = { w with next := w.measured.findIdx? (!·) }) ∨
    (w.ahead = none ∧ w.best.isSome = true ∧ w.flipped = true ∧
      w.choose space = { w with next := none }) ∨
    (w.ahead = none ∧ w.best.isSome = true ∧ w.flipped = false ∧
      w.choose space = { w.flip with next := w.flip.ahead }) := by
  have hfilter : w.ahead.filter (· < space.ladder.length) = w.ahead := by
    cases ha : w.ahead with
    | none => rfl
    | some idx =>
      have hlt : idx < space.ladder.length := ((h.fresh_iff idx).mp (Walk.ahead_eq_some.mp ha).2).1
      simp [hlt]
  unfold Walk.choose
  rw [hfilter]
  dsimp only
  cases ha : w.ahead with
  | some idx =>
    refine .inl ⟨idx, rfl, ?_⟩
    simp
  | none =>
    refine .inr ?_
    cases hb : w.best with
    | none =>
      refine .inl ⟨rfl, rfl, ?_⟩
      simp
    | some b =>
      refine .inr ?_
      cases hfl : w.flipped with
      | true =>
        refine .inl ⟨rfl, rfl, rfl, ?_⟩
        simp
      | false =>
        refine .inr ⟨rfl, rfl, rfl, ?_⟩
        simp [Walk.flip]
        exact ⟨hb.symm, rfl⟩

theorem Walk.Ok.steered (h : w.Ok space measure) (here : Nat) (step : Int) (flipped : Bool)
    (next : Option Nat) : ({ w with here, step, flipped, next } : Walk).Ok space measure :=
  ⟨h.fresh_iff, h.nodup, h.asked, h.lead, h.led, h.floors⟩

theorem Walk.choose_ok (h : w.Ok space measure) : (w.choose space).Ok space measure := by
  rcases Walk.choose_cases h with ⟨idx, _, he⟩ | ⟨_, _, he⟩ | ⟨_, _, _, he⟩ | ⟨_, _, _, he⟩
  all_goals
    rw [he]
    exact h.steered _ _ _ _

theorem Walk.choose_log (h : w.Ok space measure) : (w.choose space).log = w.log := by
  rcases Walk.choose_cases h with ⟨idx, _, he⟩ | ⟨_, _, he⟩ | ⟨_, _, _, he⟩ | ⟨_, _, _, he⟩
  · rw [he]
  · rw [he]
  · rw [he]
  · rw [he]
    rfl

/-- before the choice: which way the walk faces, and that it has turned only with the rung above
the best done -/
structure Walk.Faces (w : Walk) : Prop where
  direction : w.step = if w.flipped then -1 else 1
  unmeasured : w.best = none → w.flipped = false
  here : ∀ b top, w.best = some (b, top) → w.here = b
  above : ∀ b top, w.best = some (b, top) → w.flipped = true → w.fresh (b + 1) = false

theorem Walk.Faces.ahead (hw : w.Faces) {idx : Nat} (ha : w.ahead = some idx) :
    ({ w with next := some idx } : Walk).Steers := by
  have hdir := hw.direction
  obtain ⟨hidx, hfresh⟩ := Walk.ahead_eq_some.mp ha
  refine ⟨hw.direction, fun hb => ⟨hw.unmeasured hb, fun hn => by cases hn⟩, hw.here, ?_, ?_, ?_,
    fun b top _ hn => by cases hn⟩
  · intro i hi
    cases hi
    exact hfresh
  · intro b top i hb hi hfl
    cases hi
    have hhere := hw.here b top hb
    rw [hfl, if_neg Bool.false_ne_true] at hdir
    omega
  · intro b top i hb hi hfl
    cases hi
    have hhere := hw.here b top hb
    change w.flipped = true at hfl
    rw [hfl, if_pos rfl] at hdir
    exact ⟨by omega, hw.above b top hb hfl⟩

theorem Walk.Faces.fallen (hw : w.Faces) (hb : w.best = none) :
    ({ w with next := w.measured.findIdx? (!·) } : Walk).Steers := by
  have hnone : ∀ b top, w.best = some (b, top) → False := by
    intro b top h'
    rw [hb] at h'
    cases h'
  refine ⟨hw.direction, fun _ => ⟨hw.unmeasured hb, fun hn i => ?_⟩,
    fun b top h' => (hnone b top h').elim, fun idx hi => ?_,
    fun b top _ h' => (hnone b top h').elim, fun b top _ h' => (hnone b top h').elim,
    fun b top h' => (hnone b top h').elim⟩
  · show (!(w.measured[i]?.getD true)) = false
    cases hm : w.measured[i]? with
    | none => rfl
    | some m =>
      have hall := List.findIdx?_eq_none_iff.mp hn m (List.mem_of_getElem? hm)
      simpa using hall
  · show (!(w.measured[idx]?.getD true)) = true
    obtain ⟨hlt, hm, _⟩ := List.findIdx?_eq_some_iff_getElem.mp hi
    rw [List.getElem?_eq_getElem hlt]
    exact hm

theorem Walk.Faces.ended (hw : w.Faces) (hb : w.best.isSome = true)
    (hdone : ∀ b top, w.best = some (b, top) → ∀ i, (i = b + 1 ∨ i + 1 = b) → w.fresh i = false) :
    ({ w with next := none } : Walk).Steers := by
  refine ⟨hw.direction, fun hn => ?_, hw.here, fun i hi => (by cases hi),
    fun b top i _ hi => (by cases hi), fun b top i _ hi => (by cases hi),
    fun b top hbest _ => hdone b top hbest⟩
  change w.best = none at hn
  rw [hn] at hb
  cases hb

/-- the rung above the best is done: try the one below -/
theorem Walk.Faces.turned (hw : w.Faces) (hb : w.best.isSome = true) (hf : w.flipped = false)
    (habove : ∀ b top, w.best = some (b, top) → w.fresh (b + 1) = false) : w.flip.Faces := by
  have hdir := hw.direction
  rw [hf, if_neg Bool.false_ne_true] at hdir
  have hstep : w.flip.step = -1 := by
    show -w.step = -1
    rw [hdir]
  refine ⟨hstep, fun hn => ?_, hw.here, fun b top hbest _ => habove b top hbest⟩
  change w.best = none at hn
  rw [hn] at hb
  cases hb

/-- facing down with nothing ahead, both sides are done -/
theorem Walk.Faces.below (hw : w.Faces) (hf : w.flipped = true) (ha : w.ahead = none) (b : Nat)
    (top : ℚ≥0) (hbest : w.best = some (b, top)) (i : Nat) (hi : i = b + 1 ∨ i + 1 = b) :
    w.fresh i = false := by
  have hdir := hw.direction
  rw [hf, if_pos rfl] at hdir
  have hhere := hw.here b top hbest
  rcases hi with rfl | hi
  · exact hw.above b top hbest hf
  · exact Walk.ahead_eq_none ha (by omega)

theorem Walk.choose_steers (h : w.Ok space measure) (hw : w.Faces) :
    (w.choose space).Steers := by
  rcases Walk.choose_cases h with ⟨idx, ha, he⟩ | ⟨ha, hb, he⟩ | ⟨ha, hb, hf, he⟩ |
    ⟨ha, hb, hf, he⟩
  · rw [he]
    exact hw.ahead ha
  · rw [he]
    exact hw.fallen hb
  · rw [he]
    exact hw.ended hb (hw.below hf ha)
  · rw [he]
    have habove : ∀ b top, w.best = some (b, top) → w.fresh (b + 1) = false := by
      intro b top hbest
      have hdir := hw.direction
      rw [hf, if_neg Bool.false_ne_true] at hdir
      have hhere := hw.here b top hbest
      exact Walk.ahead_eq_none ha (by omega)
    have hdown : w.flip.Faces := hw.turned hb hf habove
    cases hn : w.flip.ahead with
    | some idx => exact hdown.ahead hn
    | none => exact hdown.ended hb (hdown.below rfl hn)

theorem Walk.turn_cases (w : Walk) (space : Space) (measure : Measure) (idx : Nat)
    (cand : Candidate) :
    ∃ t : Trial, t.rung = idx ∧ t.cand = cand ∧ (t.floor = w.best.map fun b => b.2 * PRUNE_RATIO) ∧
      t.outcome = measure w.log.length t.cand t.floor ∧
      (((∃ rate, w.won t.outcome = some rate) ∧
          w.turn space measure idx cand = (w.record t).choose space) ∨
        (w.won t.outcome = none ∧ w.best = none ∧
          w.turn space measure idx cand = (w.record t).choose space) ∨
        (w.won t.outcome = none ∧ w.best.isSome = true ∧ w.flipped = false ∧
          w.turn space measure idx cand = (w.record t).flip.choose space) ∨
        (w.won t.outcome = none ∧ w.best.isSome = true ∧ w.flipped = true ∧
          w.turn space measure idx cand = { w.record t with next := none })) := by
  refine ⟨⟨idx, cand, w.best.map fun b => b.2 * PRUNE_RATIO,
    measure w.log.length cand (w.best.map fun b => b.2 * PRUNE_RATIO)⟩, rfl, rfl, rfl, rfl, ?_⟩
  unfold Walk.turn
  dsimp only
  set t : Trial := ⟨idx, cand, w.best.map fun b => b.2 * PRUNE_RATIO,
    measure w.log.length cand (w.best.map fun b => b.2 * PRUNE_RATIO)⟩ with ht
  have hout : measure w.log.length cand (w.best.map fun b => b.2 * PRUNE_RATIO) = t.outcome := rfl
  rw [hout]
  cases hw : w.won t.outcome with
  | some rate =>
    refine .inl ⟨⟨rate, rfl⟩, ?_⟩
    rw [if_pos Option.isSome_some]
  | none =>
    refine .inr ?_
    have hbest : (w.record t).best = w.best := by
      rw [Walk.record, hw]
    have hflip : (w.record t).flipped = w.flipped := rfl
    rw [hbest, hflip, if_neg (by simp)]
    cases hb : w.best with
    | none =>
      refine .inl ⟨rfl, rfl, ?_⟩
      simp
    | some b =>
      refine .inr ?_
      cases hf : w.flipped with
      | false =>
        refine .inl ⟨rfl, rfl, rfl, ?_⟩
        simp
      | true =>
        refine .inr ⟨rfl, rfl, rfl, ?_⟩
        simp

theorem Walk.record_lost {t : Trial} (hw : w.won t.outcome = none) :
    (w.record t).best = w.best ∧ (w.record t).here = w.here := by
  rw [Walk.record, hw]
  exact ⟨rfl, rfl⟩

theorem Walk.record_won {t : Trial} {rate : ℚ≥0} (hw : w.won t.outcome = some rate) :
    (w.record t).best = some (t.rung, rate) ∧ (w.record t).here = t.rung := by
  rw [Walk.record, hw]
  exact ⟨rfl, rfl⟩

theorem Walk.record_done {t : Trial} {i : Nat} (h : w.fresh i = false ∨ i = t.rung) :
    (w.record t).fresh i = false := by
  cases hf : (w.record t).fresh i with
  | false => rfl
  | true =>
    obtain ⟨h1, h2⟩ := (Walk.record_fresh w t i).mp hf
    rcases h with h | h
    · rw [h1] at h
      cases h
    · exact absurd h h2

theorem Walk.Ok.best_done (h : w.Ok space measure) {b : Nat} {top : ℚ≥0}
    (hb : w.best = some (b, top)) : w.fresh b = false := by
  obtain ⟨t, ht, hr, _⟩ := h.lead b top hb
  cases hf : w.fresh b with
  | false => rfl
  | true =>
    have hn := ((h.fresh_iff b).mp hf).2
    exact absurd (List.mem_map.mpr ⟨t, ht, hr⟩) hn

/-- the trial of the next rung leaves the walk facing the same way -/
theorem Walk.Steers.record (h : w.Ok space measure) (hs : w.Steers) {t : Trial}
    (hn : w.next = some t.rung) : (w.record t).Faces := by
  have hflat : w.best = none → w.flipped = true → False := by
    intro hb hf
    rw [(hs.unmeasured hb).1] at hf
    cases hf
  cases hw : w.won t.outcome with
  | some rate =>
    obtain ⟨hbest, hhere⟩ := Walk.record_won hw
    refine ⟨hs.direction, fun hn' => ?_, fun b top hb => ?_, fun b top hb hf => ?_⟩
    · rw [hbest] at hn'
      cases hn'
    · rw [hbest] at hb
      cases hb
      exact hhere
    · rw [hbest] at hb
      cases hb
      -- going down, the rung above the new best is the old one
      cases hold : w.best with
      | none => exact (hflat hold hf).elim
      | some x =>
        obtain ⟨hdown, _⟩ := hs.down x.1 x.2 t.rung hold hn hf
        rw [hdown]
        exact Walk.record_done (.inl (h.best_done hold))
  | none =>
    obtain ⟨hbest, hhere⟩ := Walk.record_lost hw
    refine ⟨hs.direction, fun hn' => (hs.unmeasured (hbest ▸ hn')).1, fun b top hb => ?_,
      fun b top hb hf => ?_⟩
    · exact hhere.trans (hs.here b top (hbest ▸ hb))
    · exact Walk.record_done (.inl (hs.down b top t.rung (hbest ▸ hb) hn hf).2)

/-- **One trial** keeps the walk's invariants and adds itself to the log. -/
theorem Walk.turn_spec (h : w.Ok space measure) (hs : w.Steers) {idx : Nat} {cand : Candidate}
    (hn : w.next = some idx) (hc : space.candidate idx = some cand) :
    (w.turn space measure idx cand).Ok space measure ∧ (w.turn space measure idx cand).Steers ∧
      (w.turn space measure idx cand).log.length = w.log.length + 1 := by
  obtain ⟨t, rfl, rfl, hfl, ho, hcases⟩ := w.turn_cases space measure idx cand
  have hr : (w.record t).Ok space measure := Walk.record_ok h (hs.next_fresh _ hn) hc ho hfl
  have hw' : (w.record t).Faces := hs.record h hn
  have hlen : (w.record t).log.length = w.log.length + 1 := List.length_append
  rcases hcases with ⟨_, he⟩ | ⟨_, _, he⟩ | ⟨hw, hb, hf, he⟩ | ⟨hw, hb, hf, he⟩
  · rw [he]
    exact ⟨Walk.choose_ok hr, Walk.choose_steers hr hw', (Walk.choose_log hr).symm ▸ hlen⟩
  · rw [he]
    exact ⟨Walk.choose_ok hr, Walk.choose_steers hr hw', (Walk.choose_log hr).symm ▸ hlen⟩
  · rw [he]
    have hbest : (w.record t).best = w.best := (Walk.record_lost hw).1
    have habove : ∀ b top, (w.record t).best = some (b, top) →
        (w.record t).fresh (b + 1) = false := by
      intro b top hb'
      have hup := hs.up b top t.rung (hbest ▸ hb') hn hf
      exact Walk.record_done (.inr hup.symm)
    have hr' : (w.record t).flip.Ok space measure := hr.steered _ _ _ _
    have hdown : (w.record t).flip.Faces := hw'.turned (hbest ▸ hb) hf habove
    exact ⟨Walk.choose_ok hr', Walk.choose_steers hr' hdown, (Walk.choose_log hr').symm ▸ hlen⟩
  · rw [he]
    have hbest : (w.record t).best = w.best := (Walk.record_lost hw).1
    refine ⟨hr.steered _ _ _ _, hw'.ended (hbest ▸ hb) fun b top hb' i hi => ?_, hlen⟩
    obtain ⟨hdown, habove⟩ := hs.down b top t.rung (hbest ▸ hb') hn hf
    refine Walk.record_done ?_
    rcases hi with rfl | hi
    · exact .inl habove
    · exact .inr (by omega)

end

/-! ## the whole walk -/

section
variable {space : Space} {measure : Measure} {w : Walk}

theorem Walk.start_fresh {i : Nat} :
    (Walk.start space).fresh i = true ↔ i < space.ladder.length := by
  show (!((List.replicate space.ladder.length false)[i]?.getD true)) = true ↔ _
  rw [List.getElem?_replicate]
  split_ifs with h
  · simp [h]
  · simp [h]

theorem Walk.start_ok : (Walk.start space).Ok space measure := by
  refine ⟨fun i => ?_, List.nodup_nil, fun n t h => (by cases h), fun b top h => (by cases h),
    fun t h => (by cases h), fun t h => (by cases h)⟩
  rw [Walk.start_fresh]
  exact (and_iff_left List.not_mem_nil).symm

theorem Walk.start_steers (h : space.prior < space.ladder.length) : (Walk.start space).Steers := by
  refine ⟨rfl, fun _ => ⟨rfl, fun hn => by cases hn⟩, fun b top hb => (by cases hb),
    fun idx hi => ?_, fun b top idx hb => (by cases hb), fun b top idx hb => (by cases hb),
    fun b top hb => by cases hb⟩
  cases hi
  exact Walk.start_fresh.mpr h

theorem Walk.Ok.log_le (h : w.Ok space measure) : w.log.length ≤ space.ladder.length := by
  have hsub : w.rungs ⊆ List.range space.ladder.length := by
    intro i hi
    obtain ⟨t, ht, rfl⟩ := List.mem_map.mp hi
    obtain ⟨n, hn⟩ := List.mem_iff_getElem?.mp ht
    exact List.mem_range.mpr (Space.candidate_isSome.mp ⟨t.cand, (h.asked n t hn).1⟩)
  have hle := (List.subperm_of_subset h.nodup hsub).length_le
  rwa [List.length_map, List.length_range] at hle

/-- **The loop ends**: a trial for each rung is enough. -/
theorem loop_ends (mayContinue : Nat → Bool) {fuel : Nat} (h : w.Ok space measure)
    (hs : w.Steers) (hfuel : space.ladder.length < fuel + w.log.length) :
    ∃ w', loop space measure mayContinue fuel w = some w' ∧ w'.Ok space measure ∧ w'.Steers ∧
      (w'.next = none ∨ 2 ≤ w'.log.length ∧ mayContinue w'.log.length = false) := by
  induction fuel generalizing w with
  | zero =>
    have hle := h.log_le
    omega
  | succ fuel ih =>
    rw [loop]
    cases hn : w.next with
    | none => exact ⟨w, rfl, h, hs, .inl hn⟩
    | some idx =>
      dsimp only
      by_cases hstop : (decide (w.log.length ≥ 2) && !mayContinue w.log.length) = true
      · rw [if_pos hstop]
        obtain ⟨h1, h2⟩ := Bool.and_eq_true_iff.mp hstop
        exact ⟨w, rfl, h, hs, .inr ⟨of_decide_eq_true h1, (Bool.not_eq_true' _).mp h2⟩⟩
      · rw [if_neg hstop]
        have hlt := ((h.fresh_iff idx).mp (hs.next_fresh idx hn)).1
        obtain ⟨cand, hc⟩ := Space.candidate_isSome.mpr hlt
        obtain ⟨h', hs', hlen⟩ := Walk.turn_spec h hs hn hc
        rw [hc]
        exact ih h' hs' (by omega)

theorem Walk.Ok.tried (h : w.Ok space measure) {i : Nat} (hi : i < space.ladder.length)
    (hf : w.fresh i = false) : i ∈ w.rungs := by
  by_contra hn
  rw [(h.fresh_iff i).mpr ⟨hi, hn⟩] at hf
  cases hf

theorem Walk.two_le {i j : Nat} (hi : i ∈ w.rungs) (hj : j ∈ w.rungs) (hne : i ≠ j) :
    2 ≤ w.log.length := by
  have hnd : [i, j].Nodup := by
    simp [hne]
  have hsub : [i, j] ⊆ w.rungs := by
    simp [hi, hj]
  have hle := (List.subperm_of_subset hnd hsub).length_le
  rwa [List.length_map] at hle

/-- a walk with nothing left to try has done both neighbours of the best, or every rung -/
theorem Walk.two_trials (h : w.Ok space measure) (hs : w.Steers)
    (hlen : 2 ≤ space.ladder.length) (hn : w.next = none) : 2 ≤ w.log.length := by
  cases hb : w.best with
  | none =>
    have hall := (hs.unmeasured hb).2 hn
    exact Walk.two_le (h.tried (i := 0) (by omega) (hall 0)) (h.tried (i := 1) (by omega) (hall 1))
      (by decide)
  | some x =>
    have hends := hs.ends x.1 x.2 hb hn
    obtain ⟨t, ht, hr, _⟩ := h.lead x.1 x.2 hb
    have hx : x.1 ∈ w.rungs := List.mem_map.mpr ⟨t, ht, hr⟩
    by_cases hup : x.1 + 1 < space.ladder.length
    · exact Walk.two_le hx (h.tried hup (hends _ (.inl rfl))) (by omega)
    · have hlt : x.1 < space.ladder.length := by
        obtain ⟨n, hn⟩ := List.mem_iff_getElem?.mp ht
        exact hr ▸ Space.candidate_isSome.mp ⟨t.cand, (h.asked n t hn).1⟩
      have hdown : x.1 - 1 ∈ w.rungs := h.tried (by omega) (hends _ (.inr (by omega)))
      exact Walk.two_le hx hdown (by omega)

/-- **A local optimum**: a neighbour of the best that was tried does not beat it by more than the
tie, when each rung has one rate. -/
theorem Walk.neighbour_le (h : w.Ok space measure) {rate : Nat → ℚ≥0}
    (hrate : ∀ t ∈ w.log, t.outcome = .ofRate t.floor (rate t.rung)) {b i : Nat} {top : ℚ≥0}
    (hb : w.best = some (b, top)) (hi : i ∈ w.rungs) : rate i ≤ top * (1 + TIE) := by
  obtain ⟨t, ht, rfl⟩ := List.mem_map.mp hi
  have ho := hrate t ht
  have hbest : ∀ {c x : ℚ≥0}, (∃ b top, w.best = some (b, top) ∧ x ≤ top * c) → x ≤ top * c := by
    rintro c x ⟨b', top', hb', hx⟩
    rw [hb] at hb'
    cases hb'
    exact hx
  have hmeasured : t.outcome = .measured (rate t.rung) → rate t.rung ≤ top * (1 + TIE) :=
    fun hm => hbest (h.led t ht _ hm)
  cases hfloor : t.floor with
  | none =>
    rw [hfloor] at ho
    exact hmeasured ho
  | some floor =>
    rw [hfloor, Outcome.ofRate] at ho
    by_cases hlt : rate t.rung < floor
    · have hratio : PRUNE_RATIO ≤ 1 + TIE := by decide +kernel
      calc rate t.rung ≤ floor := le_of_lt hlt
        _ ≤ top * PRUNE_RATIO := hbest (h.floors t ht floor hfloor)
        _ ≤ top * (1 + TIE) := mul_le_mul_right hratio top
    · rw [if_neg hlt] at ho
      exact hmeasured ho

theorem Walk.Ok.winner (h : w.Ok space measure) {b : Nat} {top : ℚ≥0}
    (hb : w.best = some (b, top)) : ∃ t ∈ w.log, t.rung = b ∧ t.outcome = .measured top ∧
      (w.report space).best = some (t.cand, top) := by
  obtain ⟨t, ht, hr, ho⟩ := h.lead b top hb
  obtain ⟨n, hn⟩ := List.mem_iff_getElem?.mp ht
  refine ⟨t, ht, hr, ho, ?_⟩
  rw [Walk.report, hb, Option.bind_some, ← hr, (h.asked n t hn).1]
  rfl

theorem Walk.Ok.no_winner (h : w.Ok space measure) :
    (w.report space).best = none ↔ w.best = none := by
  constructor
  · intro hr
    cases hb : w.best with
    | none => rfl
    | some x =>
      obtain ⟨t, _, _, _, hbest⟩ := h.winner hb
      rw [hr] at hbest
      cases hbest
  · intro hb
    rw [Walk.report, hb, Option.bind_none]

theorem Walk.Ok.winner_iff (h : w.Ok space measure) : (w.report space).best.isSome = true ↔
    ∃ t ∈ w.log, ∃ rate, t.outcome = .measured rate := by
  constructor
  · intro hsome
    cases hb : w.best with
    | none =>
      rw [h.no_winner.mpr hb] at hsome
      cases hsome
    | some x =>
      obtain ⟨t, ht, _, ho, _⟩ := h.winner hb
      exact ⟨t, ht, x.2, ho⟩
  · rintro ⟨t, ht, rate, ho⟩
    obtain ⟨b, top, hb, _⟩ := h.led t ht rate ho
    obtain ⟨_, _, _, _, hbest⟩ := h.winner hb
    rw [hbest]
    rfl

theorem run_walks {mayContinue : Nat → Bool} {fuel : Nat} (hlen : 2 ≤ space.ladder.length)
    (hprior : space.prior < space.ladder.length) :
    run space measure mayContinue fuel
      = (loop space measure mayContinue fuel (Walk.start space)).map (Walk.report space) := by
  obtain ⟨start, hc⟩ := Space.candidate_isSome.mpr hprior
  have hopen : space.isFixed = false := decide_eq_false (by omega)
  rw [run, hc]
  dsimp only
  rw [hopen, if_neg Bool.false_ne_true]

theorem run_best_mem {mayContinue : Nat → Bool} {fuel : Nat} {report : Report}
    {cand : Candidate} {rate : ℚ≥0} (h : run space measure mayContinue fuel = some report)
    (hbest : report.best = some (cand, rate)) : ∃ idx, space.candidate idx = some cand := by
  unfold run at h
  split at h
  · cases h
    cases hbest
  · next hc =>
    split_ifs at h with hfixed
    · cases h
      cases hbest
      exact ⟨_, hc⟩
    · obtain ⟨w, _, rfl⟩ := Option.map_eq_some_iff.mp h
      obtain ⟨b, _, hb⟩ := Option.bind_eq_some_iff.mp hbest
      obtain ⟨c, hc', he⟩ := Option.map_eq_some_iff.mp hb
      cases he
      exact ⟨b.1, hc'⟩

end

theorem run_produced {pinned : Overrides} {depth : Nat} {backend : EngineBackend}
    {gpuLanes : Option Nat} {measure : Measure} {mayContinue : Nat → Bool} {fuel : Nat}
    {report : Report} {cand : Candidate} {rate : ℚ≥0}
    (h : run (Space.new pinned depth backend gpuLanes) measure mayContinue fuel = some report)
    (hbest : report.best = some (cand, rate)) : Produced pinned backend cand := by
  obtain ⟨idx, hc⟩ := run_best_mem h hbest
  exact .fast depth gpuLanes idx hc

/-- **The fast search settles.**  On a ladder of two rungs or more, with the prior on it, the walk
ends, measures no rung twice and runs two trials at least; it has a winner exactly when some trial
was measured, a measured rung that no measured rate beats by more than the tie.  When it is never
stopped, no winner means that every rung was tried; and where each rung has one rate, every
neighbour of the winner was tried and does not beat it by more than the tie. -/
theorem walk_settles (space : Space) (hlen : 2 ≤ space.ladder.length)
    (hprior : space.prior < space.ladder.length) (measure : Measure) (mayContinue : Nat → Bool)
    (fuel : Nat) (hfuel : space.ladder.length < fuel) :
    ∃ w, loop space measure mayContinue fuel (Walk.start space) = some w ∧
      run space measure mayContinue fuel = some (w.report space) ∧
      (∀ n t, w.log[n]? = some t →
        space.candidate t.rung = some t.cand ∧ t.outcome = measure n t.cand t.floor) ∧
      (w.log.map Trial.rung).Nodup ∧ 2 ≤ w.log.length ∧
      ((w.report space).best.isSome = true ↔ ∃ t ∈ w.log, ∃ rate, t.outcome = .measured rate) ∧
      (∀ cand top, (w.report space).best = some (cand, top) →
        ∃ t ∈ w.log, t.cand = cand ∧ t.outcome = .measured top ∧
          (∀ u ∈ w.log, ∀ rate, u.outcome = .measured rate → rate ≤ top * (1 + TIE)) ∧
          ((∀ n, mayContinue n = true) → ∀ rate : Nat → ℚ≥0,
            (∀ u ∈ w.log, u.outcome = .ofRate u.floor (rate u.rung)) →
            ∀ i < space.ladder.length, (i = t.rung + 1 ∨ i + 1 = t.rung) →
              (∃ u ∈ w.log, u.rung = i) ∧ rate i ≤ rate t.rung * (1 + TIE))) ∧
      ((∀ n, mayContinue n = true) → (w.report space).best = none →
        ∀ i < space.ladder.length, ∃ t ∈ w.log, t.rung = i) := by
  have h0 : (Walk.start space).Ok space measure := Walk.start_ok
  obtain ⟨w, hloop, h, hs, hstop⟩ := loop_ends mayContinue h0 (Walk.start_steers hprior) hfuel
  have hend : (∀ n, mayContinue n = true) → w.next = none := by
    intro hgo
    rcases hstop with hn | ⟨_, hn⟩
    · exact hn
    · rw [hgo] at hn
      cases hn
  refine ⟨w, hloop, ?_, h.asked, h.nodup, ?_, h.winner_iff, fun cand top hbest => ?_,
    fun hgo hbest i hi => ?_⟩
  · rw [run_walks hlen hprior, hloop, Option.map_some]
  · rcases hstop with hn | ⟨htwo, _⟩
    · exact Walk.two_trials h hs hlen hn
    · exact htwo
  · cases hb : w.best with
    | none =>
      rw [h.no_winner.mpr hb] at hbest
      cases hbest
    | some x =>
      obtain ⟨t, ht, hr, ho, hreport⟩ := h.winner hb
      rw [hreport] at hbest
      cases hbest
      refine ⟨t, ht, rfl, ho, fun u hu rate hm => ?_, fun hgo rate hrate i hi hadj => ?_⟩
      · obtain ⟨b, top, hb', hle⟩ := h.led u hu rate hm
        rw [hb] at hb'
        cases hb'
        exact hle
      · have htried : i ∈ w.rungs := h.tried hi (hs.ends x.1 x.2 hb (hend hgo) i (hr ▸ hadj))
        have htop : x.2 = rate t.rung := by
          have hr' := hrate t ht
          rw [ho] at hr'
          exact Outcome.ofRate_measured hr'.symm
        refine ⟨List.mem_map.mp htried, ?_⟩
        rw [← htop]
        exact Walk.neighbour_le h hrate hb htried
  · have hall := (hs.unmeasured (h.no_winner.mp hbest)).2 (hend hgo) i
    exact List.mem_map.mp (h.tried hi hall)

def wgpuLadder : Space := Space.new Lib.SeqMap.empty 460 .wgpu none

def priorFirst (cand : Candidate) : ℚ≥0 :=
  if cand.servers = some 4 then 88 else if cand.servers = some 2 then 82 else 60

theorem walk_settles_wgpu : ∃ w,
    loop wgpuLadder (fun _ cand floor => .ofRate floor (priorFirst cand)) (fun _ => true) 6
      (Walk.start wgpuLadder) = some w ∧ 2 ≤ w.log.length := by
  obtain ⟨w, hw, _, _, _, htwo, _⟩ := walk_settles wgpuLadder (by decide) (by decide)
    (fun _ cand floor => .ofRate floor (priorFirst cand)) (fun _ => true) 6 (by decide)
  exact ⟨w, hw, htwo⟩

-- the prior, the rung above it, and the one below
example : (run wgpuLadder (fun _ cand floor => .ofRate floor (priorFirst cand)) (fun _ => true)
    6).map (fun report => report.history.map (·.1.servers)) = some [some 4, some 8, some 2] := by
  decide +kernel

end Fast
end Autotune
end KatagoWs
