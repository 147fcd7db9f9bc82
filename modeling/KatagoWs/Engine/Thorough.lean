import Mathlib.Algebra.BigOperators.Group.List.Defs
import Mathlib.Data.List.Find
import KatagoWs.Engine.Search
import KatagoWs.Lib.Tie

/-!
# The thorough search

Every pair of server threads and batch size is measured at the first number of analysis threads,
then the other numbers of analysis threads around the leader (`run`).  A stage measures its
candidates one by one, stopping the ones clearly below the best so far, measures those close to
its leader again, and picks the first within `TIE` of the best mean (`stage`).

* `Steady`        each candidate has one rate, and only a trial below its floor is cut short;
* `stage_steady`  the pick of a stage is the first candidate within `TIE` of the best rate;
* `run_steady`    so is the winner, whatever trials were cut short;
* `run_produced`  the winner is a candidate of the search space.
-/

namespace KatagoWs
namespace Autotune
namespace Thorough
open Lib NNRat

/-- A trial running below this fraction of the best so far is stopped half-way. -/
def PRUNE_RATIO : ℚ≥0 := percent 92

/-- Candidates within this fraction of a stage's leader are measured again. -/
def CLOSE : ℚ≥0 := percent 8

/-- Within this fraction of the best, the prior order decides. -/
def TIE : ℚ≥0 := percent 3

/-- Nothing to measure: every throughput key is pinned. -/
def Space.isFullyPinned (space : Space) : Bool :=
  decide (space.analysis.length ≤ 1) && decide (space.serverBatch.length ≤ 1)

def mean (samples : List ℚ≥0) : ℚ≥0 :=
  if samples.isEmpty then 0 else samples.sum / samples.length

abbrev Scored := Candidate × List ℚ≥0

def Scored.mean (e : Scored) : ℚ≥0 := Thorough.mean e.2

/-- what a stage has measured, and every trial of the search so far -/
structure Stage where
  scored : List Scored
  history : List (Candidate × Outcome)

def Stage.measure (measure : Measure) (st : Stage) (cand : Candidate) : Stage :=
  let best := topOf Scored.mean st.scored
  let pruneBelow := if 0 < best then some (best * PRUNE_RATIO) else none
  let outcome := measure st.history.length cand pruneBelow
  { scored := match outcome with
      | .measured rate => st.scored ++ [(cand, [rate])]
      | _ => st.scored
    history := st.history ++ [(cand, outcome)] }

def Stage.again (measure : Measure) (st : Stage) (idx : Nat) : Stage :=
  match st.scored[idx]? with
  | none => st
  | some (cand, samples) =>
    let outcome := measure st.history.length cand none
    { scored := match outcome with
        | .measured rate => st.scored.set idx (cand, samples ++ [rate])
        | _ => st.scored
      history := st.history ++ [(cand, outcome)] }

def contenders (scored : List Scored) : List Nat :=
  let leader := topOf Scored.mean scored
  (scored.zipIdx.filter fun e => decide (leader * (1 - CLOSE) ≤ Scored.mean e.1)).map (·.2)

/-- The earliest candidate within `TIE` of the best wins. -/
def pick (scored : List Scored) : Option Scored :=
  let top := topOf Scored.mean scored
  scored.find? fun e => decide (0 < top) && decide (top * (1 - TIE) ≤ Scored.mean e)

/-- Measure the candidates, then the contenders again, and pick the best by mean.  `incumbent` is
a previous stage's winner with its samples. -/
def stage (measure : Measure) (cands : List Candidate) (incumbent : Option Scored)
    (history : List (Candidate × Outcome)) : Option Scored × List (Candidate × Outcome) :=
  let st := cands.foldl (Stage.measure measure) ⟨incumbent.toList, history⟩
  let contenders := contenders st.scored
  let st := if contenders.length > 1 then contenders.foldl (Stage.again measure) st else st
  (pick st.scored, st.history)

/-- Search `space`: first server threads and batch size, then the analysis threads around that
winner. -/
def run (space : Space) (measure : Measure) : Report :=
  let base := space.first
  -- nothing to compare
  if space.isFullyPinned then { best := some (base, 0) }
  else
    let a := stage measure space.stageA none []
    match a.1 with
    | none => { history := a.2 }
    | some leader =>
      let b := stage measure (space.stageB leader.1) (some leader) a.2
      { best := b.1.map fun e => (e.1, e.mean)
        history := b.2 }

/-! ## what a stage picks from -/

section
variable (measure : Measure)

theorem Stage.measure_cands (st : Stage) (cand : Candidate) :
    ∀ c ∈ (st.measure measure cand).scored.map Prod.fst,
      c ∈ st.scored.map Prod.fst ∨ c = cand := by
  intro c hc
  unfold Stage.measure at hc
  dsimp only at hc
  split at hc
  · rw [List.map_append] at hc
    rcases List.mem_append.mp hc with hc | hc
    · exact .inl hc
    · exact .inr (List.mem_singleton.mp hc)
  · exact .inl hc

theorem foldl_measure_cands (cands : List Candidate) (st : Stage) :
    ∀ c ∈ (cands.foldl (Stage.measure measure) st).scored.map Prod.fst,
      c ∈ st.scored.map Prod.fst ∨ c ∈ cands := by
  induction cands generalizing st with
  | nil => exact fun c hc => .inl hc
  | cons cand cands ih =>
    intro c hc
    rcases ih (st.measure measure cand) c hc with hc | hc
    · rcases Stage.measure_cands measure st cand c hc with hc | rfl
      · exact .inl hc
      · exact .inr List.mem_cons_self
    · exact .inr (List.mem_cons_of_mem _ hc)

theorem Stage.again_cands (st : Stage) (idx : Nat) :
    (st.again measure idx).scored.map Prod.fst = st.scored.map Prod.fst := by
  unfold Stage.again
  cases h : st.scored[idx]? with
  | none => rfl
  | some e =>
    obtain ⟨hlt, he⟩ := List.getElem?_eq_some_iff.mp h
    dsimp only
    split
    · have hlt' : idx < (st.scored.map Prod.fst).length := by
        rwa [List.length_map]
      have hc : (st.scored.map Prod.fst)[idx] = e.1 := by
        rw [List.getElem_map, he]
      rw [List.map_set, ← hc, List.set_getElem_self]
    · rfl

theorem foldl_again_cands (idxs : List Nat) (st : Stage) :
    (idxs.foldl (Stage.again measure) st).scored.map Prod.fst = st.scored.map Prod.fst := by
  induction idxs generalizing st with
  | nil => rfl
  | cons idx idxs ih => rw [List.foldl_cons, ih, Stage.again_cands]

theorem pick_mem {scored : List Scored} {e : Scored} (h : pick scored = some e) : e ∈ scored :=
  List.mem_of_find?_eq_some h

theorem stage_cands (cands : List Candidate) (incumbent : Option Scored)
    (history : List (Candidate × Outcome)) :
    ∀ e ∈ (stage measure cands incumbent history).1,
      e.1 ∈ incumbent.toList.map Prod.fst ∨ e.1 ∈ cands := by
  intro e he
  unfold stage at he
  dsimp only at he
  refine foldl_measure_cands measure cands ⟨incumbent.toList, history⟩ e.1 ?_
  split at he
  · rw [← foldl_again_cands measure]
    exact List.mem_map_of_mem (pick_mem he)
  · exact List.mem_map_of_mem (pick_mem he)

theorem run_best_mem {space : Space} {cand : Candidate} {rate : ℚ≥0}
    (h : (run space measure).best = some (cand, rate)) : cand ∈ space.candidates := by
  unfold run at h
  dsimp only at h
  split at h
  · cases h
    exact List.mem_cons_self
  · have ha := stage_cands measure space.stageA none []
    cases hs : (stage measure space.stageA none []).1 with
    | none =>
      rw [hs] at h
      cases h
    | some leader =>
      rw [hs] at h
      obtain ⟨e, he, hc⟩ := Option.map_eq_some_iff.mp h
      cases hc
      have hleader : leader.1 ∈ space.stageA := by
        rcases ha leader hs with hn | hm
        · cases hn
        · exact hm
      refine List.mem_cons_of_mem _ (List.mem_append.mpr ?_)
      rcases stage_cands measure _ _ _ e he with hc | hc
      · have hc : e.1 = leader.1 := List.mem_singleton.mp hc
        exact .inl (hc ▸ hleader)
      · exact .inr (List.mem_flatMap.mpr ⟨leader.1, hleader, hc⟩)

theorem run_produced {pinned : Overrides} {depth : Nat} {backend : EngineBackend}
    {cand : Candidate} {rate : ℚ≥0}
    (h : (run (Space.new pinned depth backend) measure).best = some (cand, rate)) :
    Produced pinned backend cand :=
  .thorough depth (run_best_mem measure h)

end

/-! ## fixed rates -/

/-- each candidate has one rate, and only a trial below its floor is cut short -/
def Steady (rate : Candidate → ℚ≥0) (measure : Measure) : Prop :=
  ∀ n cand floor, measure n cand floor = .measured (rate cand) ∨
    ∃ f, floor = some f ∧ rate cand < f ∧ measure n cand floor = .pruned (rate cand)

theorem steady_ofRate (rate : Candidate → ℚ≥0) :
    Steady rate fun _ cand floor => .ofRate floor (rate cand) := by
  intro n cand floor
  cases floor with
  | none => exact .inl rfl
  | some f =>
    by_cases h : rate cand < f
    · exact .inr ⟨f, rfl, h, if_pos h⟩
    · exact .inl (if_neg h)

theorem steady_measured (rate : Candidate → ℚ≥0) :
    Steady rate fun _ cand _ => .measured (rate cand) :=
  fun _ _ _ => .inl rfl

section
variable {rate : Candidate → ℚ≥0} {measure : Measure}

/-- every sample of a candidate is its rate -/
def Scored.Fair (rate : Candidate → ℚ≥0) (e : Scored) : Prop :=
  e.2 ≠ [] ∧ ∀ sample ∈ e.2, sample = rate e.1

theorem Scored.Fair.mean_eq {e : Scored} (h : e.Fair rate) : e.mean = rate e.1 := by
  obtain ⟨hne, hall⟩ := h
  have hlen : (e.2.length : ℚ≥0) ≠ 0 := by
    rw [Nat.cast_ne_zero]
    exact fun h0 => hne (List.length_eq_zero_iff.mp h0)
  have hsum : e.2.sum = e.2.length * rate e.1 := by
    rw [List.sum_eq_card_nsmul e.2 _ hall, nsmul_eq_mul]
  rw [Scored.mean, Thorough.mean, if_neg (by simpa using hne), hsum, mul_div_cancel_left₀ _ hlen]

theorem pick_fair {scored : List Scored} (hpos : ∀ c, 0 < rate c)
    (hf : ∀ e ∈ scored, e.Fair rate) :
    (pick scored).map Prod.fst = firstWithin (1 - TIE) rate (scored.map Prod.fst) := by
  rw [firstWithin, List.find?_map, pick]
  congr 1
  refine List.find?_congr fun e he => ?_
  have htop : 0 < topOf Scored.mean scored := by
    refine lt_of_lt_of_le (hpos e.1) ?_
    rw [← (hf e he).mean_eq]
    exact le_topOf he
  rw [decide_eq_true htop, Bool.true_and, Function.comp_apply]
  refine decide_eq_decide.mpr ?_
  rw [topOf_mul_le, Within, List.forall_mem_map, (hf e he).mean_eq]
  constructor
  · intro h x hx
    rw [← (hf x hx).mean_eq]
    exact h x hx
  · intro h x hx
    rw [(hf x hx).mean_eq]
    exact h x hx

/-- the candidates left to compare, when the rest of the list is still to come -/
abbrev Stage.choice (rate : Candidate → ℚ≥0) (st : Stage) (rest : List Candidate) :
    Option Candidate :=
  firstWithin (1 - TIE) rate (st.scored.map Prod.fst ++ rest)

theorem Stage.measure_steady (hm : Steady rate measure) {st : Stage}
    (hf : ∀ e ∈ st.scored, e.Fair rate) (cand : Candidate) :
    (∀ e ∈ (st.measure measure cand).scored, e.Fair rate) ∧
      ∀ rest, (st.measure measure cand).choice rate rest = st.choice rate (cand :: rest) := by
  have hkeep : PRUNE_RATIO ≤ 1 - TIE := by decide +kernel
  have hone : (1 : ℚ≥0) - TIE ≤ 1 := by decide +kernel
  unfold Stage.measure
  dsimp only
  set best := topOf Scored.mean st.scored with hbest
  rcases hm st.history.length cand (if 0 < best then some (best * PRUNE_RATIO) else none) with
    ho | ⟨f, hfloor, hlt, ho⟩
  · rw [ho]
    refine ⟨fun e he => ?_, fun rest => ?_⟩
    · rcases List.mem_append.mp he with he | he
      · exact hf e he
      · rw [List.mem_singleton.mp he]
        exact ⟨List.cons_ne_nil _ _, fun sample hs => List.mem_singleton.mp hs⟩
    · show firstWithin _ _ _ = _
      rw [List.map_append, List.append_assoc]
      rfl
  · rw [ho]
    refine ⟨hf, fun rest => ?_⟩
    have hpos : 0 < best := by
      by_contra hn
      rw [if_neg hn] at hfloor
      cases hfloor
    rw [if_pos hpos] at hfloor
    obtain ⟨e, he, hb⟩ := topOf_mem hpos
    refine (firstWithin_drop (1 - TIE) rate hone (List.mem_map_of_mem he) ?_).symm
    calc rate cand < f := hlt
      _ = rate e.1 * PRUNE_RATIO := by
        rw [← Option.some.inj hfloor, ← (hf e he).mean_eq, hb]
      _ ≤ rate e.1 * (1 - TIE) := mul_le_mul_right hkeep _

theorem foldl_measure_steady (hm : Steady rate measure) (cands : List Candidate) {st : Stage}
    (hf : ∀ e ∈ st.scored, e.Fair rate) :
    (∀ e ∈ (cands.foldl (Stage.measure measure) st).scored, e.Fair rate) ∧
      (cands.foldl (Stage.measure measure) st).choice rate [] = st.choice rate cands := by
  induction cands generalizing st with
  | nil => exact ⟨hf, rfl⟩
  | cons cand cands ih =>
    obtain ⟨hf', hc⟩ := Stage.measure_steady hm hf cand
    obtain ⟨h1, h2⟩ := ih hf'
    exact ⟨h1, h2.trans (hc cands)⟩

theorem Stage.again_fair (hm : Steady rate measure) {st : Stage}
    (hf : ∀ e ∈ st.scored, e.Fair rate) (idx : Nat) :
    ∀ e ∈ (st.again measure idx).scored, e.Fair rate := by
  unfold Stage.again
  cases h : st.scored[idx]? with
  | none => exact hf
  | some x =>
    obtain ⟨hne, hall⟩ := hf x (List.mem_of_getElem? h)
    have ho : measure st.history.length x.1 none = .measured (rate x.1) := by
      rcases hm st.history.length x.1 none with ho | ⟨f, hfloor, _⟩
      · exact ho
      · cases hfloor
    dsimp only
    rw [ho]
    intro e he
    rcases List.mem_or_eq_of_mem_set he with he | rfl
    · exact hf e he
    · refine ⟨fun hn => hne (List.append_eq_nil_iff.mp hn).1, fun sample hs => ?_⟩
      rcases List.mem_append.mp hs with hs | hs
      · exact hall sample hs
      · exact List.mem_singleton.mp hs

theorem foldl_again_fair (hm : Steady rate measure) (idxs : List Nat) {st : Stage}
    (hf : ∀ e ∈ st.scored, e.Fair rate) :
    ∀ e ∈ (idxs.foldl (Stage.again measure) st).scored, e.Fair rate := by
  induction idxs generalizing st with
  | nil => exact hf
  | cons idx idxs ih => exact ih (Stage.again_fair hm hf idx)

/-- **A stage** picks the first candidate within the tie of the best, whatever was cut short. -/
theorem stage_steady (hm : Steady rate measure) (hpos : ∀ c, 0 < rate c) (cands : List Candidate)
    {incumbent : Option Scored} (hi : ∀ e ∈ incumbent, e.Fair rate)
    (history : List (Candidate × Outcome)) :
    (∀ e ∈ (stage measure cands incumbent history).1, e.Fair rate) ∧
      (stage measure cands incumbent history).1.map Prod.fst
        = firstWithin (1 - TIE) rate (incumbent.toList.map Prod.fst ++ cands) := by
  have hf : ∀ e ∈ (⟨incumbent.toList, history⟩ : Stage).scored, e.Fair rate :=
    fun e he => hi e (Option.mem_toList.mp he)
  obtain ⟨hf1, hc1⟩ := foldl_measure_steady hm cands hf
  unfold stage
  dsimp only
  set st := cands.foldl (Stage.measure measure) ⟨incumbent.toList, history⟩ with hst
  rw [Stage.choice, List.append_nil] at hc1
  split
  · have hf2 := foldl_again_fair hm (contenders st.scored) hf1
    refine ⟨fun e he => hf2 e (pick_mem he), ?_⟩
    rw [pick_fair hpos hf2, foldl_again_cands, hc1]
  · refine ⟨fun e he => hf1 e (pick_mem he), ?_⟩
    rw [pick_fair hpos hf1, hc1]

/-! ## the winner -/

/-- a pair of server threads and batch size, at a number of analysis threads -/
def around (pair : Option Nat × Option Nat) (threads : Option Nat) : Candidate :=
  ⟨threads, pair.1, pair.2⟩

/-- the first pair, at the first number of analysis threads, within the tie of the best one -/
def Space.leader (space : Space) (rate : Candidate → ℚ≥0) : Option (Option Nat × Option Nat) :=
  firstWithin (1 - TIE) (fun pair => rate (around pair space.analysis.head?.join))
    space.serverBatch

/-- the leader at the first number of analysis threads, or at the first of the others, within the
tie of the best of them -/
def Space.winner (space : Space) (rate : Candidate → ℚ≥0) : Option Candidate :=
  (space.leader rate).bind fun pair => firstWithin (1 - TIE) rate
    (around pair space.analysis.head?.join :: space.analysis.tail.map (around pair))

theorem Space.stageA_eq (space : Space) :
    space.stageA = space.serverBatch.map fun pair => around pair space.analysis.head?.join := rfl

theorem Space.stageB_eq (space : Space) (pair : Option Nat × Option Nat) (threads : Option Nat) :
    space.stageB (around pair threads) = space.analysis.tail.map (around pair) := by
  rw [← List.drop_one]
  rfl

/-- the two stages of the source, as the leader and the winner are stated -/
theorem Space.winner_eq (space : Space) : space.winner rate =
    (firstWithin (1 - TIE) rate space.stageA).bind fun leader =>
      firstWithin (1 - TIE) rate (leader :: space.stageB leader) := by
  rw [Space.stageA_eq, firstWithin_map, Option.bind_map]
  refine Option.bind_congr fun pair _ => ?_
  rw [Function.comp_apply, Space.stageB_eq]

theorem Space.winner_isSome {space : Space} (h : space.serverBatch ≠ []) :
    (space.winner rate).isSome = true := by
  have hone : (1 : ℚ≥0) - TIE ≤ 1 := by decide +kernel
  obtain ⟨pair, hp⟩ := Option.isSome_iff_exists.mp (firstWithin_isSome (1 - TIE)
    (fun pair => rate (around pair space.analysis.head?.join)) hone h)
  rw [Space.winner, Space.leader, hp, Option.bind_some]
  exact firstWithin_isSome _ rate hone (List.cons_ne_nil _ _)

/-- **The thorough search at fixed rates** reports the winner and its rate, whatever was cut
short and measured again. -/
theorem run_steady {space : Space} (hopen : space.isFullyPinned = false)
    (hm : Steady rate measure) (hpos : ∀ c, 0 < rate c) :
    (run space measure).best = (space.winner rate).map fun c => (c, rate c) := by
  have hi : ∀ e ∈ (none : Option Scored), e.Fair rate := fun _ h => by cases h
  obtain ⟨hfa, hca⟩ := stage_steady hm hpos space.stageA hi []
  unfold run
  rw [hopen, if_neg Bool.false_ne_true]
  dsimp only
  rw [Space.winner_eq]
  change _ = firstWithin (1 - TIE) rate space.stageA at hca
  rw [← hca]
  cases hs : (stage measure space.stageA none []).1 with
  | none => rfl
  | some leader =>
    have hi' : ∀ e ∈ some leader, e.Fair rate := fun e he => hfa e (hs.trans he)
    obtain ⟨hfb, hcb⟩ := stage_steady hm hpos (space.stageB leader.1) hi'
      (stage measure space.stageA none []).2
    change _ = firstWithin (1 - TIE) rate (leader.1 :: space.stageB leader.1) at hcb
    dsimp only
    rw [Option.map_some, Option.bind_some, ← hcb, Option.map_map]
    refine Option.map_congr fun e he => ?_
    rw [Function.comp_apply, (hfb e he).mean_eq]

end

/-- **Early stopping and measuring again change nothing.**  At fixed positive rates the search
reports the winner and the rate of the search that cuts no trial short: the leader is the first
pair within the tie of the best pair, the winner the first within the tie of the best of the
leader and the other numbers of analysis threads around it. -/
theorem pruning_harmless (space : Space) (hopen : space.isFullyPinned = false)
    (rate : Candidate → ℚ≥0) (hpos : ∀ c, 0 < rate c) :
    (run space fun _ cand floor => .ofRate floor (rate cand)).best
        = (run space fun _ cand _ => .measured (rate cand)).best ∧
      (run space fun _ cand floor => .ofRate floor (rate cand)).best
        = (space.winner rate).map (fun c => (c, rate c)) ∧
      (space.serverBatch ≠ [] → (space.winner rate).isSome = true) := by
  have h1 := run_steady hopen (steady_ofRate rate) hpos
  have h2 := run_steady hopen (steady_measured rate) hpos
  exact ⟨h1.trans h2.symm, h1, Space.winner_isSome⟩

def nearTie (cand : Candidate) : ℚ≥0 :=
  if cand.servers = some 8 then 165 else if cand.servers = some 6 then 166 else 10

theorem nearTie_pos (cand : Candidate) : 0 < nearTie cand := by
  unfold nearTie
  split_ifs <;> norm_num

def wgpuSpace : Space := Space.new SeqMap.empty 1000 .wgpu

theorem pruning_harmless_tie :
    (run wgpuSpace fun _ cand floor => .ofRate floor (nearTie cand)).best
      = (wgpuSpace.winner nearTie).map fun c => (c, nearTie c) :=
  (pruning_harmless wgpuSpace (by decide) nearTie nearTie_pos).2.1

-- the higher prior wins the near-tie
example : (run wgpuSpace fun _ cand floor => .ofRate floor (nearTie cand)).best
    = some (⟨some 256, some 8, some 32⟩, 165) := by
  decide +kernel

end Thorough
end Autotune
end KatagoWs
