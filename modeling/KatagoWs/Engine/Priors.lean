import KatagoWs.Engine.HumanPolicy
import KatagoWs.Engine.Perspective
import KatagoWs.Engine.Vertex
import KatagoWs.Lib.Tie

/-!
# The prior of the move played

The prior of a move comes from the full policy array of its turn.  Without one it is that of a
candidate for the move, which is looked for among the `top_k` that are reported.

* `bestCandidate`    the best-ordered candidate of a turn for a move, of all the engine has;
* `PriorKept`        a prior is withheld only when there is nothing to report;
* `annotateMove_prior`   the prior of an annotation, source by source;
* `priors_iff`       no prior is withheld exactly when every turn without the array has the move
                     among its first `top_k` candidates, or not at all.
-/

namespace KatagoWs
open Lib

section
variable (turns : List TurnResponse) (i : Nat) (mv : String)

def candidatesFor : List MoveInfo :=
  (((byTurn turns i).map TurnResponse.moveInfos).getD []).filter fun info => info.mv == mv

/-- the best-ordered of them; of several with one order, the first reported -/
def bestCandidate : Option MoveInfo := (candidatesFor turns i mv).argmin MoveInfo.order

theorem bestCandidate_eq_none : bestCandidate turns i mv = none ↔ candidatesFor turns i mv = [] :=
  List.argmin_eq_none

theorem bestCandidate_eq {r : TurnResponse} (h : byTurn turns i = some r) :
    bestCandidate turns i mv =
      (r.moveInfos.insertionSort fun a b => a.order ≤ b.order).find? fun info => info.mv == mv := by
  rw [find?_insertionSort MoveInfo.order, bestCandidate, candidatesFor, h]
  rfl

end

section
variable (game : ParsedGame) (turns : List TurnResponse) (cfg : EngineConfig)

def WholeArray (i : Nat) : Prop := ∃ raw, HasArray game turns TurnResponse.policy 1 i raw

def Ranked (i : Nat) (mv : String) : Prop :=
  ∃ r, Answers turns i r ∧ ∃ info ∈ bestInfos cfg r.moveInfos, info.mv = mv

/-- the prior of the move annotated is the array's, without one the best candidate's, and absent
only when there is neither -/
structure PriorKept (i : Nat) (a : MoveAnnotation) : Prop where
  array : ∀ raw, HasArray game turns TurnResponse.policy 1 i raw → ∃ index prob,
    policyIndex a.mv game.boardSize = some index ∧ raw[index]? = some prob ∧
      a.prior = some (max prob 0)
  candidate : ¬ WholeArray game turns i → ∀ info, bestCandidate turns i a.mv = some info →
    a.prior = some info.prior
  absent : a.prior = none → ¬ WholeArray game turns i ∧ candidatesFor turns i a.mv = []

/-- a turn without the array has the move among its best candidates, or not at all -/
def PriorsWhen : Prop :=
  ∀ i color mv, game.moves[i]? = some (color, mv) → ¬ WholeArray game turns i →
    candidatesFor turns i mv ≠ [] → Ranked turns cfg i mv

/-! ## the prior of an annotation -/

variable {game turns cfg} {i : Nat} {color : Color} {mv : String}

def playedCandidate (turns : List TurnResponse) (cfg : EngineConfig) (i : Nat) (mv : String) :
    Option MoveInfo :=
  (byTurn turns i).bind fun r => (bestInfos cfg r.moveInfos).find? fun info => info.mv == mv

theorem annotateMove_prior : (annotateMove game (byTurn turns) cfg i color mv).prior =
    (policyAt ((byTurn turns i).bind TurnResponse.policy) mv game.boardSize).or
      ((playedCandidate turns cfg i mv).map MoveInfo.prior) := by
  have hprior : (annotateMove game (byTurn turns) cfg i color mv).prior =
      (policyAt ((byTurn turns i).bind TurnResponse.policy) mv game.boardSize).or
        (((((byTurn turns i).map (topCandidates cfg color)).getD []).find?
          fun candidate => candidate.mv == mv).map Candidate.prior) := rfl
  rw [hprior, playedCandidate]
  cases byTurn turns i with
  | none => rfl
  | some r =>
    show (policyAt _ _ _).or (((topCandidates cfg color r).find? _).map _) = _
    rw [topCandidates_eq, List.find?_map, Option.map_map]
    rfl

/-- the reported candidate is the best one, when the move is among the `top_k` best at all -/
theorem playedCandidate_ranked (h : Ranked turns cfg i mv) :
    playedCandidate turns cfg i mv = bestCandidate turns i mv ∧
      (bestCandidate turns i mv).isSome := by
  obtain ⟨r, hr, info, hinfo, hmv⟩ := h
  have hb : byTurn turns i = some r := byTurn_iff.mpr hr
  have hsome : ((bestInfos cfg r.moveInfos).find? fun info => info.mv == mv).isSome :=
    List.find?_isSome.mpr ⟨info, hinfo, beq_iff_eq.mpr hmv⟩
  obtain ⟨best, hbest⟩ := Option.isSome_iff_exists.mp hsome
  have hp : playedCandidate turns cfg i mv = some best := by
    rw [playedCandidate, hb]
    exact hbest
  have hall : bestCandidate turns i mv = some best :=
    (bestCandidate_eq turns i mv hb).trans (find?_take hbest)
  rw [hp, hall]
  exact ⟨rfl, rfl⟩

theorem playedCandidate_unranked (h : ¬ Ranked turns cfg i mv) :
    playedCandidate turns cfg i mv = none := by
  cases hp : playedCandidate turns cfg i mv with
  | none => rfl
  | some info =>
    obtain ⟨r, hr, hf⟩ := Option.bind_eq_some_iff.mp hp
    exact absurd ⟨r, byTurn_iff.mp hr, info, List.mem_of_find?_eq_some hf,
      beq_iff_eq.mp (List.find?_some hf :)⟩ h

theorem policyAt_array {index : Nat} (hi : policyIndex mv game.boardSize = some index)
    {raw : List ℚ} (h : HasArray game turns TurnResponse.policy 1 i raw) :
    ∃ prob, raw[index]? = some prob ∧
      policyAt ((byTurn turns i).bind TurnResponse.policy) mv game.boardSize
        = some (max prob 0) := by
  obtain ⟨hraw, hlen⟩ := (hasArray_iff game turns TurnResponse.policy 1).mp h
  have hlt : index < raw.length := hlen ▸ policyIndex_lt hi
  refine ⟨raw[index], List.getElem?_eq_getElem hlt, ?_⟩
  have hfull : (some raw).filter
      (fun policy => policy.length = game.boardSize * game.boardSize + 1) = some raw :=
    Option.filter_some_pos (decide_eq_true hlen)
  rw [hraw, policyAt, hfull, hi]
  simp [List.getElem?_eq_getElem hlt]

theorem policyAt_noArray (h : ¬ WholeArray game turns i) :
    policyAt ((byTurn turns i).bind TurnResponse.policy) mv game.boardSize = none := by
  rw [← Option.not_isSome_iff_eq_none, policyAt_isSome]
  rintro ⟨⟨raw, hraw⟩, -⟩
  exact h ⟨raw, (hasArray_iff game turns TurnResponse.policy 1).mpr hraw⟩

/-- **One move**: its prior is kept exactly when there is an array, no candidate, or one among
the `top_k` best. -/
theorem priorKept_iff (hi : (policyIndex mv game.boardSize).isSome) :
    PriorKept game turns i (annotateMove game (byTurn turns) cfg i color mv) ↔
      (¬ WholeArray game turns i → candidatesFor turns i mv ≠ [] → Ranked turns cfg i mv) := by
  obtain ⟨index, hindex⟩ := Option.isSome_iff_exists.mp hi
  have hmv : (annotateMove game (byTurn turns) cfg i color mv).mv = mv := rfl
  by_cases hw : WholeArray game turns i
  · refine ⟨fun _ hn => absurd hw hn, fun _ => ⟨fun raw hraw => ?_, fun hn => absurd hw hn, ?_⟩⟩
    · obtain ⟨prob, hprob, hat⟩ := policyAt_array hindex hraw
      refine ⟨index, prob, hindex, hprob, ?_⟩
      rw [annotateMove_prior, hat, Option.some_or]
    · intro hnone
      obtain ⟨raw, hraw⟩ := hw
      obtain ⟨prob, -, hat⟩ := policyAt_array hindex hraw
      rw [annotateMove_prior, hat, Option.some_or] at hnone
      cases hnone
  · have hprior : (annotateMove game (byTurn turns) cfg i color mv).prior
        = (playedCandidate turns cfg i mv).map MoveInfo.prior := by
      rw [annotateMove_prior, policyAt_noArray hw, Option.none_or]
    by_cases hr : Ranked turns cfg i mv
    · obtain ⟨hplayed, hsome⟩ := playedCandidate_ranked hr
      obtain ⟨best, hbest⟩ := Option.isSome_iff_exists.mp hsome
      rw [hplayed, hbest, Option.map_some] at hprior
      refine ⟨fun _ _ _ => hr, fun _ => ⟨fun raw hraw => absurd ⟨raw, hraw⟩ hw, ?_, ?_⟩⟩
      · intro _ info hinfo
        rw [hmv, hbest] at hinfo
        cases hinfo
        exact hprior
      · intro hnone
        rw [hprior] at hnone
        cases hnone
    · rw [playedCandidate_unranked hr, Option.map_none] at hprior
      constructor
      · intro h _ hc
        exact absurd (h.absent hprior).2 hc
      · intro h
        have hc : candidatesFor turns i mv = [] := by
          by_contra hc
          exact hr (h hw hc)
        refine ⟨fun raw hraw => absurd ⟨raw, hraw⟩ hw, ?_, fun _ => ⟨hw, hc⟩⟩
        intro _ info hinfo
        rw [hmv, (bestCandidate_eq_none turns i mv).mpr hc] at hinfo
        cases hinfo

end

/-! ## the payload -/

section
variable (goParse : String → Except String (List SgfNode))

theorem parse_policyIndex {sgf : String} {defaultSize : Nat} {komi : ℚ} {game : ParsedGame}
    (h : parse goParse sgf defaultSize komi = .ok game) :
    ∀ m ∈ game.moves, (policyIndex m.2 game.boardSize).isSome := by
  have hok : (parse goParse sgf defaultSize komi).isOk = true := by
    rw [h]
    rfl
  obtain ⟨nodes, hn, -⟩ := (parse_isOk goParse sgf defaultSize komi).mp hok
  obtain ⟨-, hc⟩ := parse_ok goParse hn h
  intro m hm
  obtain ⟨i, hi, rfl⟩ := List.mem_iff_getElem.mp hm
  have hpair := hc.moves.get (hc.moves.length_eq ▸ hi) hi
  rw [List.get_eq_getElem] at hpair
  rw [(moveToGtp_ok hc.size.2 hpair.2).index]
  rfl

/-- **No prior is withheld** exactly when each turn without a whole policy array has the move
among its `top_k` best candidates, or has no candidate for it. -/
theorem priors_iff {K : Type} [Field K] [LinearOrder K] (exp : ℚ → K) (sgf : String)
    (defaultSize : Nat) (komi : ℚ) {game : ParsedGame}
    (h : parse goParse sgf defaultSize komi = .ok game) (turns : List TurnResponse)
    (cfg : EngineConfig) (humanProfile : Option String) :
    (∀ i a, (assemble exp game turns cfg humanProfile).moves[i]? = some a →
        PriorKept game turns i a) ↔ PriorsWhen game turns cfg := by
  have hindex : ∀ {i : Nat} {color : Color} {mv : String}, game.moves[i]? = some (color, mv) →
      (policyIndex mv game.boardSize).isSome := by
    intro i color mv hm
    exact parse_policyIndex goParse h (color, mv) (List.mem_of_getElem? hm)
  constructor
  · intro hk i color mv hm
    have ha : (assemble exp game turns cfg humanProfile).moves[i]?
        = some (annotateMove game (byTurn turns) cfg i color mv) := by
      rw [assemble_move, hm]
      rfl
    have hkept : PriorKept game turns i (annotateMove game (byTurn turns) cfg i color mv) :=
      hk i _ ha
    exact (priorKept_iff (hindex hm)).mp hkept
  · intro hw i a ha
    rw [assemble_move, Option.map_eq_some_iff] at ha
    obtain ⟨⟨color, mv⟩, hm, rfl⟩ := ha
    exact (priorKept_iff (hindex hm)).mpr (hw i color mv hm)

end

/-! ## a move the engine ranks second -/

def pdGame : ParsedGame := ⟨19, 6, .japanese, none, [], [(.black, "Q16")]⟩

/-- a turn without policy arrays, whose second candidate is the move played -/
def secondTurn : TurnResponse :=
  { turnNumber := 0
    rootInfo := none
    moveInfos :=
      [⟨"D4", 1 / 2, 0, 1 / 2, 10, none, 0, []⟩, ⟨"Q16", 1 / 2, 0, 1 / 4, 5, none, 1, []⟩]
    ownership := none
    ownershipStdev := none
    policy := none
    humanPolicy := none }

/-- among the five best it is found -/
theorem priors_iff_second : PriorKept pdGame [secondTurn] 0
    (annotateMove pdGame (byTurn [secondTurn]) humanConfig 0 .black "Q16") := by
  have hwhen : PriorsWhen pdGame [secondTurn] humanConfig := by
    intro i color mv hm _ _
    obtain ⟨hlt, he⟩ := List.getElem?_eq_some_iff.mp hm
    obtain rfl : i = 0 := Nat.lt_one_iff.mp hlt
    cases he
    exact ⟨secondTurn, ⟨[], [], rfl, rfl, by simp⟩, _,
      List.mem_cons_of_mem _ List.mem_cons_self, rfl⟩
  exact (priors_iff oneMove id "(;B[pd])" 19 6 (by decide) [secondTurn] humanConfig none).mpr
    hwhen 0 _ rfl

/-- with one candidate to a turn, the move has no prior, though the engine reported one -/
theorem priors_withheld : ¬ ∀ (sgf : String) (defaultSize : Nat) (komi : ℚ) (game : ParsedGame)
    (turns : List TurnResponse) (cfg : EngineConfig) (humanProfile : Option String),
      parse oneMove sgf defaultSize komi = .ok game → ∀ i a,
        (assemble (id : ℚ → ℚ) game turns cfg humanProfile).moves[i]? = some a →
          PriorKept game turns i a := by
  intro h
  have hk := h "(;B[pd])" 19 6 pdGame [secondTurn] { humanConfig with topK := 1 } none (by decide) 0
    _ rfl
  have hnone : (annotateMove pdGame (byTurn [secondTurn]) { humanConfig with topK := 1 } 0 .black
      "Q16").prior = none := by decide +kernel
  have hsome : candidatesFor [secondTurn] 0 "Q16" ≠ [] := by decide +kernel
  exact hsome (hk.absent hnone).2

end KatagoWs
