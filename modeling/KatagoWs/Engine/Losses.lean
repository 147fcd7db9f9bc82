import KatagoWs.Engine.Report
import KatagoWs.Engine.TwoPass

/-!
# Losses and missing evaluations

The loss of a move compares two root evaluations, and either may be missing.  A missing second one
stands for no loss; a missing first one is taken for an even position, and the move is charged
with the difference.

* `reportedLoss`     the loss that two evaluations, both reported, amount to;
* `walk_losses`      the totals of a player are the sums over the player's moves;
* `LossesReported`   no loss that was not reported, in any annotation or report;
* `losses_iff`       it holds exactly when after a missing evaluation no move looks worse than even.
-/

namespace KatagoWs

/-! ## the loss of a move -/

/-- the evaluations either side of move `i` by `color`, as it sees them -/
def evalsAt (turns : List TurnResponse) (i : Nat) (color : Color) : Option Eval × Option Eval :=
  evalsSeenBy color ((byTurn turns i).bind TurnResponse.rootInfo)
    ((byTurn turns (i + 1)).bind TurnResponse.rootInfo)

def reportedLoss (lens : Eval → ℚ) : Option Eval × Option Eval → ℚ
  | (some before, some after) => max 0 (lens before - lens after)
  | _ => 0

section
variable (game : ParsedGame) (turns : List TurnResponse) (cfg : EngineConfig) (i : Nat)
  (color : Color) (mv : String)

theorem annotateMove_losses :
    (∀ after, evalsAt turns i color = (none, some after) →
      (annotateMove game (byTurn turns) cfg i color mv).winrateLoss
          = max (1 / 2 - after.winrate) 0 ∧
        (annotateMove game (byTurn turns) cfg i color mv).scoreLoss
          = max (0 - after.scoreLead) 0) ∧
    ((∀ after, evalsAt turns i color ≠ (none, some after)) →
      (annotateMove game (byTurn turns) cfg i color mv).winrateLoss
          = reportedLoss Eval.winrate (evalsAt turns i color) ∧
        (annotateMove game (byTurn turns) cfg i color mv).scoreLoss
          = reportedLoss Eval.scoreLead (evalsAt turns i color)) := by
  have hw : (annotateMove game (byTurn turns) cfg i color mv).winrateLoss =
      max (((evalsAt turns i color).1.map Eval.winrate).getD (1 / 2) -
        ((evalsAt turns i color).2.map Eval.winrate).getD
          (((evalsAt turns i color).1.map Eval.winrate).getD (1 / 2))) 0 := rfl
  have hs : (annotateMove game (byTurn turns) cfg i color mv).scoreLoss =
      max (((evalsAt turns i color).1.map Eval.scoreLead).getD 0 -
        ((evalsAt turns i color).2.map Eval.scoreLead).getD
          (((evalsAt turns i color).1.map Eval.scoreLead).getD 0)) 0 := rfl
  rw [hw, hs]
  constructor
  · intro after he
    rw [he]
    exact ⟨rfl, rfl⟩
  · intro hne
    cases hb : (evalsAt turns i color).1 with
    | none =>
      cases ha : (evalsAt turns i color).2 with
      | none =>
        have he : evalsAt turns i color = (none, none) := Prod.ext hb ha
        rw [he]
        simp [reportedLoss]
      | some after => exact absurd (Prod.ext hb ha) (hne after)
    | some before =>
      cases ha : (evalsAt turns i color).2 with
      | none =>
        have he : evalsAt turns i color = (some before, none) := Prod.ext hb ha
        rw [he]
        simp [reportedLoss]
      | some after =>
        have he : evalsAt turns i color = (some before, some after) := Prod.ext hb ha
        rw [he]
        simp only [Option.map_some, Option.getD_some, reportedLoss]
        exact ⟨max_comm _ _, max_comm _ _⟩

end

/-! ## the totals of the loop -/

section
variable (game : ParsedGame) (responses : Nat → Option TurnResponse) (cfg : EngineConfig)
  (exp : ℚ → ℚ)

def annotationsOf (index : Nat) (moves : List ColoredMove) (player : Color) :
    List MoveAnnotation :=
  ((moves.zipIdx index).filter fun m => m.1.1 = player).map fun m =>
    annotateMove game responses cfg m.2 m.1.1 m.1.2

theorem entriesOf_walk (player : Color) :
    entriesOf (walk game responses cfg exp 0 {} game.moves).moves player
      = annotationsOf game responses cfg 0 game.moves player := by
  rw [walk_moves, entriesOf, annotationsOf]
  show ([] ++ _).filter _ = _
  rw [List.nil_append, List.filter_map]
  rfl

theorem walk_losses (player : Color) :
    ((walk game responses cfg exp 0 {} game.moves).of player).winrateLossSum =
        ((annotationsOf game responses cfg 0 game.moves player).map
          MoveAnnotation.winrateLoss).sum ∧
      ((walk game responses cfg exp 0 {} game.moves).of player).scoreLossSum =
        ((annotationsOf game responses cfg 0 game.moves player).map
          MoveAnnotation.scoreLoss).sum := by
  have htotals := walk_tallied exp game responses cfg game.moves 0 (Walk.tallied_empty exp) player
  rw [entriesOf_walk] at htotals
  exact ⟨htotals.winrateLoss, htotals.scoreLoss⟩

end

/-! ## the contract -/

/-- what the payload says of move `i` was reported by the engine -/
structure LossReported (turns : List TurnResponse) (i : Nat) (a : MoveAnnotation) : Prop where
  missing : (evalsAt turns i a.color).1 = none ∨ (evalsAt turns i a.color).2 = none →
    a.winrateLoss = 0 ∧ a.scoreLoss = 0 ∧
      a.winrateClassification = .good ∧ a.scoreClassification = .good
  winrate : a.winrateLoss ≠ 0 → ∃ before after,
    evalsAt turns i a.color = (some before, some after) ∧
      a.winrateLoss = max 0 (before.winrate - after.winrate)
  score : a.scoreLoss ≠ 0 → ∃ before after,
    evalsAt turns i a.color = (some before, some after) ∧
      a.scoreLoss = max 0 (before.scoreLead - after.scoreLead)

/-- what a player lost in the moves whose evaluations were both reported -/
def totalLoss (game : ParsedGame) (turns : List TurnResponse) (lens : Eval → ℚ)
    (player : Color) : ℚ :=
  ((game.moves.zipIdx.filter fun m => m.1.1 = player).map fun m =>
    reportedLoss lens (evalsAt turns m.2 m.1.1)).sum

/-- a player's mean losses are over what was reported -/
structure MeansReported (game : ParsedGame) (turns : List TurnResponse) (player : Color)
    (report : PlayerReport) : Prop where
  winrate : report.meanWinrateLoss =
    totalLoss game turns Eval.winrate player / ((max report.moves 1 : Nat) : ℚ)
  score : report.meanScoreLoss =
    totalLoss game turns Eval.scoreLead player / ((max report.moves 1 : Nat) : ℚ)

structure LossesReported (game : ParsedGame) (turns : List TurnResponse) (out : GameAnalysis) :
    Prop where
  moves : ∀ i a, out.moves[i]? = some a → LossReported turns i a
  black : MeansReported game turns .black out.report.black
  white : MeansReported game turns .white out.report.white

/-- after a missing evaluation no move looks worse than an even position -/
def EvenAfterMissing (game : ParsedGame) (turns : List TurnResponse) : Prop :=
  ∀ i color mv after, game.moves[i]? = some (color, mv) →
    evalsAt turns i color = (none, some after) → 1 / 2 ≤ after.winrate ∧ 0 ≤ after.scoreLead

theorem reportedLoss_missing (lens : Eval → ℚ) {evals : Option Eval × Option Eval}
    (h : evals.1 = none ∨ evals.2 = none) : reportedLoss lens evals = 0 := by
  obtain ⟨before, after⟩ := evals
  cases before with
  | none => rfl
  | some before =>
    cases after with
    | none => rfl
    | some after => simp at h

theorem reportedLoss_ne {lens : Eval → ℚ} {evals : Option Eval × Option Eval}
    (h : reportedLoss lens evals ≠ 0) : ∃ before after, evals = (some before, some after) ∧
      reportedLoss lens evals = max 0 (lens before - lens after) := by
  obtain ⟨before, after⟩ := evals
  cases before with
  | none => exact absurd rfl h
  | some before =>
    cases after with
    | none => exact absurd rfl h
    | some after => exact ⟨before, after, rfl, rfl⟩

theorem classify_zero : classifyWinrate 0 = .good ∧ classifyScore 0 = .good := by
  decide +kernel

section
variable (exp : ℚ → ℚ) (game : ParsedGame) (turns : List TurnResponse) (cfg : EngineConfig)
  (humanProfile : Option String)

theorem annotateMove_reported (h : EvenAfterMissing game turns) {i : Nat} {color : Color}
    {mv : String} (hm : game.moves[i]? = some (color, mv)) :
    (annotateMove game (byTurn turns) cfg i color mv).winrateLoss
        = reportedLoss Eval.winrate (evalsAt turns i color) ∧
      (annotateMove game (byTurn turns) cfg i color mv).scoreLoss
        = reportedLoss Eval.scoreLead (evalsAt turns i color) := by
  obtain ⟨hlost, hrep⟩ := annotateMove_losses game turns cfg i color mv
  by_cases he : ∃ after, evalsAt turns i color = (none, some after)
  · obtain ⟨after, he⟩ := he
    obtain ⟨hw, hs⟩ := h i color mv after hm he
    obtain ⟨hlw, hls⟩ := hlost after he
    have hmiss : (evalsAt turns i color).1 = none ∨ (evalsAt turns i color).2 = none :=
      Or.inl (congrArg Prod.fst he)
    rw [hlw, hls, reportedLoss_missing _ hmiss, reportedLoss_missing _ hmiss]
    exact ⟨max_eq_right (sub_nonpos.mpr hw), max_eq_right (sub_nonpos.mpr hs)⟩
  · exact hrep fun after ha => he ⟨after, ha⟩

theorem assemble_moves_iff {i : Nat} {a : MoveAnnotation} :
    (assemble exp game turns cfg humanProfile).moves[i]? = some a ↔ ∃ color mv,
      game.moves[i]? = some (color, mv) ∧
        annotateMove game (byTurn turns) cfg i color mv = a := by
  rw [assemble_move, Option.map_eq_some_iff]
  constructor
  · rintro ⟨⟨color, mv⟩, hm, ha⟩
    exact ⟨color, mv, hm, ha⟩
  · rintro ⟨color, mv, hm, ha⟩
    exact ⟨(color, mv), hm, ha⟩

theorem sums_reported (h : EvenAfterMissing game turns) (player : Color) :
    ((annotationsOf game (byTurn turns) cfg 0 game.moves player).map
        MoveAnnotation.winrateLoss).sum = totalLoss game turns Eval.winrate player ∧
      ((annotationsOf game (byTurn turns) cfg 0 game.moves player).map
        MoveAnnotation.scoreLoss).sum = totalLoss game turns Eval.scoreLead player := by
  have hreported : ∀ m ∈ game.moves.zipIdx.filter fun m => m.1.1 = player,
      (annotateMove game (byTurn turns) cfg m.2 m.1.1 m.1.2).winrateLoss
          = reportedLoss Eval.winrate (evalsAt turns m.2 m.1.1) ∧
        (annotateMove game (byTurn turns) cfg m.2 m.1.1 m.1.2).scoreLoss
          = reportedLoss Eval.scoreLead (evalsAt turns m.2 m.1.1) := by
    intro m hm
    have hm' := List.mem_zipIdx_iff_getElem?.mp (List.mem_filter.mp hm).1
    exact annotateMove_reported game turns cfg h hm'
  rw [annotationsOf, List.map_map, List.map_map, totalLoss, totalLoss]
  exact ⟨congrArg List.sum (List.map_congr_left fun m hm => (hreported m hm).1),
    congrArg List.sum (List.map_congr_left fun m hm => (hreported m hm).2)⟩

theorem means_reported (h : EvenAfterMissing game turns) (player : Color) :
    MeansReported game turns player
      (((walk game (byTurn turns) cfg exp 0 {} game.moves).of player).finish game.boardSize) := by
  obtain ⟨hw, hs⟩ := walk_losses game (byTurn turns) cfg exp player
  obtain ⟨hrw, hrs⟩ := sums_reported game turns cfg h player
  rw [hrw] at hw
  rw [hrs] at hs
  exact ⟨congrArg (· / _) hw, congrArg (· / _) hs⟩

/-- **No loss is invented** exactly when after a missing evaluation no move looks worse than
even. -/
theorem losses_iff : LossesReported game turns (assemble exp game turns cfg humanProfile) ↔
    EvenAfterMissing game turns := by
  constructor
  · intro h i color mv after hm he
    have ha := (assemble_moves_iff exp game turns cfg humanProfile).mpr ⟨color, mv, hm, rfl⟩
    obtain ⟨hw, hs, -, -⟩ := (h.moves i _ ha).missing (Or.inl (congrArg Prod.fst he))
    obtain ⟨hlw, hls⟩ := (annotateMove_losses game turns cfg i color mv).1 after he
    rw [hlw] at hw
    rw [hls] at hs
    exact ⟨sub_nonpos.mp (max_eq_right_iff.mp hw), sub_nonpos.mp (max_eq_right_iff.mp hs)⟩
  · intro h
    refine ⟨fun i a ha => ?_, means_reported exp game turns cfg h .black,
      means_reported exp game turns cfg h .white⟩
    obtain ⟨color, mv, hm, rfl⟩ := (assemble_moves_iff exp game turns cfg humanProfile).mp ha
    obtain ⟨hw, hs⟩ := annotateMove_reported game turns cfg h hm
    refine ⟨fun hmiss => ?_, fun hne => ?_, fun hne => ?_⟩
    · have hw0 := hw.trans (reportedLoss_missing Eval.winrate hmiss)
      have hs0 := hs.trans (reportedLoss_missing Eval.scoreLead hmiss)
      exact ⟨hw0, hs0, (congrArg classifyWinrate hw0).trans classify_zero.1,
        (congrArg classifyScore hs0).trans classify_zero.2⟩
    · rw [hw] at hne ⊢
      exact reportedLoss_ne hne
    · rw [hs] at hne ⊢
      exact reportedLoss_ne hne

end

/-! ## a missing first evaluation -/

def firstTurnMissing : List TurnResponse := [rootTurn 1 (9 / 10), rootTurn 2 (1 / 10)]

theorem losses_not : ¬ ∀ (exp : ℚ → ℚ) (game : ParsedGame) (turns : List TurnResponse)
    (cfg : EngineConfig) (humanProfile : Option String),
      LossesReported game turns (assemble exp game turns cfg humanProfile) := by
  intro h
  have hout := h id twoMoveGame firstTurnMissing twoPassConfig none
  have hmissing : (evalsAt firstTurnMissing 0 .black).1 = none := by decide +kernel
  have hloss : (annotateMove twoMoveGame (byTurn firstTurnMissing) twoPassConfig 0 .black
      "E5").winrateLoss ≠ 0 := by decide +kernel
  exact hloss (hout.moves 0 _ rfl |>.missing (Or.inl hmissing)).1

end KatagoWs
