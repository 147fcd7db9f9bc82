import KatagoWs.Engine.Arrival
import KatagoWs.Engine.Grids

/-!
# What the refining pass searches, and what is kept of it

* `Changed`           the two screened evaluations of a move are not both present, or differ enough;
* `turns_refined`     the turns refined are those of the changed moves;
* `refineCall`        the call of the refining pass: one position a turn (`refineCall_cmd`);
* `screened_good`     at the classification thresholds a move that is not refined is good;
* `mem_mergeTurns`    a merged turn is the last refined response, else the last screened one.
-/

namespace KatagoWs
open Lib

/-! ## the turns of the changed moves -/

section
variable (game : ParsedGame) (screened : List TurnResponse) (cfg : EngineConfig)

def screenedEvals (i : Nat) (color : Color) : Option Eval × Option Eval :=
  evalsSeenBy color (screenedRoots screened i) (screenedRoots screened (i + 1))

/-- the two screened evaluations are not both present, or differ by one of the deltas -/
def Changed (i : Nat) (color : Color) : Prop :=
  (screenedEvals screened i color).1 = none ∨ (screenedEvals screened i color).2 = none ∨
    ∃ before after, screenedEvals screened i color = (some before, some after) ∧
      (cfg.refineWinrateDelta ≤ |before.winrate - after.winrate| ∨
        cfg.refineScoreDelta ≤ |before.scoreLead - after.scoreLead|)

theorem swings_iff (i : Nat) (color : Color) :
    swings cfg color (screenedRoots screened i) (screenedRoots screened (i + 1)) = true ↔
      Changed screened cfg i color := by
  rw [swings, Changed, screenedEvals, moveEvals_eq]
  generalize evalsSeenBy color (screenedRoots screened i) (screenedRoots screened (i + 1)) = evals
  obtain ⟨before, after⟩ := evals
  cases before with
  | none => simp
  | some before =>
    cases after with
    | none => simp
    | some after => simp

theorem turns_refined (t : Nat) : t ∈ turnsToRefine game screened cfg ↔
    ∃ i color mv, game.moves[i]? = some (color, mv) ∧ Changed screened cfg i color ∧
      (t = i ∨ t = i + 1) := by
  rw [mem_turnsToRefine]
  constructor
  · rintro ⟨i, ⟨color, mv, hm, hs⟩, ht⟩
    exact ⟨i, color, mv, hm, (swings_iff screened cfg i color).mp hs, ht⟩
  · rintro ⟨i, color, mv, hm, hc, ht⟩
    exact ⟨i, ⟨color, mv, hm, (swings_iff screened cfg i color).mpr hc⟩, ht⟩

theorem turnsToRefine_le {t : Nat} (h : t ∈ turnsToRefine game screened cfg) :
    t ≤ game.moves.length := by
  obtain ⟨i, hi, ht⟩ := (mem_turnsToRefine game cfg screened t).mp h
  have hlt := hi.lt
  rcases ht with rfl | rfl
  · exact le_of_lt hlt
  · exact hlt

/-! ## the refining query -/

def refineCall (humanProfile : Option String) : AnalyzeCall :=
  { game, cfg
    turns := (turnsToRefine game screened cfg).sort (· ≤ ·)
    maxVisits := cfg.maxVisits
    priority := Pass.refine.priority
    humanProfile }

theorem search_refines (e : AnalysisEngine) (katago : AnalyzeCall → AppResult (List TurnResponse))
    (humanProfile : Option String) :
    e.pass katago .refine game ((turnsToRefine game screened e.cfg).sort (· ≤ ·)) e.cfg.maxVisits
      humanProfile = katago (refineCall game screened e.cfg humanProfile) := rfl

/-- **The refining query** asks for every refined turn once, and waits for as many answers. -/
theorem refineCall_cmd {humanProfile : Option String} {tx : ReplyTx} {cmd : AnalyzeCmd}
    (h : (refineCall game screened cfg humanProfile).cmd tx = some cmd) :
    cmd.query.analyzeTurns.Nodup ∧
      (∀ t, t ∈ cmd.query.analyzeTurns ↔ t ∈ turnsToRefine game screened cfg) ∧
      cmd.expected = (turnsToRefine game screened cfg).card := by
  have hexp := (AnalyzeCall.cmd_some h).2.1
  have hturns : cmd.query.analyzeTurns = (turnsToRefine game screened cfg).sort (· ≤ ·) := by
    unfold AnalyzeCall.cmd at h
    simp only [Option.ite_none_left_eq_some, Option.some.injEq] at h
    rw [← h.2]
    rfl
  rw [hturns, hexp]
  refine ⟨Finset.sort_nodup _ _, fun t => Finset.mem_sort _, ?_⟩
  exact Finset.length_sort _

/-! ## what the screening says of a move -/

def evaluated : List TurnResponse := screened.filter fun r => r.rootInfo.isSome

theorem screenedRoots_evaluated (t : Nat) :
    (byTurn (evaluated screened) t).bind TurnResponse.rootInfo = screenedRoots screened t := by
  rw [byTurn_eq_lastBy]
  induction screened with
  | nil => rfl
  | cons r l ih =>
    cases hr : r.rootInfo with
    | none =>
      have hroot : r.root = none := by
        rw [TurnResponse.root, hr]
        rfl
      have hl : evaluated (r :: l) = evaluated l := List.filter_cons_of_neg (by simp [hr])
      rw [hl, ih, screenedRoots, screenedRoots, List.filterMap_cons_none hroot]
    | some root =>
      have hroot : r.root = some (r.turnNumber, root) := by
        rw [TurnResponse.root, hr]
        rfl
      have hl : evaluated (r :: l) = r :: evaluated l := List.filter_cons_of_pos (by simp [hr])
      rw [hl, screenedRoots, List.filterMap_cons_some hroot, overlay_cons, ← screenedRoots, ← ih]
      rw [lastBy, keyed, List.map_cons, overlay_cons, ← keyed, ← lastBy]
      cases hlast : lastBy TurnResponse.turnNumber (evaluated l) t with
      | none =>
        by_cases ht : r.turnNumber = t
        · simp [ht, hr]
        · simp [ht]
      | some r' =>
        -- a later response with an evaluation hides this one on both sides
        have hmem := (List.mem_filter.mp (lastBy_mem hlast).1).2
        obtain ⟨root', hr'⟩ := Option.isSome_iff_exists.mp hmem
        simp [hr']

theorem screenedRoots_once (h : (screened.map TurnResponse.turnNumber).Nodup) (t : Nat) :
    (byTurn screened t).bind TurnResponse.rootInfo = screenedRoots screened t := by
  have hkeyed : ((keyed TurnResponse.turnNumber screened).map Prod.fst).Nodup := by
    rw [keyed_fst]
    exact h
  refine Option.ext fun root => ?_
  rw [byTurn_eq_lastBy, Option.bind_eq_some_iff, screenedRoots,
    overlay_nodup (h.sublist (roots_keys screened)), List.mem_filterMap]
  constructor
  · rintro ⟨r, hr, hroot⟩
    obtain ⟨hmem, rfl⟩ := lastBy_mem hr
    exact ⟨r, hmem, by rw [TurnResponse.root, hroot]; rfl⟩
  · rintro ⟨r, hmem, hroot⟩
    obtain ⟨root', hr, he⟩ := Option.map_eq_some_iff.mp hroot
    obtain ⟨rfl, rfl⟩ := Prod.mk.inj he
    exact ⟨r, (overlay_nodup hkeyed).mpr (mem_keyed.mpr ⟨hmem, rfl⟩), hr⟩

variable {screened}

/-- **At the classification thresholds** a move whose screened evaluations do not swing is good
under both lenses. -/
theorem screened_good (hw : cfg.refineWinrateDelta ≤ 3 / 100) (hs : cfg.refineScoreDelta ≤ 1)
    {responses : Nat → Option TurnResponse}
    (hr : ∀ t, (responses t).bind TurnResponse.rootInfo = screenedRoots screened t) {i : Nat}
    {color : Color} (hn : ¬ Changed screened cfg i color) (mv : String) :
    (annotateMove game responses cfg i color mv).winrateClassification = .good ∧
      (annotateMove game responses cfg i color mv).scoreClassification = .good := by
  obtain ⟨hbefore, hafter, hdiff⟩ := not_or.mp hn |>.imp_right not_or.mp
  obtain ⟨before, hb⟩ := Option.ne_none_iff_exists'.mp hbefore
  obtain ⟨after, ha⟩ := Option.ne_none_iff_exists'.mp hafter
  have he : screenedEvals screened i color = (some before, some after) := Prod.ext hb ha
  have hsmall : ¬ (cfg.refineWinrateDelta ≤ |before.winrate - after.winrate| ∨
      cfg.refineScoreDelta ≤ |before.scoreLead - after.scoreLead|) :=
    fun h => hdiff ⟨before, after, he, h⟩
  obtain ⟨hwin, hscore⟩ := not_or.mp hsmall
  have hevals : moveEvals color ((responses i).bind TurnResponse.rootInfo)
      ((responses (i + 1)).bind TurnResponse.rootInfo) = (some before, some after) := by
    rw [hr, hr, moveEvals_eq]
    exact he
  have hwl : (annotateMove game responses cfg i color mv).winrateClassification
      = classifyWinrate (max (before.winrate - after.winrate) 0) := by
    unfold annotateMove
    rw [hevals]
    rfl
  have hsl : (annotateMove game responses cfg i color mv).scoreClassification
      = classifyScore (max (before.scoreLead - after.scoreLead) 0) := by
    unfold annotateMove
    rw [hevals]
    rfl
  rw [hwl, hsl]
  constructor
  · refine if_pos (max_lt ?_ (by norm_num))
    exact lt_of_lt_of_le (lt_of_le_of_lt (le_abs_self _) (not_le.mp hwin)) hw
  · refine if_pos (max_lt ?_ (by norm_num))
    exact lt_of_lt_of_le (lt_of_le_of_lt (le_abs_self _) (not_le.mp hscore)) hs

end

/-! ## merging -/

theorem lastBy_answers {turns : List TurnResponse} {t : Nat} {r : TurnResponse} :
    lastBy TurnResponse.turnNumber turns t = some r ↔ Answers turns t r := by
  rw [← byTurn_eq_lastBy]
  exact byTurn_iff

/-- **A merged turn** is the last refined response of its number, else the last screened one. -/
theorem mem_mergeTurns (screened refined : List TurnResponse) (r : TurnResponse) :
    r ∈ mergeTurns screened refined ↔ Answers refined r.turnNumber r ∨
      (r.turnNumber ∉ refined.map TurnResponse.turnNumber ∧ Answers screened r.turnNumber r) := by
  rw [mergeTurns, mem_mergeBy, Option.or_eq_some_iff, lastBy_answers, lastBy_eq_none,
    lastBy_answers]

theorem mergeTurns_numbers (screened refined : List TurnResponse) (t : Nat) :
    t ∈ (mergeTurns screened refined).map TurnResponse.turnNumber ↔
      t ∈ screened.map TurnResponse.turnNumber ∨ t ∈ refined.map TurnResponse.turnNumber := by
  have hmerge : lastBy TurnResponse.turnNumber (mergeTurns screened refined) t = none ↔
      lastBy TurnResponse.turnNumber refined t = none ∧
        lastBy TurnResponse.turnNumber screened t = none := by
    rw [mergeTurns, lastBy_mergeBy, Option.or_eq_none_iff]
  rw [lastBy_eq_none, lastBy_eq_none, lastBy_eq_none] at hmerge
  have hnot := not_congr hmerge
  rw [not_and_or, not_not, not_not, not_not] at hnot
  exact hnot.trans or_comm

/-! ## the refinement -/

/-- a move that the payload of some responses calls worse than good, in one of the lenses -/
def CalledWorse (out : GameAnalysis) (i : Nat) : Prop :=
  ∃ a, out.moves[i]? = some a ∧ (a.winrateClassification ≠ .good ∨ a.scoreClassification ≠ .good)

theorem refined_of_worse {game : ParsedGame} {screened answers : List TurnResponse}
    {cfg : EngineConfig} (hw : cfg.refineWinrateDelta = 3 / 100) (hs : cfg.refineScoreDelta = 1)
    (hr : ∀ t, (byTurn answers t).bind TurnResponse.rootInfo = screenedRoots screened t)
    {exp : ℚ → ℚ} {humanProfile : Option String} {i : Nat}
    (h : CalledWorse (assemble exp game answers cfg humanProfile) i) :
    i ∈ turnsToRefine game screened cfg ∧ i + 1 ∈ turnsToRefine game screened cfg := by
  obtain ⟨a, ha, hbad⟩ := h
  rw [assemble_move, Option.map_eq_some_iff] at ha
  obtain ⟨⟨color, mv⟩, hm, rfl⟩ := ha
  have hc : Changed screened cfg i color := by
    by_contra hn
    obtain ⟨hwin, hscore⟩ := screened_good game cfg (le_of_eq hw) (le_of_eq hs) hr hn mv
    rcases hbad with hbad | hbad
    · exact hbad hwin
    · exact hbad hscore
  exact ⟨(turns_refined game screened cfg i).mpr ⟨i, color, mv, hm, hc, Or.inl rfl⟩,
    (turns_refined game screened cfg (i + 1)).mpr ⟨i, color, mv, hm, hc, Or.inr rfl⟩⟩

/-- **Refinement** selects the two turns of every changed move, asks for each once, misses no move
that the screening calls worse than good, and a merge keeps one response a turn. -/
theorem refinement_exact (game : ParsedGame) (screened : List TurnResponse) (cfg : EngineConfig) :
    (∀ t, t ∈ turnsToRefine game screened cfg ↔
      ∃ i color mv, game.moves[i]? = some (color, mv) ∧ Changed screened cfg i color ∧
        (t = i ∨ t = i + 1)) ∧
    (∀ t ∈ turnsToRefine game screened cfg, t ≤ game.moves.length) ∧
    (∀ humanProfile tx cmd, (refineCall game screened cfg humanProfile).cmd tx = some cmd →
      cmd.query.analyzeTurns.Nodup ∧
        (∀ t, t ∈ cmd.query.analyzeTurns ↔ t ∈ turnsToRefine game screened cfg) ∧
        cmd.expected = (turnsToRefine game screened cfg).card) ∧
    (cfg.refineWinrateDelta = 3 / 100 → cfg.refineScoreDelta = 1 → ∀ exp humanProfile i,
      (CalledWorse (assemble exp game (evaluated screened) cfg humanProfile) i ∨
        (screened.map TurnResponse.turnNumber).Nodup ∧
          CalledWorse (assemble exp game screened cfg humanProfile) i) →
      i ∈ turnsToRefine game screened cfg ∧ i + 1 ∈ turnsToRefine game screened cfg) ∧
    ∀ first second : List TurnResponse,
      ((mergeTurns first second).Pairwise fun q r => q.turnNumber < r.turnNumber) ∧
      (∀ t, t ∈ (mergeTurns first second).map TurnResponse.turnNumber ↔
        t ∈ first.map TurnResponse.turnNumber ∨ t ∈ second.map TurnResponse.turnNumber) ∧
      ∀ r ∈ mergeTurns first second, Answers second r.turnNumber r ∨
        (r.turnNumber ∉ second.map TurnResponse.turnNumber ∧ Answers first r.turnNumber r) := by
  refine ⟨turns_refined game screened cfg, fun t => turnsToRefine_le game screened cfg,
    fun humanProfile tx cmd => refineCall_cmd game screened cfg, ?_, fun first second => ?_⟩
  · rintro hw hs exp humanProfile i (h | ⟨hnodup, h⟩)
    · exact refined_of_worse hw hs (screenedRoots_evaluated screened) h
    · exact refined_of_worse hw hs (screenedRoots_once screened hnodup) h
  · exact ⟨mergeBy_sorted _ _ _, mergeTurns_numbers first second,
      fun r => (mem_mergeTurns first second r).mp⟩

/-- Black's first move loses nearly everything in the screening -/
theorem refinement_exact_swing : 0 ∈ turnsToRefine twoMoveGame swingThenQuiet twoPassConfig ∧
    0 + 1 ∈ turnsToRefine twoMoveGame swingThenQuiet twoPassConfig := by
  have hworse : CalledWorse (assemble id twoMoveGame swingThenQuiet twoPassConfig none) 0 :=
    ⟨_, rfl, Or.inl (by decide +kernel)⟩
  exact (refinement_exact twoMoveGame swingThenQuiet twoPassConfig).2.2.2.1 rfl rfl id none 0
    (Or.inr ⟨by decide, hworse⟩)

end KatagoWs
