import Mathlib.Algebra.Order.Group.Unbundled.Abs
import Mathlib.Data.Finset.Sort
import KatagoWs.Engine.Annotate
import KatagoWs.Engine.Demux
import KatagoWs.Lib.Overlay

/-!
# Two-pass analysis

A screening pass searches every turn shallowly; the turns either side of a move that swings are
searched again at full depth, and the refined turns are laid over the screened ones.

* `turnsToRefine`, `mergeTurns`, `AnalysisEngine.analyze`   the source's functions;
* `mem_turnsToRefine`   a turn is refined exactly when a move beside it swings;
* `searchedTurns`       the merged turns, each with the visits it was searched with;
* `depths_kept`         neighbouring moves share a turn: every quiet move keeps its screening
                        exactly when all moves swing or none does, and no loss is the difference
                        of two depths exactly when the neighbours of every quiet move agree.
-/

namespace KatagoWs
open Lib

/-! ## the source's functions -/

def TurnResponse.root (turn : TurnResponse) : Option (Nat × RootInfo) :=
  turn.rootInfo.map fun root => (turn.turnNumber, root)

def screenedRoots (screened : List TurnResponse) : Nat → Option RootInfo :=
  overlay (screened.filterMap TurnResponse.root)

/-- whether the evaluations either side of a move by `color` differ enough; one that is missing
is not trusted -/
def swings (cfg : EngineConfig) (color : Color) (before after : Option RootInfo) : Bool :=
  match moveEvals color before after with
  | (some before, some after) =>
    decide (|before.winrate - after.winrate| ≥ cfg.refineWinrateDelta) ||
      decide (|before.scoreLead - after.scoreLead| ≥ cfg.refineScoreDelta)
  | _ => true

/-- The turns a screening pass says deserve a full-depth search. -/
def turnsToRefine (game : ParsedGame) (screened : List TurnResponse) (cfg : EngineConfig) :
    Finset Nat :=
  let roots := screenedRoots screened
  game.moves.zipIdx.foldl (fun refine m =>
    if swings cfg m.1.1 (roots m.2) (roots (m.2 + 1)) then
      insert (m.2 + 1) (insert m.2 refine)
    else refine) ∅

/-- Overlay the refined turns on the screened ones, by turn number. -/
def mergeTurns (screened refined : List TurnResponse) : List TurnResponse :=
  mergeBy TurnResponse.turnNumber screened refined

inductive Pass where
  | full
  | screen
  | refine

/-- Queue priority: refinement finishes games already in flight. -/
def Pass.priority : Pass → Int
  | .full => 0
  | .screen => 0
  | .refine => 1

structure AnalysisEngine where
  cfg : EngineConfig
  version : Option String

section
variable (goParse : String → Except String (List SgfNode)) (exp : ℚ → ℚ)
  (katago : AnalyzeCall → AppResult (List TurnResponse))

/-- One engine query over `turns`; `katago` is what the calls of the engine return. -/
def AnalysisEngine.pass (e : AnalysisEngine) (p : Pass) (game : ParsedGame) (turns : List Nat)
    (visits : Nat) (humanProfile : Option String) : AppResult (List TurnResponse) :=
  katago { game, cfg := e.cfg, turns, maxVisits := visits, priority := p.priority, humanProfile }

def AnalysisEngine.search (e : AnalysisEngine) (game : ParsedGame)
    (humanProfile : Option String) : AppResult (List TurnResponse) :=
  let allTurns := List.range (game.moves.length + 1)
  if e.cfg.twoPass then do
    let screened ← e.pass katago .screen game allTurns e.cfg.screenVisits humanProfile
    let refine := turnsToRefine game screened e.cfg
    let refined ← e.pass katago .refine game (refine.sort (· ≤ ·)) e.cfg.maxVisits humanProfile
    return mergeTurns screened refined
  else e.pass katago .full game allTurns e.cfg.maxVisits humanProfile

/-- Analyze a full game and annotate every move. -/
def AnalysisEngine.analyze (e : AnalysisEngine) (sgf : String) (humanProfile : Option String) :
    AppResult GameAnalysis := do
  let game ← parse goParse sgf e.cfg.defaultBoardSize e.cfg.defaultKomi
  -- without a human model a profile is dropped
  let humanProfile := humanProfile.filter fun _ => e.cfg.humanModel ≠ ""
  let turns ← e.search katago game humanProfile
  let analysis := assemble exp game turns e.cfg humanProfile
  return { analysis with engine := { analysis.engine with version := e.version } }

end

/-! ## the refined turns -/

section
variable (game : ParsedGame) (cfg : EngineConfig) (screened : List TurnResponse)

def Swings (i : Nat) : Prop :=
  ∃ color mv, game.moves[i]? = some (color, mv) ∧
    swings cfg color (screenedRoots screened i) (screenedRoots screened (i + 1)) = true

theorem Swings.lt {i : Nat} (h : Swings game cfg screened i) : i < game.moves.length := by
  obtain ⟨_, _, hm, _⟩ := h
  exact (List.getElem?_eq_some_iff.mp hm).1

theorem mem_turnsToRefine (t : Nat) :
    t ∈ turnsToRefine game screened cfg ↔
      ∃ i, Swings game cfg screened i ∧ (t = i ∨ t = i + 1) := by
  have key : ∀ (l : List (ColoredMove × Nat)) (acc : Finset Nat),
      t ∈ l.foldl (fun refine m =>
        if swings cfg m.1.1 (screenedRoots screened m.2) (screenedRoots screened (m.2 + 1)) then
          insert (m.2 + 1) (insert m.2 refine)
        else refine) acc ↔
      t ∈ acc ∨ ∃ m ∈ l, swings cfg m.1.1 (screenedRoots screened m.2)
        (screenedRoots screened (m.2 + 1)) = true ∧ (t = m.2 ∨ t = m.2 + 1) := by
    intro l
    induction l with
    | nil => simp
    | cons m l ih =>
      intro acc
      rw [List.foldl_cons, ih, List.exists_mem_cons_iff]
      split
      case isTrue h =>
        rw [Finset.mem_insert, Finset.mem_insert]
        simp only [h, true_and]
        constructor
        · rintro ((h1 | h1 | h1) | h1)
          · exact Or.inr (Or.inl (Or.inr h1))
          · exact Or.inr (Or.inl (Or.inl h1))
          · exact Or.inl h1
          · exact Or.inr (Or.inr h1)
        · rintro (h1 | (h1 | h1) | h1)
          · exact Or.inl (Or.inr (Or.inr h1))
          · exact Or.inl (Or.inr (Or.inl h1))
          · exact Or.inl (Or.inl h1)
          · exact Or.inr h1
      case isFalse h => simp [h]
  refine (key _ ∅).trans ?_
  constructor
  · rintro (h | ⟨⟨⟨color, mv⟩, i⟩, hm, hs, ht⟩)
    · exact absurd h (Finset.notMem_empty t)
    · exact ⟨i, ⟨color, mv, List.mem_zipIdx_iff_getElem?.mp hm, hs⟩, ht⟩
  · rintro ⟨i, ⟨color, mv, hm, hs⟩, ht⟩
    exact Or.inr ⟨((color, mv), i), List.mem_zipIdx_iff_getElem?.mpr hm, hs, ht⟩

end

/-! ## what a merged turn was searched with -/

structure Searched where
  response : TurnResponse
  visits : Nat

def searchedTurns (cfg : EngineConfig) (screened refined : List TurnResponse) : List Searched :=
  mergeBy (fun s => s.response.turnNumber) (screened.map fun r => ⟨r, cfg.screenVisits⟩)
    (refined.map fun r => ⟨r, cfg.maxVisits⟩)

def depthAt (cfg : EngineConfig) (screened refined : List TurnResponse) (t : Nat) : Option Nat :=
  (lastBy (fun s => s.response.turnNumber) (searchedTurns cfg screened refined) t).map
    Searched.visits

theorem searchedTurns_response (cfg : EngineConfig) (screened refined : List TurnResponse) :
    (searchedTurns cfg screened refined).map Searched.response = mergeTurns screened refined := by
  have h := mergeBy_map TurnResponse.turnNumber Searched.response
    (screened.map fun r => (⟨r, cfg.screenVisits⟩ : Searched))
    (refined.map fun r => (⟨r, cfg.maxVisits⟩ : Searched))
  rw [List.map_map, List.map_map] at h
  refine h.symm.trans ?_
  have hid : ∀ (v : Nat) (l : List TurnResponse),
      l.map (Searched.response ∘ fun r => ⟨r, v⟩) = l := fun v l => List.map_id l
  rw [hid, hid]
  rfl

theorem lastBy_tagged (v : Nat) (l : List TurnResponse) (t : Nat) :
    lastBy (fun s : Searched => s.response.turnNumber) (l.map fun r => ⟨r, v⟩) t
      = (lastBy TurnResponse.turnNumber l t).map fun r => ⟨r, v⟩ := by
  induction l with
  | nil => rfl
  | cons r l ih =>
    unfold lastBy keyed at ih ⊢
    rw [List.map_cons, List.map_cons, List.map_cons, overlay_cons, overlay_cons, ih]
    by_cases h : r.turnNumber = t
    · simp only [h, if_true]
      cases overlay (l.map fun a => (a.turnNumber, a)) t <;> rfl
    · simp only [h, if_false, Option.or_none]

theorem depthAt_eq (cfg : EngineConfig) (screened refined : List TurnResponse) (t : Nat) :
    depthAt cfg screened refined t =
      if t ∈ refined.map TurnResponse.turnNumber then some cfg.maxVisits
      else if t ∈ screened.map TurnResponse.turnNumber then some cfg.screenVisits
      else none := by
  have hcase : ∀ l : List TurnResponse, (t ∈ l.map TurnResponse.turnNumber ∧
      ∃ r, lastBy TurnResponse.turnNumber l t = some r) ∨
      (t ∉ l.map TurnResponse.turnNumber ∧ lastBy TurnResponse.turnNumber l t = none) := by
    intro l
    cases h : lastBy TurnResponse.turnNumber l t with
    | none => exact Or.inr ⟨lastBy_eq_none.mp h, rfl⟩
    | some r => exact Or.inl ⟨List.mem_map.mpr ⟨r, lastBy_mem h⟩, r, rfl⟩
  unfold depthAt searchedTurns
  rw [lastBy_mergeBy, lastBy_tagged, lastBy_tagged]
  rcases hcase refined with ⟨hr, r, he⟩ | ⟨hr, he⟩
  · rw [if_pos hr, he]
    rfl
  · rw [if_neg hr, he]
    rcases hcase screened with ⟨hs, r, he⟩ | ⟨hs, he⟩
    · rw [if_pos hs, he]
      rfl
    · rw [if_neg hs, he]
      rfl

/-! ## neighbouring moves share a turn -/

section
variable {game : ParsedGame} {cfg : EngineConfig} {screened refined : List TurnResponse}

theorem screened_of_quiet {i : Nat} (hi : i < game.moves.length)
    (hq : ¬ Swings game cfg screened i) :
    i ∈ screened.map TurnResponse.turnNumber ∧ i + 1 ∈ screened.map TurnResponse.turnNumber := by
  have hroot : ∀ {t : Nat} {root : RootInfo}, screenedRoots screened t = some root →
      t ∈ screened.map TurnResponse.turnNumber := by
    intro t root h
    obtain ⟨r, hr, he⟩ := List.mem_filterMap.mp (overlay_mem h)
    obtain ⟨_, _, hp⟩ := Option.map_eq_some_iff.mp he
    exact List.mem_map.mpr ⟨r, hr, (Prod.mk.inj hp).1⟩
  have hs : swings cfg game.moves[i].1 (screenedRoots screened i)
      (screenedRoots screened (i + 1)) = false := by
    refine Bool.eq_false_iff.mpr fun h => hq ⟨game.moves[i].1, game.moves[i].2, ?_, h⟩
    exact List.getElem?_eq_getElem hi
  cases h0 : screenedRoots screened i with
  | none =>
    rw [h0] at hs
    exact absurd hs (by simp [swings, moveEvals])
  | some a =>
    cases h1 : screenedRoots screened (i + 1) with
    | none =>
      rw [h0, h1] at hs
      exact absurd hs (by simp [swings, moveEvals])
    | some b => exact ⟨hroot h0, hroot h1⟩

/-- the refining pass answers the turns it was asked for -/
def Refined (game : ParsedGame) (cfg : EngineConfig) (screened refined : List TurnResponse) :
    Prop :=
  ∀ t, t ∈ refined.map TurnResponse.turnNumber ↔ t ∈ turnsToRefine game screened cfg

/-- the two turns of a move were searched full depth when refined, and screened when not -/
theorem depthAt_beside (hr : Refined game cfg screened refined) {i t : Nat}
    (hi : i < game.moves.length) (ht : t = i ∨ t = i + 1) :
    depthAt cfg screened refined t =
      if t ∈ turnsToRefine game screened cfg then some cfg.maxVisits
      else some cfg.screenVisits := by
  rw [depthAt_eq]
  by_cases h : t ∈ turnsToRefine game screened cfg
  · rw [if_pos ((hr t).mpr h), if_pos h]
  · have hq : ¬ Swings game cfg screened i :=
      fun hs => h ((mem_turnsToRefine game cfg screened t).mpr ⟨i, hs, ht⟩)
    have hs : t ∈ screened.map TurnResponse.turnNumber := by
      rcases ht with rfl | rfl
      · exact (screened_of_quiet hi hq).1
      · exact (screened_of_quiet hi hq).2
    rw [if_neg (fun hm => h ((hr t).mp hm)), if_neg h, if_pos hs]

def SearchedWith (cfg : EngineConfig) (screened refined : List TurnResponse) (visits i : Nat) :
    Prop :=
  depthAt cfg screened refined i = some visits ∧ depthAt cfg screened refined (i + 1) = some visits

/-- no loss is the difference of two depths -/
def OneDepth (game : ParsedGame) (cfg : EngineConfig) (screened refined : List TurnResponse) :
    Prop :=
  ∀ i < game.moves.length, SearchedWith cfg screened refined cfg.maxVisits i ∨
    SearchedWith cfg screened refined cfg.screenVisits i

/-- a swinging move has its full depth, and a quiet one keeps its screening -/
def OwnDepth (game : ParsedGame) (cfg : EngineConfig) (screened refined : List TurnResponse) :
    Prop :=
  ∀ i < game.moves.length,
    (Swings game cfg screened i → SearchedWith cfg screened refined cfg.maxVisits i) ∧
    (¬ Swings game cfg screened i → SearchedWith cfg screened refined cfg.screenVisits i)

/-- the moves either side of a quiet one both swing, or neither does -/
def NeighboursAgree (game : ParsedGame) (cfg : EngineConfig) (screened : List TurnResponse) :
    Prop :=
  ∀ i < game.moves.length, ¬ Swings game cfg screened i →
    ((∃ j, j + 1 = i ∧ Swings game cfg screened j) ↔ Swings game cfg screened (i + 1))

def AllOrNone (game : ParsedGame) (cfg : EngineConfig) (screened : List TurnResponse) : Prop :=
  (∀ i < game.moves.length, Swings game cfg screened i) ∨
    ∀ i < game.moves.length, ¬ Swings game cfg screened i

theorem refine_turn {i : Nat} : i ∈ turnsToRefine game screened cfg ↔
    Swings game cfg screened i ∨ ∃ j, j + 1 = i ∧ Swings game cfg screened j := by
  rw [mem_turnsToRefine]
  constructor
  · rintro ⟨j, hj, rfl | rfl⟩
    · exact Or.inl hj
    · exact Or.inr ⟨j, rfl, hj⟩
  · rintro (h | ⟨j, rfl, hj⟩)
    · exact ⟨i, h, Or.inl rfl⟩
    · exact ⟨j, hj, Or.inr rfl⟩

theorem refine_next {i : Nat} : i + 1 ∈ turnsToRefine game screened cfg ↔
    Swings game cfg screened i ∨ Swings game cfg screened (i + 1) := by
  rw [refine_turn, or_comm]
  refine or_congr_left ⟨?_, fun h => ⟨i, rfl, h⟩⟩
  rintro ⟨j, hj, hs⟩
  rw [Nat.add_right_cancel hj] at hs
  exact hs

/-- in both passes the visits are the whole query's, so a turn's depth says which pass it is of -/
theorem searchedWith_iff (hv : cfg.twoPass = true) (hr : Refined game cfg screened refined)
    {i : Nat} (hi : i < game.moves.length) :
    (SearchedWith cfg screened refined cfg.maxVisits i ↔
      i ∈ turnsToRefine game screened cfg ∧ i + 1 ∈ turnsToRefine game screened cfg) ∧
    (SearchedWith cfg screened refined cfg.screenVisits i ↔
      i ∉ turnsToRefine game screened cfg ∧ i + 1 ∉ turnsToRefine game screened cfg) := by
  have hlt : cfg.screenVisits < cfg.maxVisits := by
    simp only [EngineConfig.twoPass, Bool.and_eq_true, decide_eq_true_iff] at hv
    exact hv.2
  have hne : ¬ cfg.screenVisits = cfg.maxVisits := ne_of_lt hlt
  have hne' : ¬ cfg.maxVisits = cfg.screenVisits := Ne.symm hne
  unfold SearchedWith
  rw [depthAt_beside hr hi (Or.inl rfl), depthAt_beside hr hi (Or.inr rfl)]
  by_cases h0 : i ∈ turnsToRefine game screened cfg <;>
    by_cases h1 : i + 1 ∈ turnsToRefine game screened cfg <;>
    simp [h0, h1, hne, hne']

theorem oneDepth_iff (hv : cfg.twoPass = true) (hr : Refined game cfg screened refined) :
    OneDepth game cfg screened refined ↔ NeighboursAgree game cfg screened := by
  refine forall₂_congr fun i hi => ?_
  obtain ⟨hmax, hscreen⟩ := searchedWith_iff hv hr hi
  rw [hmax, hscreen, refine_turn, refine_next]
  by_cases h : Swings game cfg screened i
  · simp [h]
  · simp only [h, false_or, not_false_eq_true, forall_const]
    by_cases hj : ∃ j, j + 1 = i ∧ Swings game cfg screened j <;>
      by_cases hn : Swings game cfg screened (i + 1) <;> simp [hj, hn]

theorem ownDepth_iff (hv : cfg.twoPass = true) (hr : Refined game cfg screened refined) :
    OwnDepth game cfg screened refined ↔ AllOrNone game cfg screened := by
  constructor
  · intro h
    -- a quiet move shares no turn with a swinging one
    have hnext : ∀ i, i + 1 < game.moves.length →
        (Swings game cfg screened i ↔ Swings game cfg screened (i + 1)) := by
      intro i hi
      have hi' : i < game.moves.length := by omega
      constructor
      · intro hs
        by_contra hq
        have hnot := ((searchedWith_iff hv hr hi).2.mp ((h (i + 1) hi).2 hq)).1
        exact hnot (refine_next.mpr (Or.inl hs))
      · intro hs
        by_contra hq
        have hnot := ((searchedWith_iff hv hr hi').2.mp ((h i hi').2 hq)).2
        exact hnot (refine_next.mpr (Or.inr hs))
    have hall : ∀ i < game.moves.length,
        (Swings game cfg screened i ↔ Swings game cfg screened 0) := by
      intro i
      induction i with
      | zero => exact fun _ => Iff.rfl
      | succ i ih => exact fun hi => (hnext i hi).symm.trans (ih (by omega))
    by_cases h0 : Swings game cfg screened 0
    · exact Or.inl fun i hi => (hall i hi).mpr h0
    · exact Or.inr fun i hi hs => h0 ((hall i hi).mp hs)
  · rintro h i hi
    obtain ⟨hmax, hscreen⟩ := searchedWith_iff hv hr hi
    constructor
    · intro hs
      exact hmax.mpr ⟨refine_turn.mpr (Or.inl hs), refine_next.mpr (Or.inl hs)⟩
    · intro hq
      have hnone : ∀ j, ¬ Swings game cfg screened j := by
        intro j hj
        rcases h with h | h
        · exact hq (h i hi)
        · exact h j hj.lt hj
      refine hscreen.mpr ⟨fun ht => ?_, fun ht => ?_⟩
      · rcases refine_turn.mp ht with hs | ⟨j, _, hj⟩
        · exact hq hs
        · exact hnone j hj
      · exact (refine_next.mp ht).elim hq (hnone (i + 1))

/-! ## what the payload says of a move that keeps its pass -/

theorem byTurn_eq_lastBy (turns : List TurnResponse) (t : Nat) :
    byTurn turns t = lastBy TurnResponse.turnNumber turns t := by
  induction turns with
  | nil => rfl
  | cons r turns ih =>
    unfold byTurn lastBy keyed at ih ⊢
    rw [List.reverse_cons, List.find?_append, ih, List.map_cons, overlay_cons, List.find?_cons,
      List.find?_nil]
    by_cases h : r.turnNumber = t
    · simp [h]
    · have hb : (r.turnNumber == t) = false := beq_false_of_ne h
      simp [h, hb]

theorem byTurn_mergeTurns (t : Nat) :
    byTurn (mergeTurns screened refined) t = (byTurn refined t).or (byTurn screened t) := by
  rw [byTurn_eq_lastBy, byTurn_eq_lastBy, byTurn_eq_lastBy]
  exact lastBy_mergeBy _ _ _ _

theorem annotateMove_congr {a b : Nat → Option TurnResponse} {i : Nat} (h0 : a i = b i)
    (h1 : a (i + 1) = b (i + 1)) (color : Color) (mv : String) :
    annotateMove game a cfg i color mv = annotateMove game b cfg i color mv := by
  unfold annotateMove
  rw [h0, h1]

theorem assemble_move_congr (exp : ℚ → ℚ) (humanProfile : Option String)
    {turns turns' : List TurnResponse} {i : Nat} (h0 : byTurn turns i = byTurn turns' i)
    (h1 : byTurn turns (i + 1) = byTurn turns' (i + 1)) :
    (assemble exp game turns cfg humanProfile).moves[i]?
      = (assemble exp game turns' cfg humanProfile).moves[i]? := by
  rw [assemble_move, assemble_move]
  cases game.moves[i]? with
  | none => rfl
  | some m => exact congrArg some (annotateMove_congr h0 h1 m.1 m.2)

theorem byTurn_refined {t : Nat} (h : t ∈ refined.map TurnResponse.turnNumber) :
    byTurn (mergeTurns screened refined) t = byTurn refined t := by
  rw [byTurn_mergeTurns]
  cases hb : byTurn refined t with
  | none =>
    rw [byTurn_eq_lastBy] at hb
    exact absurd h (lastBy_eq_none.mp hb)
  | some r => rfl

theorem byTurn_screened {t : Nat} (h : t ∉ refined.map TurnResponse.turnNumber) :
    byTurn (mergeTurns screened refined) t = byTurn screened t := by
  rw [byTurn_mergeTurns, byTurn_eq_lastBy refined, lastBy_eq_none.mpr h]
  rfl

/-- a move whose two evaluations are of one pass is annotated as that pass alone would -/
structure PassKept (exp : ℚ → ℚ) (game : ParsedGame) (cfg : EngineConfig)
    (screened refined : List TurnResponse) (humanProfile : Option String) (i : Nat) : Prop where
  full : SearchedWith cfg screened refined cfg.maxVisits i →
    (assemble exp game (mergeTurns screened refined) cfg humanProfile).moves[i]?
      = (assemble exp game refined cfg humanProfile).moves[i]?
  quiet : SearchedWith cfg screened refined cfg.screenVisits i →
    (assemble exp game (mergeTurns screened refined) cfg humanProfile).moves[i]?
      = (assemble exp game screened cfg humanProfile).moves[i]?

theorem pass_kept (exp : ℚ → ℚ) (humanProfile : Option String) (hv : cfg.twoPass = true)
    (hr : Refined game cfg screened refined) {i : Nat} (hi : i < game.moves.length) :
    PassKept exp game cfg screened refined humanProfile i := by
  obtain ⟨hmax, hscreen⟩ := searchedWith_iff hv hr hi
  constructor
  · intro h
    obtain ⟨h0, h1⟩ := hmax.mp h
    exact assemble_move_congr exp humanProfile (byTurn_refined ((hr _).mpr h0))
      (byTurn_refined ((hr _).mpr h1))
  · intro h
    obtain ⟨h0, h1⟩ := hscreen.mp h
    exact assemble_move_congr exp humanProfile (byTurn_screened fun hm => h0 ((hr _).mp hm))
      (byTurn_screened fun hm => h1 ((hr _).mp hm))

/-- **Two passes** keep every move at its own depth exactly when all moves swing or none does; no
loss is the difference of two depths exactly when the neighbours of every quiet move agree. -/
theorem depths_kept (exp : ℚ → ℚ) (humanProfile : Option String) (hv : cfg.twoPass = true)
    (hr : Refined game cfg screened refined) :
    (OwnDepth game cfg screened refined ↔ AllOrNone game cfg screened) ∧
    (OneDepth game cfg screened refined ↔ NeighboursAgree game cfg screened) ∧
    ∀ i < game.moves.length, PassKept exp game cfg screened refined humanProfile i :=
  ⟨ownDepth_iff hv hr, oneDepth_iff hv hr, fun _ hi => pass_kept exp humanProfile hv hr hi⟩

end

/-! ## a swing beside a quiet move -/

def rootTurn (turn : Nat) (winrate : ℚ) : TurnResponse :=
  { turnNumber := turn
    rootInfo := some ⟨winrate, 0, none⟩
    moveInfos := []
    ownership := none
    ownershipStdev := none
    policy := none
    humanPolicy := none }

def twoMoveGame : ParsedGame :=
  { boardSize := 9
    komi := 7
    rules := .japanese
    result := none
    initialStones := []
    moves := [(.black, "E5"), (.white, "C3")] }

def twoPassConfig : EngineConfig :=
  { backend := .rocm
    model := "g170e-b10c128.bpk"
    maxVisits := 500
    analysisPvLen := 8
    includeOwnership := false
    includeOwnershipStdev := false
    includePolicy := false
    humanModel := ""
    topK := 5
    defaultKomi := 15 / 2
    defaultBoardSize := 19
    screenVisits := 16 }

/-- Black's move loses nearly everything, White's nothing -/
def swingThenQuiet : List TurnResponse :=
  [rootTurn 0 (1 / 2), rootTurn 1 (9 / 10), rootTurn 2 (1 / 10)]

def allQuiet : List TurnResponse :=
  [rootTurn 0 (1 / 2), rootTurn 1 (1 / 2), rootTurn 2 (1 / 2)]

theorem refine_swing : turnsToRefine twoMoveGame swingThenQuiet twoPassConfig = {0, 1} := by
  decide +kernel

theorem refine_quiet : turnsToRefine twoMoveGame allQuiet twoPassConfig = ∅ := by
  decide +kernel

theorem depths_kept_quiet :
    (OwnDepth twoMoveGame twoPassConfig allQuiet [] ↔
      AllOrNone twoMoveGame twoPassConfig allQuiet) ∧
    (OneDepth twoMoveGame twoPassConfig allQuiet [] ↔
      NeighboursAgree twoMoveGame twoPassConfig allQuiet) ∧
    ∀ i < twoMoveGame.moves.length, PassKept id twoMoveGame twoPassConfig allQuiet [] none i :=
  depths_kept id none (by decide) (by intro t; rw [refine_quiet]; simp)

/-- White's quiet move is charged the difference between a deep and a shallow search -/
theorem depths_mixed : ¬ ∀ (game : ParsedGame) (cfg : EngineConfig)
    (screened refined : List TurnResponse), cfg.twoPass = true →
      Refined game cfg screened refined → OneDepth game cfg screened refined := by
  intro h
  have hr : Refined twoMoveGame twoPassConfig swingThenQuiet
      [rootTurn 0 (1 / 2), rootTurn 1 (9 / 10)] := by
    intro t
    rw [refine_swing]
    simp [rootTurn]
  have hone := h _ _ _ _ (by decide) hr 1 (by decide)
  unfold SearchedWith at hone
  simp only [depthAt_eq] at hone
  exact absurd hone (by decide)

end KatagoWs
