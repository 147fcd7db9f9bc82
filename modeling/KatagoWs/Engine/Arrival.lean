import KatagoWs.Engine.TwoPass
import KatagoWs.Lib.Fallible

/-!
# The order in which the engine answers

The engine answers the turns of a query in any order.  What is made of the answers goes through
maps keyed by the turn number, so with distinct numbers the order is lost, and a response past
the end of the game is never read.

* `SameTurns n`      the same responses numbered up to `n`, each number once, in any order;
* `assemble_congr`   the payload reads the responses of the turns `0` to `moves.len()` only;
* `turnsToRefine_congr`   so do the turns to refine;
* `search_congr`     the queries of either pass are the same, and so are their readings;
* `order_free`       the payload of one pass and of two does not depend on the order.
-/

namespace KatagoWs
open Lib

/-- the same responses numbered up to `n`, each number once, in any order -/
structure SameTurns (n : Nat) (turns turns' : List TurnResponse) : Prop where
  once : ((turns.filter fun r => r.turnNumber ≤ n).map TurnResponse.turnNumber).Nodup
  perm : (turns.filter fun r => r.turnNumber ≤ n).Perm (turns'.filter fun r => r.turnNumber ≤ n)

theorem SameTurns.of_perm {turns turns' : List TurnResponse}
    (h : (turns.map TurnResponse.turnNumber).Nodup) (hp : turns.Perm turns') (n : Nat) :
    SameTurns n turns turns' :=
  ⟨h.sublist (List.filter_sublist.map _), hp.filter _⟩

theorem SameTurns.byTurn {n : Nat} {turns turns' : List TurnResponse}
    (h : SameTurns n turns turns') {t : Nat} (ht : t ≤ n) :
    byTurn turns t = byTurn turns' t := by
  have hkeep : ∀ l : List TurnResponse, lastBy TurnResponse.turnNumber l t
      = lastBy TurnResponse.turnNumber (l.filter fun r => r.turnNumber ≤ n) t := by
    intro l
    have hf := lastBy_filter TurnResponse.turnNumber (fun k => decide (k ≤ n)) l t
    rw [hf, if_pos (decide_eq_true ht)]
  rw [byTurn_eq_lastBy, byTurn_eq_lastBy, hkeep turns, hkeep turns']
  exact congrFun (lastBy_perm h.once h.perm) t

/-! ## the turns to refine -/

theorem root_key {turn : TurnResponse} {e : Nat × RootInfo} (h : turn.root = some e) :
    e.1 = turn.turnNumber := by
  obtain ⟨_, _, rfl⟩ := Option.map_eq_some_iff.mp h
  rfl

theorem roots_filter (n : Nat) (l : List TurnResponse) :
    (l.filterMap TurnResponse.root).filter (fun e => e.1 ≤ n)
      = (l.filter fun r => r.turnNumber ≤ n).filterMap TurnResponse.root := by
  induction l with
  | nil => rfl
  | cons r l ih =>
    cases hr : r.root with
    | none =>
      rw [List.filterMap_cons_none hr, ih, List.filter_cons]
      split
      · rw [List.filterMap_cons_none hr]
      · rfl
    | some e =>
      rw [List.filterMap_cons_some hr, List.filter_cons, List.filter_cons, ih, root_key hr]
      split
      · rw [List.filterMap_cons_some hr]
      · rfl

theorem roots_keys (l : List TurnResponse) :
    ((l.filterMap TurnResponse.root).map Prod.fst).Sublist (l.map TurnResponse.turnNumber) := by
  induction l with
  | nil => exact List.Sublist.refl _
  | cons r l ih =>
    cases hr : r.root with
    | none =>
      rw [List.filterMap_cons_none hr]
      exact ih.cons _
    | some e =>
      rw [List.filterMap_cons_some hr, List.map_cons, List.map_cons, root_key hr]
      exact ih.cons_cons _

theorem screenedRoots_congr {n : Nat} {screened screened' : List TurnResponse}
    (h : SameTurns n screened screened') {t : Nat} (ht : t ≤ n) :
    screenedRoots screened t = screenedRoots screened' t := by
  have hkeep : ∀ l : List TurnResponse, screenedRoots l t
      = overlay ((l.filter fun r => r.turnNumber ≤ n).filterMap TurnResponse.root) t := by
    intro l
    have hf := overlay_filter (fun k => decide (k ≤ n)) (l.filterMap TurnResponse.root) t
    rw [if_pos (decide_eq_true ht), roots_filter] at hf
    exact hf.symm
  rw [hkeep screened, hkeep screened']
  exact congrFun (overlay_perm (h.once.sublist (roots_keys _)) (h.perm.filterMap _)) t

theorem turnsToRefine_congr {game : ParsedGame} {screened screened' : List TurnResponse}
    (h : SameTurns game.moves.length screened screened') (cfg : EngineConfig) :
    turnsToRefine game screened cfg = turnsToRefine game screened' cfg := by
  have hswing : ∀ i, Swings game cfg screened i ↔ Swings game cfg screened' i := by
    intro i
    refine exists_congr fun color => exists_congr fun mv => and_congr_right fun hm => ?_
    have hi : i < game.moves.length := (List.getElem?_eq_some_iff.mp hm).1
    rw [screenedRoots_congr h (le_of_lt hi), screenedRoots_congr h hi]
  refine Finset.ext fun t => ?_
  rw [mem_turnsToRefine, mem_turnsToRefine]
  exact exists_congr fun i => and_congr_left fun _ => hswing i

/-! ## the payload -/

section
variable {game : ParsedGame} {a b : Nat → Option TurnResponse}

theorem walk_congr {cfg : EngineConfig} {exp : ℚ → ℚ} {moves : List ColoredMove} {index : Nat}
    (h : ∀ t ≤ index + moves.length, a t = b t) (s : Walk) :
    walk game a cfg exp index s moves = walk game b cfg exp index s moves := by
  induction moves generalizing index s with
  | nil => rfl
  | cons m moves ih =>
    obtain ⟨color, mv⟩ := m
    have h0 : a index = b index := h index (Nat.le_add_right _ _)
    have h1 : a (index + 1) = b (index + 1) := h (index + 1) (by simp)
    have hnext : s.next game a cfg exp index color mv = s.next game b cfg exp index color mv := by
      unfold Walk.next
      rw [annotateMove_congr h0 h1]
    show walk game a cfg exp (index + 1) (s.next game a cfg exp index color mv) moves
      = walk game b cfg exp (index + 1) (s.next game b cfg exp index color mv) moves
    rw [hnext]
    refine ih (fun t ht => h t ?_) _
    rw [List.length_cons]
    omega

theorem perTurnGrid_congr {T : Type} (h : ∀ t ≤ game.moves.length, a t = b t)
    (field : TurnResponse → Option (List ℚ)) (trailing : Nat) (encode : Nat → ℚ → T) :
    perTurnGrid game a field trailing encode = perTurnGrid game b field trailing encode := by
  have hrow : ∀ t ∈ List.range (game.moves.length + 1),
      gridRow game a field trailing encode t = gridRow game b field trailing encode t := by
    intro t ht
    unfold gridRow
    rw [h t (Nat.lt_succ_iff.mp (List.mem_range.mp ht))]
  unfold perTurnGrid
  rw [mapM_congr hrow]

end

/-- **The payload** reads the responses of the turns `0` to `moves.len()` only. -/
theorem assemble_congr {game : ParsedGame} {turns turns' : List TurnResponse}
    (h : ∀ t ≤ game.moves.length, byTurn turns t = byTurn turns' t) (exp : ℚ → ℚ)
    (cfg : EngineConfig) (humanProfile : Option String) :
    assemble exp game turns cfg humanProfile = assemble exp game turns' cfg humanProfile := by
  have hwalk : walk game (byTurn turns) cfg exp 0 {} game.moves
      = walk game (byTurn turns') cfg exp 0 {} game.moves :=
    walk_congr (fun t ht => h t (by omega)) {}
  have hownership : normaliseOwnership game (byTurn turns)
      = normaliseOwnership game (byTurn turns') := perTurnGrid_congr h _ _ _
  have hstdev : ownershipStdevGrid game (byTurn turns)
      = ownershipStdevGrid game (byTurn turns') := perTurnGrid_congr h _ _ _
  have hpolicy : ∀ field, policyGrid game (byTurn turns) field
      = policyGrid game (byTurn turns') field := fun field => perTurnGrid_congr h field _ _
  unfold assemble
  dsimp only
  rw [hwalk, hownership, hstdev, hpolicy, hpolicy]

/-! ## runs of the engine -/

/-- the two passes, and what is made of them, whatever the order of the responses -/
structure OrderFree (exp : ℚ → ℚ) (game : ParsedGame) (cfg : EngineConfig)
    (humanProfile : Option String) : Prop where
  refine : ∀ screened screened', SameTurns game.moves.length screened screened' →
    turnsToRefine game screened cfg = turnsToRefine game screened' cfg
  merge : ∀ screened screened' refined refined',
    (screened.map TurnResponse.turnNumber).Nodup → screened.Perm screened' →
    (refined.map TurnResponse.turnNumber).Nodup → refined.Perm refined' →
    mergeTurns screened refined = mergeTurns screened' refined'
  single : ∀ turns turns', SameTurns game.moves.length turns turns' →
    assemble exp game turns cfg humanProfile = assemble exp game turns' cfg humanProfile
  double : ∀ screened screened' refined refined',
    SameTurns game.moves.length screened screened' → SameTurns game.moves.length refined refined' →
    assemble exp game (mergeTurns screened refined) cfg humanProfile
      = assemble exp game (mergeTurns screened' refined') cfg humanProfile

theorem order_free_of (exp : ℚ → ℚ) (game : ParsedGame) (cfg : EngineConfig)
    (humanProfile : Option String) : OrderFree exp game cfg humanProfile where
  refine _ _ h := turnsToRefine_congr h cfg
  merge _ _ _ _ hs hps hr hpr := mergeBy_perm hs hr hps hpr
  single _ _ h := assemble_congr (fun _ ht => h.byTurn ht) exp cfg humanProfile
  double _ _ _ _ hs hr := by
    refine assemble_congr (fun t ht => ?_) exp cfg humanProfile
    rw [byTurn_mergeTurns, byTurn_mergeTurns, hs.byTurn ht, hr.byTurn ht]

/-- two engines that answer every query alike, up to the order of the responses and to those past
the end of the game -/
def SameAnswers (katago katago' : AnalyzeCall → AppResult (List TurnResponse)) : Prop :=
  ∀ call, Agree (SameTurns call.game.moves.length) (katago call) (katago' call)

theorem search_congr {katago katago' : AnalyzeCall → AppResult (List TurnResponse)}
    (h : SameAnswers katago katago') (e : AnalysisEngine) (game : ParsedGame)
    (humanProfile : Option String) :
    Agree (fun turns turns' => ∀ t ≤ game.moves.length, byTurn turns t = byTurn turns' t)
      (e.search katago game humanProfile) (e.search katago' game humanProfile) := by
  have hpass : ∀ p turns visits, Agree (SameTurns game.moves.length)
      (e.pass katago p game turns visits humanProfile)
      (e.pass katago' p game turns visits humanProfile) :=
    fun p turns visits => h { game, cfg := e.cfg, turns, maxVisits := visits,
                              priority := p.priority, humanProfile }
  unfold AnalysisEngine.search
  dsimp only
  split
  case isFalse =>
    have hall := hpass .full (List.range (game.moves.length + 1)) e.cfg.maxVisits
    exact hall.mono fun turns turns' hs t ht => hs.byTurn ht
  case isTrue =>
    refine Agree.bind (hpass .screen _ _) fun screened screened' hs => ?_
    rw [turnsToRefine_congr hs e.cfg]
    refine Agree.bind (hpass .refine _ _) fun refined refined' hr => Agree.ok fun t ht => ?_
    rw [byTurn_mergeTurns, byTurn_mergeTurns, hs.byTurn ht, hr.byTurn ht]

theorem analyze_congr (goParse : String → Except String (List SgfNode)) (exp : ℚ → ℚ)
    {katago katago' : AnalyzeCall → AppResult (List TurnResponse)} {e : AnalysisEngine}
    (h : ∀ game humanProfile,
      Agree (fun turns turns' => ∀ t ≤ game.moves.length, byTurn turns t = byTurn turns' t)
        (e.search katago game humanProfile) (e.search katago' game humanProfile))
    (sgf : String) (humanProfile : Option String) :
    e.analyze goParse exp katago sgf humanProfile
      = e.analyze goParse exp katago' sgf humanProfile := by
  unfold AnalysisEngine.analyze
  refine Agree.eq (Agree.bind (Agree.of_eq rfl) fun game game' hgame => ?_)
  subst hgame
  refine Agree.bind (h game _) fun turns turns' hturns => ?_
  rw [assemble_congr hturns exp e.cfg]
  exact Agree.ok rfl

/-- **The payload does not depend on the order** of the responses, in either pass. -/
theorem order_free (goParse : String → Except String (List SgfNode)) (exp : ℚ → ℚ) :
    (∀ game cfg humanProfile, OrderFree exp game cfg humanProfile) ∧
    ∀ (e : AnalysisEngine) (sgf : String) (humanProfile : Option String)
      (katago katago' : AnalyzeCall → AppResult (List TurnResponse)), SameAnswers katago katago' →
      e.analyze goParse exp katago sgf humanProfile
        = e.analyze goParse exp katago' sgf humanProfile := by
  refine ⟨order_free_of exp, fun e sgf humanProfile katago katago' hsame => ?_⟩
  exact analyze_congr goParse exp (search_congr hsame e) sgf humanProfile

end KatagoWs
