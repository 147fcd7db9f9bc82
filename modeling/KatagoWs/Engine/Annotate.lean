import Mathlib.Data.Nat.Sqrt
import Mathlib.Data.Rat.Floor
import KatagoWs.Engine.Katago
import KatagoWs.Lib.Fallible
import KatagoWs.Lib.Round

/-!
# Assembling the analysis payload

`assemble` walks the move list: the loss of move `i` is the difference of two consecutive root
evaluations, of turns `i` and `i + 1`, both in the mover's frame.  Beside the moves it has the
per-turn grids and each player's report.

* `annotateMove`       what one move is given, from the responses of its two turns;
* `Walk.next`          one round of the loop: the annotation, and the mover's totals;
* `perTurnGrid`        a grid of every turn, or of none;
* `assemble`           the payload;
* `walk_moves`         the loop annotates move after move;
* `perTurnGrid_rows`   the rows of a grid;
* `hundredths_eq`, `encodePolicy_byte`   the cell of an ownership, the byte of a probability.

Decimals are exact rationals.  `exp` is the exponential, which only the accuracy uses: its values
are in any ordered field.
-/

namespace KatagoWs
open Lib

def PAYLOAD_VERSION : Nat := 3

inductive Classification where
  | good
  | inaccuracy
  | mistake
  | blunder
deriving DecidableEq, Repr

structure Candidate where
  mv : String
  winrate : ℚ
  scoreLead : ℚ
  prior : ℚ
  humanPrior : Option ℚ
  visits : Nat
  pv : List String
deriving DecidableEq, Repr

structure MoveAnnotation where
  moveNumber : Nat
  color : Color
  mv : String
  winrate : ℚ
  bestWinrate : ℚ
  winrateLoss : ℚ
  winrateClassification : Classification
  scoreLead : ℚ
  scoreLoss : ℚ
  scoreClassification : Classification
  prior : Option ℚ
  humanPrior : Option ℚ
  topMoves : List Candidate
deriving DecidableEq, Repr

structure ClassCounts where
  good : Nat := 0
  inaccuracy : Nat := 0
  mistake : Nat := 0
  blunder : Nat := 0
deriving DecidableEq, Repr

def ClassCounts.record (c : ClassCounts) : Classification → ClassCounts
  | .good => { c with good := c.good + 1 }
  | .inaccuracy => { c with inaccuracy := c.inaccuracy + 1 }
  | .mistake => { c with mistake := c.mistake + 1 }
  | .blunder => { c with blunder := c.blunder + 1 }

structure PlayerReport (K : Type := ℚ) where
  moves : Nat
  accuracy : K
  meanWinrateLoss : ℚ
  meanScoreLoss : ℚ
  byWinrate : ClassCounts
  byScore : ClassCounts
  estimatedRank : Option String
deriving DecidableEq, Repr

structure GameReport (K : Type := ℚ) where
  numMoves : Nat
  black : PlayerReport K
  white : PlayerReport K
deriving DecidableEq, Repr

structure EngineInfo where
  name : String
  version : Option String
  model : String
  maxVisits : Nat
  topK : Nat
  reportPerspective : String
  ownership : Bool
  ownershipStdev : Bool
  policy : Bool
  humanModel : Option String
  screenVisits : Option Nat
deriving DecidableEq, Repr

structure GameAnalysis (K : Type := ℚ) where
  boardSize : Nat
  komi : ℚ
  rules : Rules
  result : Option String
  moves : List MoveAnnotation
  report : GameReport K
  payloadVersion : Nat
  engine : EngineInfo
  ownership : List (List Int)
  ownershipStdev : List (List Int)
  policy : List (List Nat)
  humanPolicy : List (List Nat)
  humanProfile : Option String
deriving DecidableEq, Repr

/-! ## losses -/

def classifyWinrate (loss : ℚ) : Classification :=
  if loss < 3 / 100 then .good
  else if loss < 7 / 100 then .inaccuracy
  else if loss < 15 / 100 then .mistake
  else .blunder

def classifyScore (pointsLost : ℚ) : Classification :=
  if pointsLost < 1 then .good
  else if pointsLost < 3 then .inaccuracy
  else if pointsLost < 6 then .mistake
  else .blunder

def RANK_MIN_MOVES : Nat := 20

def estimateRank (boardSize moves : Nat) (meanScoreLoss : ℚ) : Option String :=
  if boardSize ≠ 19 ∨ moves < RANK_MIN_MOVES then none
  else some <|
    if meanScoreLoss < 8 / 10 then "~7d+"
    else if meanScoreLoss < 12 / 10 then "~5d"
    else if meanScoreLoss < 17 / 10 then "~3d"
    else if meanScoreLoss < 22 / 10 then "~1d"
    else if meanScoreLoss < 28 / 10 then "~2k"
    else if meanScoreLoss < 35 / 10 then "~5k"
    else if meanScoreLoss < 45 / 10 then "~8k"
    else if meanScoreLoss < 6 then "~12k"
    else "~15k+"

/-- Who is to move at `turn`: the colour of that move, or whoever would have played next. -/
def sideToMoveAt (game : ParsedGame) (turn : Nat) : Color :=
  match game.moves[turn]? with
  | some (color, _) => color
  | none =>
    match game.moves.getLast? with
    | some (color, _) => color.other
    | none => .black

/-- The evaluations either side of a move by `color`, both in the mover's frame. -/
def moveEvals (color : Color) (before after : Option RootInfo) : Option Eval × Option Eval :=
  (before.map fun root => root.asSeenBy color color,
    after.map fun root => root.asSeenBy color color.other)

/-- the responses by turn number; of several with one number, the last -/
def byTurn (turns : List TurnResponse) (turn : Nat) : Option TurnResponse :=
  turns.reverse.find? fun response => response.turnNumber == turn

/-! ## grids -/

section
variable (game : ParsedGame) (responses : Nat → Option TurnResponse)

def gridRow {T : Type} (field : TurnResponse → Option (List ℚ)) (trailing : Nat)
    (encode : Nat → ℚ → T) (turn : Nat) : Option (List T) := do
  let points := game.boardSize * game.boardSize
  let raw ← (responses turn).bind field
  -- the entries past the board are checked for, then dropped
  if raw.length ≠ points + trailing then none
  else some ((raw.take points).map (encode turn))

/-- A per-turn grid: empty unless every turn carries an array of the right size. -/
def perTurnGrid {T : Type} (field : TurnResponse → Option (List ℚ)) (trailing : Nat)
    (encode : Nat → ℚ → T) : List (List T) :=
  ((List.range (game.moves.length + 1)).mapM
    (gridRow game responses field trailing encode)).getD []

def hundredths (reporter : Color) (cell : ℚ) : Int :=
  let signed := if reporter = .black then cell else -cell
  clamp (-100) 100 (roundAway (signed * 100))

/-- Ownership at every turn, normalised to Black-positive hundredths. -/
def normaliseOwnership : List (List Int) :=
  perTurnGrid game responses TurnResponse.ownership 0 fun turn cell =>
    hundredths (REPORT_PERSPECTIVE.reporter none (sideToMoveAt game turn)) cell

def ownershipStdevGrid : List (List Int) :=
  perTurnGrid game responses TurnResponse.ownershipStdev 0 fun _ stdev =>
    clamp 0 100 (roundAway (stdev * 100))

/-- A policy probability as one byte: `round(255 · sqrt(p))`, exactly. -/
def encodePolicy (prob : ℚ) : Nat :=
  if prob ≤ 0 then 0 else min 255 ((Nat.sqrt ⌊510 ^ 2 * prob⌋₊ + 1) / 2)

def policyGrid (field : TurnResponse → Option (List ℚ)) : List (List Nat) :=
  perTurnGrid game responses field 1 fun _ prob => encodePolicy prob

end

/-- A move's probability in one turn's full policy array (pass included). -/
def policyAt (policy : Option (List ℚ)) (mv : String) (boardSize : Nat) : Option ℚ := do
  let policy ← policy.filter fun policy => policy.length = boardSize * boardSize + 1
  let index ← policyIndex mv boardSize
  let prob ← policy[index]?
  return max prob 0

def netName (model : String) : String :=
  let file := (model.toList.reverse.takeWhile fun c => c ≠ '/' && c ≠ '\\').reverse
  let strip := fun ext : String =>
    if ext.toList.isSuffixOf file then some (file.take (file.length - ext.toList.length)) else none
  String.ofList (([".bpk", ".bin.gz", ".txt.gz", ".onnx"].findSome? strip).getD file)

/-! ## the walk over the moves -/

section
variable (game : ParsedGame) (responses : Nat → Option TurnResponse) (cfg : EngineConfig)

def topCandidates (color : Color) (turn : TurnResponse) : List Candidate :=
  ((turn.moveInfos.insertionSort fun a b => a.order ≤ b.order).take cfg.topK).map fun info =>
    let eval := info.asSeenBy color color
    { mv := info.mv
      winrate := eval.winrate
      scoreLead := eval.scoreLead
      prior := info.prior
      humanPrior := info.humanPrior
      visits := info.visits
      pv := info.pv }

def annotateMove (index : Nat) (color : Color) (mv : String) : MoveAnnotation :=
  let (before, after) := moveEvals color ((responses index).bind TurnResponse.rootInfo)
    ((responses (index + 1)).bind TurnResponse.rootInfo)
  let bestWinrate := (before.map Eval.winrate).getD (1 / 2)
  let winrate := (after.map Eval.winrate).getD bestWinrate
  let winrateLoss := max (bestWinrate - winrate) 0
  let bestScore := (before.map Eval.scoreLead).getD 0
  let resultingScore := (after.map Eval.scoreLead).getD bestScore
  let scoreLoss := max (bestScore - resultingScore) 0
  let turn := responses index
  let topMoves := (turn.map (topCandidates cfg color)).getD []
  let played := topMoves.find? fun candidate => candidate.mv == mv
  let prior := (policyAt (turn.bind TurnResponse.policy) mv game.boardSize).or
    (played.map Candidate.prior)
  let humanPrior := (policyAt (turn.bind TurnResponse.humanPolicy) mv game.boardSize).or
    (played.bind Candidate.humanPrior)
  { moveNumber := index + 1
    color
    mv
    winrate
    bestWinrate
    winrateLoss
    winrateClassification := classifyWinrate winrateLoss
    scoreLead := bestScore
    scoreLoss
    scoreClassification := classifyScore scoreLoss
    prior
    humanPrior
    topMoves }

variable {K : Type} [Field K] [LinearOrder K] (exp : ℚ → K)

/-- Per-move accuracy in `[0, 100]` from win-rate loss. -/
def moveAccuracy (winrateLoss : ℚ) : K :=
  let drop := max (winrateLoss * 100) 0
  max 0 (min (1031668 / 10000 * exp (-(4354 / 100000) * drop) - 31669 / 10000) (100 : Nat))

structure PlayerAccum (K : Type := ℚ) [Zero K] where
  moves : Nat := 0
  winrateLossSum : ℚ := 0
  scoreLossSum : ℚ := 0
  accuracySum : K := 0
  byWinrate : ClassCounts := {}
  byScore : ClassCounts := {}

def PlayerAccum.record (p : PlayerAccum K) (winrateLoss scoreLoss : ℚ)
    (winrateClass scoreClass : Classification) : PlayerAccum K :=
  { moves := p.moves + 1
    winrateLossSum := p.winrateLossSum + winrateLoss
    scoreLossSum := p.scoreLossSum + scoreLoss
    accuracySum := p.accuracySum + moveAccuracy exp winrateLoss
    byWinrate := p.byWinrate.record winrateClass
    byScore := p.byScore.record scoreClass }

def PlayerAccum.finish (p : PlayerAccum K) (boardSize : Nat) : PlayerReport K :=
  let denom := max p.moves 1
  let meanScoreLoss := p.scoreLossSum / (denom : ℚ)
  { moves := p.moves
    accuracy := p.accuracySum / (denom : K)
    meanWinrateLoss := p.winrateLossSum / (denom : ℚ)
    meanScoreLoss
    byWinrate := p.byWinrate
    byScore := p.byScore
    estimatedRank := estimateRank boardSize p.moves meanScoreLoss }

structure Walk (K : Type := ℚ) [Zero K] where
  moves : List MoveAnnotation := []
  black : PlayerAccum K := {}
  white : PlayerAccum K := {}

def Walk.next (s : Walk K) (index : Nat) (color : Color) (mv : String) : Walk K :=
  let a := annotateMove game responses cfg index color mv
  let record := fun p : PlayerAccum K =>
    p.record exp a.winrateLoss a.scoreLoss a.winrateClassification a.scoreClassification
  match color with
  | .black => { s with moves := s.moves ++ [a], black := record s.black }
  | .white => { s with moves := s.moves ++ [a], white := record s.white }

def walk (index : Nat) (s : Walk K) : List ColoredMove → Walk K
  | [] => s
  | (color, mv) :: moves =>
    walk (index + 1) (s.next game responses cfg exp index color mv) moves

end

/-- Assemble the analysis from the parsed game and the engine's per-turn results. -/
def assemble {K : Type} [Field K] [LinearOrder K] (exp : ℚ → K) (game : ParsedGame)
    (turns : List TurnResponse) (cfg : EngineConfig) (humanProfile : Option String) :
    GameAnalysis K :=
  let responses := byTurn turns
  let walked := walk game responses cfg exp 0 {} game.moves
  let ownership := normaliseOwnership game responses
  let ownershipStdev := ownershipStdevGrid game responses
  let policy := policyGrid game responses TurnResponse.policy
  let humanPolicy := policyGrid game responses TurnResponse.humanPolicy
  let humanProfile := humanProfile.filter fun _ => !humanPolicy.isEmpty
  { boardSize := game.boardSize
    komi := game.komi
    rules := game.rules
    result := game.result
    moves := walked.moves
    report := {
      numMoves := game.moves.length
      black := walked.black.finish game.boardSize
      white := walked.white.finish game.boardSize }
    payloadVersion := PAYLOAD_VERSION
    engine := {
      name := cfg.backend.engineName
      version := none
      model := netName cfg.model
      maxVisits := cfg.maxVisits
      topK := cfg.topK
      reportPerspective := REPORT_PERSPECTIVE.asKatagoSetting
      ownership := !ownership.isEmpty
      ownershipStdev := !ownershipStdev.isEmpty
      policy := !policy.isEmpty
      humanModel := humanProfile.map fun _ => netName cfg.humanModel
      screenVisits := if cfg.twoPass then some cfg.screenVisits else none }
    ownership
    ownershipStdev
    policy
    humanPolicy
    humanProfile }

def bestInfos (cfg : EngineConfig) (infos : List MoveInfo) : List MoveInfo :=
  (infos.insertionSort fun a b => a.order ≤ b.order).take cfg.topK

/-- the evaluations either side of a move by `color`, as it sees them -/
def evalsSeenBy (color : Color) (before after : Option RootInfo) : Option Eval × Option Eval :=
  (before.map fun root => root.eval.seen (root.currentPlayer.getD color) color,
    after.map fun root => root.eval.seen (root.currentPlayer.getD color.other) color)

theorem moveEvals_eq (color : Color) (before after : Option RootInfo) :
    moveEvals color before after = evalsSeenBy color before after := rfl

/-! ## what the loop builds -/

section
variable (game : ParsedGame) (responses : Nat → Option TurnResponse) (cfg : EngineConfig)
  {K : Type} [Field K] [LinearOrder K] (exp : ℚ → K)

theorem Walk.next_moves (s : Walk K) (index : Nat) (color : Color) (mv : String) :
    (s.next game responses cfg exp index color mv).moves
      = s.moves ++ [annotateMove game responses cfg index color mv] := by
  cases color <;> rfl

/-- **The loop** appends one annotation a move, each from the responses alone. -/
theorem walk_moves (index : Nat) (s : Walk K) (moves : List ColoredMove) :
    (walk game responses cfg exp index s moves).moves = s.moves ++
      (moves.zipIdx index).map fun m => annotateMove game responses cfg m.2 m.1.1 m.1.2 := by
  induction moves generalizing index s with
  | nil =>
    show s.moves = s.moves ++ []
    rw [List.append_nil]
  | cons move moves ih =>
    obtain ⟨color, mv⟩ := move
    show (walk game responses cfg exp (index + 1)
      (s.next game responses cfg exp index color mv) moves).moves = _
    rw [ih, Walk.next_moves, List.append_assoc, List.zipIdx_cons, List.map_cons]
    rfl

theorem assemble_move (turns : List TurnResponse) (humanProfile : Option String) (i : Nat) :
    (assemble exp game turns cfg humanProfile).moves[i]? = game.moves[i]?.map fun m =>
      annotateMove game (byTurn turns) cfg i m.1 m.2 := by
  show (walk game (byTurn turns) cfg exp 0 {} game.moves).moves[i]? = _
  rw [walk_moves]
  show ([] ++ _)[i]? = _
  rw [List.nil_append, List.getElem?_map, List.getElem?_zipIdx, Option.map_map, Nat.zero_add]
  rfl

end

/-! ## the rows of a grid -/

section
variable (game : ParsedGame) (responses : Nat → Option TurnResponse)
variable {T : Type} (field : TurnResponse → Option (List ℚ)) (trailing : Nat) (encode : Nat → ℚ → T)

theorem gridRow_eq_some (t : Nat) (row : List T) :
    gridRow game responses field trailing encode t = some row ↔
      ∃ raw, (responses t).bind field = some raw ∧
        raw.length = game.boardSize * game.boardSize + trailing ∧
        (raw.take (game.boardSize * game.boardSize)).map (encode t) = row := by
  unfold gridRow
  cases (responses t).bind field with
  | none => simp
  | some raw =>
    by_cases hlen : raw.length = game.boardSize * game.boardSize + trailing
    · simp [hlen]
    · simp [hlen]

/-- **A full grid**: with an array of the right size at every turn there is a row a turn. -/
theorem perTurnGrid_full (raw : Nat → List ℚ)
    (h : ∀ t ≤ game.moves.length, (responses t).bind field = some (raw t) ∧
      (raw t).length = game.boardSize * game.boardSize + trailing) :
    perTurnGrid game responses field trailing encode
      = (List.range (game.moves.length + 1)).map fun t =>
          ((raw t).take (game.boardSize * game.boardSize)).map (encode t) := by
  have hrows : (List.range (game.moves.length + 1)).mapM
      (gridRow game responses field trailing encode) =
        some ((List.range (game.moves.length + 1)).map fun t =>
          ((raw t).take (game.boardSize * game.boardSize)).map (encode t)) := by
    rw [mapM_eq_some, List.map_map]
    refine List.map_congr_left fun t ht => ?_
    obtain ⟨hraw, hlen⟩ := h t (Nat.lt_succ_iff.mp (List.mem_range.mp ht))
    exact (gridRow_eq_some game responses field trailing encode t _).mpr ⟨raw t, hraw, hlen, rfl⟩
  unfold perTurnGrid
  rw [hrows, Option.getD_some]

/-- **A row of a grid** is its turn's own array, encoded. -/
theorem perTurnGrid_rows {t : Nat} {row : List T}
    (h : (perTurnGrid game responses field trailing encode)[t]? = some row) :
    ∃ raw, (responses t).bind field = some raw ∧
      raw.length = game.boardSize * game.boardSize + trailing ∧
      (raw.take (game.boardSize * game.boardSize)).map (encode t) = row := by
  unfold perTurnGrid at h
  cases hg : (List.range (game.moves.length + 1)).mapM
      (gridRow game responses field trailing encode) with
  | none =>
    rw [hg] at h
    exact absurd h (by simp)
  | some rows =>
    rw [hg, Option.getD_some] at h
    have hcell := congrArg (fun l : List (Option (List T)) => l[t]?) ((mapM_eq_some _ _ _).mp hg)
    simp only [List.getElem?_map, h, Option.map_some, Option.map_eq_some_iff] at hcell
    obtain ⟨t', ht', hrow⟩ := hcell
    rw [List.getElem?_eq_some_iff] at ht'
    obtain ⟨hlt, ht'⟩ := ht'
    rw [List.getElem_range] at ht'
    rw [← ht', gridRow_eq_some] at hrow
    exact hrow

end

/-! ## cells -/

/-- a cell stated for Black, restated for `viewer`, or the other way round -/
def ownedBy (viewer : Color) (cell : ℚ) : ℚ := if viewer = .black then cell else -cell

theorem ownedBy_ownedBy (viewer : Color) (cell : ℚ) :
    ownedBy viewer (ownedBy viewer cell) = cell := by
  cases viewer with
  | black => rfl
  | white => exact neg_neg cell

theorem hundredths_eq (reporter : Color) (cell : ℚ) :
    hundredths reporter cell = clamp (-100) 100 (roundAway (100 * ownedBy reporter cell)) := by
  rw [mul_comm]
  rfl

/-- A map read for the wrong player is its negation, cell by cell. -/
theorem hundredths_other (reporter : Color) (cell : ℚ) :
    hundredths reporter.other cell = -hundredths reporter cell := by
  have hblack : hundredths .black cell = clamp (-100) 100 (roundAway (cell * 100)) := rfl
  have hwhite : hundredths .white cell = -clamp (-100) 100 (roundAway (cell * 100)) := by
    have hneg : (-cell) * 100 = -(cell * 100) := neg_mul cell 100
    show clamp (-100) 100 (roundAway ((-cell) * 100)) = _
    rw [hneg]
    exact clamp_roundAway_neg (by norm_num) (cell * 100)
  cases reporter with
  | black =>
    show hundredths .white cell = -hundredths .black cell
    rw [hwhite, hblack]
  | white =>
    show hundredths .black cell = -hundredths .white cell
    rw [hwhite, hblack, neg_neg]

/-- the integer nearest to `255 · sqrt(p)`, a half going up, as far as 255 -/
structure PolicyByte (p : ℚ) (byte : Nat) : Prop where
  zero : p ≤ 0 → byte = 0
  low : 0 < p → ((2 * byte - 1 : Nat) : ℚ) ^ 2 ≤ 510 ^ 2 * p
  high : 0 < p → byte = 255 ∨ 510 ^ 2 * p < ((2 * byte + 1 : Nat) : ℚ) ^ 2
  top : byte ≤ 255

theorem encodePolicy_near {p : ℚ} (h0 : 0 < p) :
    ((2 * encodePolicy p - 1 : Nat) : ℚ) ^ 2 ≤ 510 ^ 2 * p ∧
      (encodePolicy p = 255 ∨ 510 ^ 2 * p < ((2 * encodePolicy p + 1 : Nat) : ℚ) ^ 2) := by
  have hpos : (0 : ℚ) ≤ 510 ^ 2 * p := by positivity
  set n := ⌊510 ^ 2 * p⌋₊ with hn
  set s := Nat.sqrt n with hs
  have hlow : (n : ℚ) ≤ 510 ^ 2 * p := Nat.floor_le hpos
  have hhigh : 510 ^ 2 * p < (n : ℚ) + 1 := Nat.lt_floor_add_one _
  have hsn : s ^ 2 ≤ n := Nat.sqrt_le' n
  have hns : n + 1 ≤ (s + 1) ^ 2 := Nat.lt_succ_sqrt' n
  have hv : encodePolicy p = min 255 ((s + 1) / 2) := by
    unfold encodePolicy
    rw [if_neg (not_le.mpr h0)]
  rw [hv]
  set v := min 255 ((s + 1) / 2) with hmin
  constructor
  · have hle : 2 * v - 1 ≤ s := by omega
    have hsq : (2 * v - 1) ^ 2 ≤ n := le_trans (Nat.pow_le_pow_left hle 2) hsn
    calc ((2 * v - 1 : Nat) : ℚ) ^ 2 ≤ (n : ℚ) := by exact_mod_cast hsq
      _ ≤ 510 ^ 2 * p := hlow
  · rcases Nat.lt_or_ge v 255 with hlt | hge
    · have hle : s + 1 ≤ 2 * v + 1 := by omega
      have hsq : n + 1 ≤ (2 * v + 1) ^ 2 := le_trans hns (Nat.pow_le_pow_left hle 2)
      refine Or.inr ?_
      calc 510 ^ 2 * p < (n : ℚ) + 1 := hhigh
        _ ≤ ((2 * v + 1 : Nat) : ℚ) ^ 2 := by exact_mod_cast hsq
    · exact Or.inl (le_antisymm (min_le_left _ _) hge)

/-- **The policy byte** of any number, a probability or not. -/
theorem encodePolicy_byte (p : ℚ) : PolicyByte p (encodePolicy p) where
  zero := fun h => if_pos h
  low := fun h => (encodePolicy_near h).1
  high := fun h => (encodePolicy_near h).2
  top := by
    unfold encodePolicy
    split
    · exact Nat.zero_le _
    · exact min_le_left _ _

end KatagoWs
