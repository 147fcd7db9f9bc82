import Mathlib.Algebra.Order.BigOperators.Group.List
import Mathlib.Analysis.Complex.Exponential
import KatagoWs.Engine.Annotate

/-!
# The report of a game

Two accumulators run beside the list of moves, one a player.  At every round of the loop each has
the totals of that player's part of the list, and the report is read off them at the end.

* `PlayerAccum.Totals`   an accumulator has the totals of a list of entries;
* `Walk.Tallied`         so has each player's, of the entries of that colour;
* `walk_tallied`         the loop keeps it;
* `PlayerAggregates`     what a player's report says of the player's entries;
* `report_aggregates`    the report of a payload aggregates its moves.
-/

namespace KatagoWs

/-! ## totals -/

def ClassCounts.of (c : ClassCounts) : Classification → Nat
  | .good => c.good
  | .inaccuracy => c.inaccuracy
  | .mistake => c.mistake
  | .blunder => c.blunder

def ClassCounts.total (c : ClassCounts) : Nat := c.good + c.inaccuracy + c.mistake + c.blunder

def ClassCounts.Counts (c : ClassCounts) (l : List Classification) : Prop :=
  ∀ x, c.of x = l.count x

theorem ClassCounts.record_of (c : ClassCounts) (x y : Classification) :
    (c.record x).of y = c.of y + if x = y then 1 else 0 := by
  cases x <;> cases y <;> rfl

theorem ClassCounts.Counts.record {c : ClassCounts} {l : List Classification} (h : c.Counts l)
    (x : Classification) : (c.record x).Counts (l ++ [x]) := by
  intro y
  rw [ClassCounts.record_of, h y, List.count_append, List.count_singleton]
  simp

theorem ClassCounts.Counts.total {c : ClassCounts} {l : List Classification} (h : c.Counts l) :
    c.total = l.length := by
  have hsum : l.length = l.count .good + l.count .inaccuracy + l.count .mistake
      + l.count .blunder := by
    clear h
    induction l with
    | nil => rfl
    | cons x l ih =>
      rw [List.length_cons, ih]
      cases x <;> simp <;> omega
  have hg : c.good = l.count .good := h .good
  have hi : c.inaccuracy = l.count .inaccuracy := h .inaccuracy
  have hm : c.mistake = l.count .mistake := h .mistake
  have hb : c.blunder = l.count .blunder := h .blunder
  rw [ClassCounts.total, hg, hi, hm, hb, hsum]

def Walk.of {K : Type} [Zero K] (s : Walk K) : Color → PlayerAccum K
  | .black => s.black
  | .white => s.white

def entriesOf (moves : List MoveAnnotation) (player : Color) : List MoveAnnotation :=
  moves.filter fun a => a.color = player

section
variable {K : Type} [Field K] [LinearOrder K] (exp : ℚ → K)

structure PlayerAccum.Totals (entries : List MoveAnnotation) (p : PlayerAccum K) : Prop where
  moves : p.moves = entries.length
  winrateLoss : p.winrateLossSum = (entries.map MoveAnnotation.winrateLoss).sum
  scoreLoss : p.scoreLossSum = (entries.map MoveAnnotation.scoreLoss).sum
  accuracy : p.accuracySum = (entries.map fun a => moveAccuracy exp a.winrateLoss).sum
  byWinrate : p.byWinrate.Counts (entries.map MoveAnnotation.winrateClassification)
  byScore : p.byScore.Counts (entries.map MoveAnnotation.scoreClassification)

theorem PlayerAccum.Totals.empty : PlayerAccum.Totals exp [] ({} : PlayerAccum K) := by
  refine ⟨rfl, rfl, rfl, rfl, ?_, ?_⟩
  · intro x
    cases x <;> rfl
  · intro x
    cases x <;> rfl

theorem PlayerAccum.Totals.record {entries : List MoveAnnotation} {p : PlayerAccum K}
    (h : PlayerAccum.Totals exp entries p) (a : MoveAnnotation) :
    PlayerAccum.Totals exp (entries ++ [a])
      (p.record exp a.winrateLoss a.scoreLoss a.winrateClassification a.scoreClassification) := by
  refine ⟨?_, ?_, ?_, ?_, ?_, ?_⟩
  · show p.moves + 1 = _
    rw [h.moves, List.length_append, List.length_singleton]
  · show p.winrateLossSum + a.winrateLoss = _
    rw [h.winrateLoss, List.map_append, List.sum_append, List.map_singleton, List.sum_singleton]
  · show p.scoreLossSum + a.scoreLoss = _
    rw [h.scoreLoss, List.map_append, List.sum_append, List.map_singleton, List.sum_singleton]
  · show p.accuracySum + moveAccuracy exp a.winrateLoss = _
    rw [h.accuracy, List.map_append, List.sum_append, List.map_singleton, List.sum_singleton]
  · rw [List.map_append]
    exact h.byWinrate.record a.winrateClassification
  · rw [List.map_append]
    exact h.byScore.record a.scoreClassification

/-! ## the loop -/

/-- each player's totals are those of the player's entries -/
def Walk.Tallied (s : Walk K) : Prop :=
  ∀ player, (s.of player).Totals exp (entriesOf s.moves player)

variable (game : ParsedGame) (responses : Nat → Option TurnResponse) (cfg : EngineConfig)

/-- one round adds the move to the mover's totals, and nothing to the other player's -/
theorem Walk.next_of (s : Walk K) (index : Nat) (color : Color) (mv : String) (player : Color) :
    (s.next game responses cfg exp index color mv).of player =
      if color = player then
        (s.of player).record exp (annotateMove game responses cfg index color mv).winrateLoss
          (annotateMove game responses cfg index color mv).scoreLoss
          (annotateMove game responses cfg index color mv).winrateClassification
          (annotateMove game responses cfg index color mv).scoreClassification
      else s.of player := by
  cases color <;> cases player <;> rfl

theorem Walk.Tallied.next {s : Walk K} (h : s.Tallied exp) (index : Nat) (color : Color)
    (mv : String) : (s.next game responses cfg exp index color mv).Tallied exp := by
  intro player
  set a := annotateMove game responses cfg index color mv with ha
  have hcolor : a.color = color := rfl
  have hentries : entriesOf (s.next game responses cfg exp index color mv).moves player
      = entriesOf s.moves player ++ if color = player then [a] else [] := by
    rw [Walk.next_moves, entriesOf, List.filter_append, ← ha, List.filter_singleton, hcolor]
    by_cases hp : color = player
    · simp [hp, entriesOf]
    · simp [hp, entriesOf]
  rw [Walk.next_of, hentries]
  by_cases hp : color = player
  · rw [if_pos hp, if_pos hp]
    exact (h player).record exp a
  · rw [if_neg hp, if_neg hp, List.append_nil]
    exact h player

theorem walk_tallied (moves : List ColoredMove) (index : Nat) {s : Walk K} (h : s.Tallied exp) :
    (walk game responses cfg exp index s moves).Tallied exp := by
  induction moves generalizing index s with
  | nil => exact h
  | cons move moves ih => exact ih (index + 1) (h.next exp game responses cfg index move.1 move.2)

theorem Walk.tallied_empty : ({} : Walk K).Tallied exp := by
  intro player
  cases player <;> exact PlayerAccum.Totals.empty exp

end

/-! ## means -/

section
variable {A F : Type}

def meanOf [DivisionRing F] (f : A → F) (l : List A) : F :=
  (l.map f).sum / ((max l.length 1 : Nat) : F)

theorem meanOf_nil [DivisionRing F] (f : A → F) : meanOf f [] = 0 := by
  simp [meanOf]

theorem meanOf_mul [DivisionRing F] [CharZero F] (f : A → F) (l : List A) :
    meanOf f l * l.length = (l.map f).sum := by
  cases l with
  | nil => simp [meanOf]
  | cons a l =>
    have hpos : 0 < (a :: l).length := Nat.succ_pos _
    rw [meanOf, max_eq_left (Nat.succ_le_of_lt hpos),
      div_mul_cancel₀ _ (Nat.cast_ne_zero.mpr hpos.ne')]

variable [Field F] [LinearOrder F] [IsStrictOrderedRing F] {f : A → F} {l : List A}

theorem meanOf_nonneg (h : ∀ a ∈ l, 0 ≤ f a) : 0 ≤ meanOf f l := by
  refine div_nonneg (List.sum_nonneg fun x hx => ?_) (Nat.cast_nonneg _)
  obtain ⟨a, ha, rfl⟩ := List.mem_map.mp hx
  exact h a ha

theorem meanOf_le {x : F} (hx : 0 ≤ x) (h : ∀ a ∈ l, f a ≤ x) : meanOf f l ≤ x := by
  have hpos : (0 : F) < ((max l.length 1 : Nat) : F) :=
    Nat.cast_pos.mpr (lt_of_lt_of_le Nat.one_pos (le_max_right _ _))
  have hle : (l.length : F) ≤ ((max l.length 1 : Nat) : F) := Nat.cast_le.mpr (le_max_left _ _)
  rw [meanOf, div_le_iff₀ hpos]
  have hsum : (l.map f).sum ≤ l.length * x := by
    have hs := List.sum_le_card_nsmul (l.map f) x fun y hy => by
      obtain ⟨a, ha, rfl⟩ := List.mem_map.mp hy
      exact h a ha
    rwa [List.length_map, nsmul_eq_mul] at hs
  calc (l.map f).sum ≤ l.length * x := hsum
    _ ≤ ((max l.length 1 : Nat) : F) * x := mul_le_mul_of_nonneg_right hle hx
    _ = x * ((max l.length 1 : Nat) : F) := mul_comm _ _

end

/-! ## the report -/

section
variable {K : Type} [Field K] [LinearOrder K] (exp : ℚ → K)

structure LensCounts (lens : MoveAnnotation → Classification) (entries : List MoveAnnotation)
    (c : ClassCounts) : Prop where
  counts : ∀ x, c.of x = (entries.map lens).count x
  total : c.total = entries.length

structure PlayerAggregates (entries : List MoveAnnotation) (report : PlayerReport K) : Prop where
  moves : report.moves = entries.length
  byWinrate : LensCounts MoveAnnotation.winrateClassification entries report.byWinrate
  byScore : LensCounts MoveAnnotation.scoreClassification entries report.byScore
  winrateLoss : report.meanWinrateLoss * report.moves
    = (entries.map MoveAnnotation.winrateLoss).sum
  scoreLoss : report.meanScoreLoss * report.moves = (entries.map MoveAnnotation.scoreLoss).sum
  accuracy : report.accuracy * report.moves
    = (entries.map fun a => moveAccuracy exp a.winrateLoss).sum
  losses : 0 ≤ report.meanWinrateLoss ∧ 0 ≤ report.meanScoreLoss
  range : 0 ≤ report.accuracy ∧ report.accuracy ≤ 100
  idle : report.moves = 0 → report.meanWinrateLoss = 0 ∧ report.meanScoreLoss = 0 ∧
    report.accuracy = 0 ∧ report.byWinrate = {} ∧ report.byScore = {}

/-- the report of a payload aggregates its list of moves -/
structure ReportAggregates (game : ParsedGame) (out : GameAnalysis K) : Prop where
  length : out.moves.length = game.moves.length
  numbered : ∀ i a, out.moves[i]? = some a → a.moveNumber = i + 1
  played : out.moves.map (fun a => (a.color, a.mv)) = game.moves
  numMoves : out.report.numMoves = game.moves.length
  split : out.report.black.moves + out.report.white.moves = out.report.numMoves
  losses : ∀ a ∈ out.moves, 0 ≤ a.winrateLoss ∧ 0 ≤ a.scoreLoss
  black : PlayerAggregates exp (entriesOf out.moves .black) out.report.black
  white : PlayerAggregates exp (entriesOf out.moves .white) out.report.white

theorem ClassCounts.eq_empty {c : ClassCounts} (h : c.total = 0) : c = {} := by
  obtain ⟨good, inaccuracy, mistake, blunder⟩ := c
  have hsum : good + inaccuracy + mistake + blunder = 0 := h
  obtain ⟨rfl, rfl, rfl, rfl⟩ : good = 0 ∧ inaccuracy = 0 ∧ mistake = 0 ∧ blunder = 0 := by omega
  rfl

theorem ClassCounts.Counts.lens {c : ClassCounts} {lens : MoveAnnotation → Classification}
    {entries : List MoveAnnotation} (h : c.Counts (entries.map lens)) :
    LensCounts lens entries c :=
  ⟨h, by rw [h.total, List.length_map]⟩

variable [IsStrictOrderedRing K]

theorem moveAccuracy_range (winrateLoss : ℚ) :
    0 ≤ moveAccuracy exp winrateLoss ∧ moveAccuracy exp winrateLoss ≤ 100 := by
  have hfull : ((100 : Nat) : K) = 100 := Nat.cast_ofNat
  refine ⟨le_max_left _ _, max_le ?_ ((min_le_right _ _).trans_eq hfull)⟩
  exact Nat.ofNat_nonneg 100

theorem PlayerAccum.Totals.finish {entries : List MoveAnnotation} {p : PlayerAccum K}
    (h : PlayerAccum.Totals exp entries p)
    (hloss : ∀ a ∈ entries, 0 ≤ a.winrateLoss ∧ 0 ≤ a.scoreLoss) (boardSize : Nat) :
    PlayerAggregates exp entries (p.finish boardSize) := by
  set report := p.finish boardSize with hreport
  have hmoves : report.moves = entries.length := h.moves
  have hw : report.meanWinrateLoss = meanOf MoveAnnotation.winrateLoss entries := by
    rw [meanOf, ← h.winrateLoss, ← h.moves]
    rfl
  have hs : report.meanScoreLoss = meanOf MoveAnnotation.scoreLoss entries := by
    rw [meanOf, ← h.scoreLoss, ← h.moves]
    rfl
  have ha : report.accuracy = meanOf (fun a => moveAccuracy exp a.winrateLoss) entries := by
    rw [meanOf, ← h.accuracy, ← h.moves]
    rfl
  have hrange := fun a : MoveAnnotation => moveAccuracy_range exp a.winrateLoss
  refine ⟨hmoves, h.byWinrate.lens, h.byScore.lens, ?_, ?_, ?_, ?_, ?_, ?_⟩
  · rw [hw, hmoves, meanOf_mul]
  · rw [hs, hmoves, meanOf_mul]
  · rw [ha, hmoves, meanOf_mul]
  · rw [hw, hs]
    exact ⟨meanOf_nonneg fun a hm => (hloss a hm).1, meanOf_nonneg fun a hm => (hloss a hm).2⟩
  · rw [ha]
    exact ⟨meanOf_nonneg fun a _ => (hrange a).1,
      meanOf_le (Nat.ofNat_nonneg 100) fun a _ => (hrange a).2⟩
  · intro h0
    obtain rfl : entries = [] := List.length_eq_zero_iff.mp (hmoves.symm.trans h0)
    exact ⟨hw.trans (meanOf_nil _), hs.trans (meanOf_nil _), ha.trans (meanOf_nil _),
      ClassCounts.eq_empty h.byWinrate.total, ClassCounts.eq_empty h.byScore.total⟩

theorem entriesOf_split (moves : List MoveAnnotation) :
    (entriesOf moves .black).length + (entriesOf moves .white).length = moves.length := by
  induction moves with
  | nil => rfl
  | cons a moves ih =>
    rw [entriesOf, entriesOf, List.filter_cons, List.filter_cons, List.length_cons, ← ih]
    cases a.color with
    | black =>
      simp [entriesOf]
      omega
    | white =>
      simp [entriesOf]
      omega

end

section
variable {K : Type} [Field K] [LinearOrder K] [IsStrictOrderedRing K] (exp : ℚ → K)

/-- **The report of a payload** aggregates its list of moves. -/
theorem report_aggregates (game : ParsedGame) (turns : List TurnResponse) (cfg : EngineConfig)
    (humanProfile : Option String) :
    ReportAggregates exp game (assemble exp game turns cfg humanProfile) := by
  set out := assemble exp game turns cfg humanProfile with hout
  have hmoves : out.moves = game.moves.zipIdx.map fun m =>
      annotateMove game (byTurn turns) cfg m.2 m.1.1 m.1.2 := by
    show (walk game (byTurn turns) cfg exp 0 {} game.moves).moves = _
    rw [walk_moves]
    exact List.nil_append _
  have hlen : out.moves.length = game.moves.length := by
    rw [hmoves, List.length_map, List.length_zipIdx]
  have hmem : ∀ a ∈ out.moves,
      ∃ i color mv, annotateMove game (byTurn turns) cfg i color mv = a := by
    intro a ha
    rw [hmoves] at ha
    obtain ⟨m, -, rfl⟩ := List.mem_map.mp ha
    exact ⟨m.2, m.1.1, m.1.2, rfl⟩
  have hloss : ∀ a ∈ out.moves, 0 ≤ a.winrateLoss ∧ 0 ≤ a.scoreLoss := by
    intro a ha
    obtain ⟨i, color, mv, rfl⟩ := hmem a ha
    exact ⟨le_max_right _ _, le_max_right _ _⟩
  have hown : ∀ player, ∀ a ∈ entriesOf out.moves player, 0 ≤ a.winrateLoss ∧ 0 ≤ a.scoreLoss :=
    fun player a ha => hloss a (List.mem_filter.mp ha).1
  have htotals := walk_tallied exp game (byTurn turns) cfg game.moves 0 (Walk.tallied_empty exp)
  have hblack : PlayerAggregates exp (entriesOf out.moves .black) out.report.black :=
    (htotals .black).finish exp (hown .black) game.boardSize
  have hwhite : PlayerAggregates exp (entriesOf out.moves .white) out.report.white :=
    (htotals .white).finish exp (hown .white) game.boardSize
  refine ⟨hlen, ?_, ?_, rfl, ?_, hloss, hblack, hwhite⟩
  · intro i a ha
    rw [hout, assemble_move, Option.map_eq_some_iff] at ha
    obtain ⟨m, -, rfl⟩ := ha
    rfl
  · rw [hmoves, List.map_map]
    exact List.zipIdx_map_fst 0 game.moves
  · rw [hblack.moves, hwhite.moves, entriesOf_split, hlen]
    rfl

end

/-! ## a game of one move, under the exponential -/

def soloGame : ParsedGame :=
  { boardSize := 9
    komi := 7
    rules := .japanese
    result := none
    initialStones := []
    moves := [(.black, "E5")] }

/-- Black's move loses nearly everything -/
def soloTurns : List TurnResponse :=
  [(1 / 2 : ℚ), 9 / 10].zipIdx.map fun e =>
    { turnNumber := e.2
      rootInfo := some ⟨e.1, 0, none⟩
      moveInfos := []
      ownership := none
      ownershipStdev := none
      policy := none
      humanPolicy := none }

def soloConfig : EngineConfig :=
  { backend := .rocm
    model := "g170e-b10c128.bpk"
    maxVisits := 500
    analysisPvLen := 8
    includeOwnership := false
    includeOwnershipStdev := false
    includePolicy := false
    humanModel := ""
    topK := 5
    defaultKomi := 15 / 2
    defaultBoardSize := 19
    screenVisits := 0 }

theorem report_aggregates_solo :
    ReportAggregates (fun x => Real.exp x) soloGame
      (assemble (fun x => Real.exp x) soloGame soloTurns soloConfig none) :=
  report_aggregates (fun x => Real.exp x) soloGame soloTurns soloConfig none

end KatagoWs
