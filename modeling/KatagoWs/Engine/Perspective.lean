import KatagoWs.Engine.Annotate

/-!
# Whose frame every number of the payload is in

A response states its values for one player; `assemble` reads it in four places: its root
evaluation as the `after` of one move and the `before` of the next, its candidates, its
ownership map.

* `RootReadAs`, `RestReadAs`   the payload reads a turn's values as stated for a given player;
* `OneFrame`                   all four places agree on that player;
* `turn_frames`                whom each place takes the values to be stated for, for every game
                               and every set of responses;
* `MoveAnnotation.Reports`     a move annotated from the truth about its two positions;
* `Graded`                     a loss is graded by the least threshold it stays under;
* `annotations_in_movers_frame`   responses that state the truth for the side to move give the
                               mover's view of it, and Black's ownership.

The truth about a position (`Position`) is stated for Black throughout.
-/

namespace KatagoWs
open Lib

/-! ## the side to move -/

/-- the colour changes at turn `t`, where the move before it and the move at it are both played -/
def HandsOver (game : ParsedGame) (t : Nat) : Prop :=
  ∀ i a b, t = i + 1 → game.moves[i]? = some a → game.moves[t]? = some b → b.1 = a.1.other

def Alternating (game : ParsedGame) : Prop := ∀ t, HandsOver game t

theorem sideToMoveAt_mover {game : ParsedGame} {i : Nat} {m : ColoredMove}
    (h : game.moves[i]? = some m) : sideToMoveAt game i = m.1 := by
  unfold sideToMoveAt
  rw [h]

/-- After a move the other colour is to move, unless the record has a run of one colour. -/
theorem sideToMoveAt_next {game : ParsedGame} {i : Nat} {m : ColoredMove}
    (h : game.moves[i]? = some m) (ho : HandsOver game (i + 1)) :
    sideToMoveAt game (i + 1) = m.1.other := by
  cases hn : game.moves[i + 1]? with
  | some b =>
    rw [sideToMoveAt_mover hn]
    exact ho i m b rfl h hn
  | none =>
    -- `m` is the last move
    have hlen : game.moves.length ≤ i + 1 := List.getElem?_eq_none_iff.mp hn
    have hi : i < game.moves.length := (List.getElem?_eq_some_iff.mp h).1
    have hlast : game.moves.getLast? = some m := by
      rw [List.getLast?_eq_getElem?]
      have : game.moves.length - 1 = i := by omega
      rw [this, h]
    unfold sideToMoveAt
    rw [hn, hlast]

/-! ## responses by turn -/

theorem byTurn_mem {turns : List TurnResponse} {t : Nat} {r : TurnResponse}
    (h : byTurn turns t = some r) : r ∈ turns ∧ r.turnNumber = t := by
  unfold byTurn at h
  have hmem := List.mem_of_find?_eq_some h
  have hturn := List.find?_some h
  exact ⟨List.mem_reverse.mp hmem, eq_of_beq hturn⟩

theorem byTurn_exists {turns : List TurnResponse} {t : Nat}
    (h : ∃ r ∈ turns, r.turnNumber = t) : ∃ r, byTurn turns t = some r := by
  obtain ⟨r, hr, ht⟩ := h
  refine Option.isSome_iff_exists.mp ?_
  unfold byTurn
  rw [List.find?_isSome]
  exact ⟨r, List.mem_reverse.mpr hr, beq_iff_eq.mpr ht⟩

/-! ## what the annotation reads -/

def MoveInfo.candidate (reporter viewer : Color) (info : MoveInfo) : Candidate :=
  { mv := info.mv
    winrate := (info.eval.seen reporter viewer).winrate
    scoreLead := (info.eval.seen reporter viewer).scoreLead
    prior := info.prior
    humanPrior := info.humanPrior
    visits := info.visits
    pv := info.pv }

theorem topCandidates_eq (cfg : EngineConfig) (color : Color) (r : TurnResponse) :
    topCandidates cfg color r
      = (bestInfos cfg r.moveInfos).map (MoveInfo.candidate color color) := rfl

section
variable (game : ParsedGame) {responses : Nat → Option TurnResponse} (cfg : EngineConfig)
variable {i : Nat} (c : Color) (mv : String) {root : RootInfo}

theorem annotateMove_before (h : (responses i).bind TurnResponse.rootInfo = some root) :
    (annotateMove game responses cfg i c mv).bestWinrate = (root.asSeenBy c c).winrate ∧
      (annotateMove game responses cfg i c mv).scoreLead = (root.asSeenBy c c).scoreLead := by
  unfold annotateMove
  rw [h]
  exact ⟨rfl, rfl⟩

theorem annotateMove_after (h : (responses (i + 1)).bind TurnResponse.rootInfo = some root) :
    (annotateMove game responses cfg i c mv).winrate = (root.asSeenBy c c.other).winrate ∧
      (annotateMove game responses cfg i c mv).scoreLoss
        = max ((annotateMove game responses cfg i c mv).scoreLead
            - (root.asSeenBy c c.other).scoreLead) 0 := by
  unfold annotateMove
  rw [h]
  exact ⟨rfl, rfl⟩

theorem annotateMove_candidates {r : TurnResponse} (h : responses i = some r) :
    (annotateMove game responses cfg i c mv).topMoves
      = (bestInfos cfg r.moveInfos).map (MoveInfo.candidate c c) := by
  unfold annotateMove
  rw [h, ← topCandidates_eq]
  rfl

end

/-! ## whom the payload takes a turn's values to be stated for -/

section
variable (out : GameAnalysis) (turns : List TurnResponse) (cfg : EngineConfig) (t : Nat)

/-- the payload reads turn `t`'s root evaluation as stated for `R`, before move `t` and after
the move that leads to it -/
structure RootReadAs (R : Color) : Prop where
  before : ∀ root m, (byTurn turns t).bind TurnResponse.rootInfo = some root →
    out.moves[t]? = some m →
      m.bestWinrate = (root.eval.seen R m.color).winrate ∧
        m.scoreLead = (root.eval.seen R m.color).scoreLead
  after : ∀ i root m, t = i + 1 → (byTurn turns t).bind TurnResponse.rootInfo = some root →
    out.moves[i]? = some m →
      m.winrate = (root.eval.seen R m.color).winrate ∧
        m.scoreLoss = max (m.scoreLead - (root.eval.seen R m.color).scoreLead) 0

/-- the payload reads turn `t`'s candidates and its ownership map as stated for `R` -/
structure RestReadAs (R : Color) : Prop where
  candidates : ∀ r m, byTurn turns t = some r → out.moves[t]? = some m →
    m.topMoves = (bestInfos cfg r.moveInfos).map (MoveInfo.candidate R m.color)
  ownership : ∀ raw row, (byTurn turns t).bind TurnResponse.ownership = some raw →
    out.ownership[t]? = some row → row = raw.map (hundredths R)

/-- one player whom all the values of turn `t` are taken to be stated for -/
def OneFrame : Prop := ∃ R, RootReadAs out turns t R ∧ RestReadAs out turns cfg t R

/-- whom each reading of turn `t` takes it to be stated for -/
structure Frames (game : ParsedGame) : Prop where
  rest : RestReadAs out turns cfg t (sideToMoveAt game t)
  named : ∀ root, (byTurn turns t).bind TurnResponse.rootInfo = some root →
    ∀ p, root.currentPlayer = some p → RootReadAs out turns t p
  unnamed : ∀ root, (byTurn turns t).bind TurnResponse.rootInfo = some root →
    root.currentPlayer = none → HandsOver game t → RootReadAs out turns t (sideToMoveAt game t)
  agree : ∀ root, (byTurn turns t).bind TurnResponse.rootInfo = some root →
    root.currentPlayer = some (sideToMoveAt game t) ∨
      root.currentPlayer = none ∧ HandsOver game t → OneFrame out turns cfg t

end

section
variable (exp : ℚ → ℚ) (game : ParsedGame) (turns : List TurnResponse) (cfg : EngineConfig)
  (humanProfile : Option String)

theorem assemble_move_some {i : Nat} {m : MoveAnnotation}
    (h : (assemble exp game turns cfg humanProfile).moves[i]? = some m) :
    ∃ c mv, game.moves[i]? = some (c, mv) ∧ m = annotateMove game (byTurn turns) cfg i c mv := by
  rw [assemble_move, Option.map_eq_some_iff] at h
  obtain ⟨⟨c, mv⟩, hm, rfl⟩ := h
  exact ⟨c, mv, hm, rfl⟩

theorem rootReadAs_of (t : Nat) (R : Color)
    (h : ∀ root, (byTurn turns t).bind TurnResponse.rootInfo = some root →
      (∀ c mv, game.moves[t]? = some (c, mv) → root.currentPlayer.getD c = R) ∧
        ∀ i c mv, t = i + 1 → game.moves[i]? = some (c, mv) →
          root.currentPlayer.getD c.other = R) :
    RootReadAs (assemble exp game turns cfg humanProfile) turns t R where
  before := by
    intro root m hroot hm
    obtain ⟨c, mv, hc, rfl⟩ := assemble_move_some exp game turns cfg humanProfile hm
    have hR := (h root hroot).1 c mv hc
    have hread := annotateMove_before game cfg c mv hroot
    rw [RootInfo.asSeenBy_eq, hR] at hread
    exact hread
  after := by
    intro i root m hi hroot hm
    obtain ⟨c, mv, hc, rfl⟩ := assemble_move_some exp game turns cfg humanProfile hm
    have hR := (h root hroot).2 i c mv hi hc
    rw [hi] at hroot
    have hread := annotateMove_after game cfg c mv hroot
    rw [RootInfo.asSeenBy_eq, hR] at hread
    exact hread

theorem restReadAs_sideToMove (t : Nat) :
    RestReadAs (assemble exp game turns cfg humanProfile) turns cfg t (sideToMoveAt game t) where
  candidates := by
    intro r m hr hm
    obtain ⟨c, mv, hc, rfl⟩ := assemble_move_some exp game turns cfg humanProfile hm
    rw [sideToMoveAt_mover hc]
    exact annotateMove_candidates game cfg c mv hr
  ownership := by
    intro raw row hraw hrow
    obtain ⟨raw', hraw', hlen, hrow⟩ := perTurnGrid_rows game (byTurn turns) _ 0 _ hrow
    rw [hraw, Option.some.injEq] at hraw'
    subst hraw'
    have hall : raw.take (game.boardSize * game.boardSize) = raw :=
      List.take_of_length_le (le_of_eq hlen)
    rw [← hrow, hall]
    rfl

/-- **The frame of every reading of a turn.**  Candidates and ownership are taken to be stated
for the side to move; both readings of the root evaluation for the player it names, and where
it names none and the colour changes, for the side to move as well. -/
theorem turn_frames (t : Nat) :
    Frames (assemble exp game turns cfg humanProfile) turns cfg t game := by
  have hrest := restReadAs_sideToMove exp game turns cfg humanProfile t
  have hnamed : ∀ root, (byTurn turns t).bind TurnResponse.rootInfo = some root →
      ∀ p, root.currentPlayer = some p →
        RootReadAs (assemble exp game turns cfg humanProfile) turns t p := by
    intro root hroot p hp
    refine rootReadAs_of exp game turns cfg humanProfile t p fun root' hroot' => ?_
    rw [hroot, Option.some.injEq] at hroot'
    subst hroot'
    rw [hp]
    exact ⟨fun _ _ _ => rfl, fun _ _ _ _ _ => rfl⟩
  have hnone : ∀ root, (byTurn turns t).bind TurnResponse.rootInfo = some root →
      root.currentPlayer = none → HandsOver game t →
        RootReadAs (assemble exp game turns cfg humanProfile) turns t (sideToMoveAt game t) := by
    intro root hroot hp ho
    refine rootReadAs_of exp game turns cfg humanProfile t _ fun root' hroot' => ?_
    rw [hroot, Option.some.injEq] at hroot'
    subst hroot'
    rw [hp]
    constructor
    · intro c mv hc
      exact (sideToMoveAt_mover hc).symm
    · intro i c mv hi hc
      subst hi
      exact (sideToMoveAt_next hc ho).symm
  refine ⟨hrest, hnamed, hnone, fun root hroot hone => ?_⟩
  rcases hone with hp | ⟨hp, ho⟩
  · exact ⟨_, hnamed root hroot _ hp, hrest⟩
  · exact ⟨_, hnone root hroot hp ho, hrest⟩

end

/-! A game of one move, whose first position the engine says is White's to move. -/

def skewedGame : ParsedGame :=
  { boardSize := 19
    komi := 15 / 2
    rules := .chinese
    result := none
    initialStones := []
    moves := [(.black, "D4")] }

def skewedTurn : TurnResponse :=
  { turnNumber := 0
    rootInfo := some ⟨7 / 10, 2, some .white⟩
    moveInfos := [⟨"D4", 7 / 10, 2, 1 / 2, 10, none, 0, []⟩]
    ownership := none
    ownershipStdev := none
    policy := none
    humanPolicy := none }

def skewedConfig : EngineConfig :=
  { backend := .flex
    model := "g170e-b10c128.bpk"
    maxVisits := 200
    analysisPvLen := 8
    includeOwnership := false
    includeOwnershipStdev := false
    includePolicy := false
    humanModel := ""
    topK := 5
    defaultKomi := 15 / 2
    defaultBoardSize := 19
    screenVisits := 0 }

theorem turn_frames_skewed :
    RootReadAs (assemble id skewedGame [skewedTurn] skewedConfig none) [skewedTurn] 0 .white :=
  (turn_frames id skewedGame [skewedTurn] skewedConfig none 0).named ⟨7 / 10, 2, some .white⟩ rfl
    .white rfl

/-- There the root is read as White's and the candidate as Black's. -/
theorem turn_frames_differ :
    ¬ ∀ (exp : ℚ → ℚ) (game : ParsedGame) (turns : List TurnResponse) (cfg : EngineConfig)
        (humanProfile : Option String) (t : Nat),
      OneFrame (assemble exp game turns cfg humanProfile) turns cfg t := by
  intro h
  obtain ⟨R, hroot, hrest⟩ := h id skewedGame [skewedTurn] skewedConfig none 0
  have hbefore := (hroot.before _ _ rfl rfl).1
  have hcand := congrArg (List.map Candidate.winrate) (hrest.candidates _ _ rfl rfl)
  cases R with
  | black => exact absurd hbefore (by decide +kernel)
  | white => exact absurd hcand (by decide +kernel)

/-! ## the truth, as the mover sees it -/

/-- what is true of a position, every value stated for Black -/
structure Position where
  eval : Eval
  candidates : List MoveInfo
  ownership : List ℚ

def MoveInfo.stated (viewer : Color) (info : MoveInfo) : MoveInfo :=
  { info with
    winrate := (info.eval.seen .black viewer).winrate
    scoreLead := (info.eval.seen .black viewer).scoreLead }

/-- The response states the position in the frame of the side to move, which its root evaluation
names; in an alternating game it may name nobody. -/
structure TurnResponse.States (game : ParsedGame) (r : TurnResponse) (p : Position) : Prop where
  root : ∃ root, r.rootInfo = some root ∧
    root.eval = p.eval.seen .black (sideToMoveAt game r.turnNumber) ∧
    (root.currentPlayer = some (sideToMoveAt game r.turnNumber) ∨
      root.currentPlayer = none ∧ Alternating game)
  candidates : r.moveInfos = p.candidates.map (MoveInfo.stated (sideToMoveAt game r.turnNumber))
  ownership : r.ownership = some (p.ownership.map (ownedBy (sideToMoveAt game r.turnNumber)))
  points : p.ownership.length = game.boardSize * game.boardSize

/-- a loss graded by three bounds -/
structure Graded (a b c loss : ℚ) (grade : Classification) : Prop where
  good : grade = .good ↔ loss < a
  inaccuracy : grade = .inaccuracy ↔ a ≤ loss ∧ loss < b
  mistake : grade = .mistake ↔ b ≤ loss ∧ loss < c
  blunder : grade = .blunder ↔ c ≤ loss

/-- the annotation of a move by `c` from position `p` to position `q` -/
structure MoveAnnotation.Reports (cfg : EngineConfig) (c : Color) (p q : Position)
    (m : MoveAnnotation) : Prop where
  color : m.color = c
  bestWinrate : m.bestWinrate = (p.eval.seen .black c).winrate
  scoreLead : m.scoreLead = (p.eval.seen .black c).scoreLead
  winrate : m.winrate = (q.eval.seen .black c).winrate
  winrateLoss : m.winrateLoss
    = max 0 ((p.eval.seen .black c).winrate - (q.eval.seen .black c).winrate)
  scoreLoss : m.scoreLoss
    = max 0 ((p.eval.seen .black c).scoreLead - (q.eval.seen .black c).scoreLead)
  winrateClassification : Graded (3 / 100) (7 / 100) (15 / 100)
    (max 0 ((p.eval.seen .black c).winrate - (q.eval.seen .black c).winrate))
    m.winrateClassification
  scoreClassification : Graded 1 3 6
    (max 0 ((p.eval.seen .black c).scoreLead - (q.eval.seen .black c).scoreLead))
    m.scoreClassification
  topMoves : m.topMoves = (bestInfos cfg p.candidates).map (MoveInfo.candidate .black c)

theorem graded_chain {a b c : ℚ} (hab : a ≤ b) (hbc : b ≤ c) (loss : ℚ) :
    Graded a b c loss (if loss < a then .good else if loss < b then .inaccuracy
      else if loss < c then .mistake else .blunder) := by
  rcases lt_or_ge loss a with ha | ha
  · have hb : loss < b := lt_of_lt_of_le ha hab
    have hc : loss < c := lt_of_lt_of_le hb hbc
    constructor <;> simp [ha, ha.not_ge, hb.not_ge, hc.not_ge]
  · rcases lt_or_ge loss b with hb | hb
    · have hc : loss < c := lt_of_lt_of_le hb hbc
      constructor <;> simp [ha, ha.not_gt, hb, hb.not_ge, hc.not_ge]
    · rcases lt_or_ge loss c with hc | hc
      · constructor <;> simp [ha.not_gt, hb, hb.not_gt, hc, hc.not_ge]
      · constructor <;> simp [ha.not_gt, hb.not_gt, hc, hc.not_gt]

theorem classifyWinrate_graded (loss : ℚ) :
    Graded (3 / 100) (7 / 100) (15 / 100) loss (classifyWinrate loss) :=
  graded_chain (by norm_num) (by norm_num) loss

theorem classifyScore_graded (loss : ℚ) : Graded 1 3 6 loss (classifyScore loss) :=
  graded_chain (by norm_num) (by norm_num) loss

theorem MoveInfo.stated_eval (viewer : Color) (info : MoveInfo) :
    (info.stated viewer).eval = info.eval.seen .black viewer := rfl

theorem MoveInfo.stated_candidate (c : Color) (info : MoveInfo) :
    (info.stated c).candidate c c = info.candidate .black c := by
  unfold MoveInfo.candidate
  rw [MoveInfo.stated_eval, Eval.seen_seen]
  rfl

theorem bestInfos_stated (cfg : EngineConfig) (c : Color) (infos : List MoveInfo) :
    bestInfos cfg (infos.map (MoveInfo.stated c))
      = (bestInfos cfg infos).map (MoveInfo.stated c) := by
  have hsort := List.map_insertionSort (fun a b : MoveInfo => a.order ≤ b.order)
    (fun a b : MoveInfo => a.order ≤ b.order) (MoveInfo.stated c) infos fun _ _ _ _ => Iff.rfl
  unfold bestInfos
  rw [List.map_take, hsort]

/-- A root evaluation that states the truth for its reporter is the truth, whoever looks. -/
theorem RootInfo.asSeenBy_stated {root : RootInfo} {truth : Eval} {reporter sideToMove : Color}
    (heval : root.eval = truth.seen .black reporter)
    (hrep : root.currentPlayer.getD sideToMove = reporter) (viewer : Color) :
    root.asSeenBy viewer sideToMove = truth.seen .black viewer := by
  rw [RootInfo.asSeenBy_eq, hrep, heval, Eval.seen_seen]

theorem hundredths_ownedBy (reporter : Color) (cell : ℚ) :
    hundredths reporter (ownedBy reporter cell) = clamp (-100) 100 (roundAway (100 * cell)) := by
  rw [hundredths_eq, ownedBy_ownedBy]

theorem ownership_stated {game : ParsedGame} {turns : List TurnResponse} {truth : Nat → Position}
    (h : ∀ t ≤ game.moves.length, ∃ r, byTurn turns t = some r ∧ r.turnNumber = t ∧
      r.States game (truth t)) :
    normaliseOwnership game (byTurn turns) = (List.range (game.moves.length + 1)).map fun t =>
      (truth t).ownership.map fun cell => clamp (-100) 100 (roundAway (100 * cell)) := by
  unfold normaliseOwnership
  rw [perTurnGrid_full game (byTurn turns) _ 0 _
    (fun t => (truth t).ownership.map (ownedBy (sideToMoveAt game t)))]
  · refine List.map_congr_left fun t ht => ?_
    obtain ⟨r, -, -, hs⟩ := h t (Nat.lt_succ_iff.mp (List.mem_range.mp ht))
    rw [List.take_of_length_le (by rw [List.length_map, hs.points]), List.map_map]
    refine List.map_congr_left fun cell _ => ?_
    exact hundredths_ownedBy (sideToMoveAt game t) cell
  · intro t ht
    obtain ⟨r, hr, hrt, hs⟩ := h t ht
    constructor
    · rw [hr, Option.bind_some, hs.ownership, hrt]
    · rw [List.length_map, hs.points, Nat.add_zero]

theorem annotateMove_reports {game : ParsedGame} {turns : List TurnResponse} {cfg : EngineConfig}
    {i : Nat} {c : Color} {mv : String} {p q : Position} {before after : TurnResponse}
    (hm : game.moves[i]? = some (c, mv))
    (hb : byTurn turns i = some before) (hbt : before.turnNumber = i) (hbs : before.States game p)
    (ha : byTurn turns (i + 1) = some after) (hat : after.turnNumber = i + 1)
    (has : after.States game q) :
    (annotateMove game (byTurn turns) cfg i c mv).Reports cfg c p q := by
  have hside : sideToMoveAt game i = c := sideToMoveAt_mover hm
  -- the root of turn `i`, read before the move
  obtain ⟨root, hroot, heval, hplayer⟩ := hbs.root
  rw [hbt, hside] at heval hplayer
  have hrep : root.currentPlayer.getD c = c := by
    rcases hplayer with h | ⟨h, -⟩
    · rw [h]
      rfl
    · rw [h]
      rfl
  have hresp : (byTurn turns i).bind TurnResponse.rootInfo = some root := by
    rw [hb, Option.bind_some, hroot]
  have hbefore := annotateMove_before game cfg c mv hresp
  rw [RootInfo.asSeenBy_stated heval hrep] at hbefore
  -- the root of turn `i + 1`, read after it
  obtain ⟨root', hroot', heval', hplayer'⟩ := has.root
  rw [hat] at heval' hplayer'
  have hrep' : root'.currentPlayer.getD c.other = sideToMoveAt game (i + 1) := by
    rcases hplayer' with h | ⟨h, halt⟩
    · rw [h]
      rfl
    · rw [h, sideToMoveAt_next hm (halt (i + 1))]
      rfl
  have hresp' : (byTurn turns (i + 1)).bind TurnResponse.rootInfo = some root' := by
    rw [ha, Option.bind_some, hroot']
  have hafter := annotateMove_after game cfg c mv hresp'
  rw [RootInfo.asSeenBy_stated heval' hrep'] at hafter
  have htop := annotateMove_candidates game cfg c mv hb
  rw [hbs.candidates, hbt, hside, bestInfos_stated, List.map_map] at htop
  have hcand : MoveInfo.candidate c c ∘ MoveInfo.stated c = MoveInfo.candidate .black c := by
    funext info
    exact MoveInfo.stated_candidate c info
  rw [hcand] at htop
  have hwloss : (annotateMove game (byTurn turns) cfg i c mv).winrateLoss
      = max 0 ((p.eval.seen .black c).winrate - (q.eval.seen .black c).winrate) := by
    rw [← hbefore.1, ← hafter.1, max_comm]
    rfl
  have hsloss : (annotateMove game (byTurn turns) cfg i c mv).scoreLoss
      = max 0 ((p.eval.seen .black c).scoreLead - (q.eval.seen .black c).scoreLead) := by
    rw [hafter.2, hbefore.2, max_comm]
  exact
    { color := rfl
      bestWinrate := hbefore.1
      scoreLead := hbefore.2
      winrate := hafter.1
      winrateLoss := hwloss
      scoreLoss := hsloss
      winrateClassification := by
        rw [← hwloss]
        exact classifyWinrate_graded _
      scoreClassification := by
        rw [← hsloss]
        exact classifyScore_graded _
      topMoves := htop }

/-- **Every number in its owner's frame.**  When every turn's response states the truth in the
frame of the side to move, every move is annotated with the mover's view of it, and every
ownership grid is Black's. -/
theorem annotations_in_movers_frame (exp : ℚ → ℚ) (game : ParsedGame)
    (turns : List TurnResponse) (cfg : EngineConfig) (humanProfile : Option String)
    (truth : Nat → Position)
    (hcover : ∀ t ≤ game.moves.length, ∃ r ∈ turns, r.turnNumber = t)
    (hstates : ∀ r ∈ turns, r.turnNumber ≤ game.moves.length →
      r.States game (truth r.turnNumber)) :
    let out := assemble exp game turns cfg humanProfile
    (∀ (i : Nat) (c : Color) (mv : String), game.moves[i]? = some (c, mv) →
      ∃ m : MoveAnnotation, out.moves[i]? = some m ∧ m.Reports cfg c (truth i) (truth (i + 1))) ∧
    out.ownership = (List.range (game.moves.length + 1)).map fun t =>
      (truth t).ownership.map fun cell => clamp (-100) 100 (roundAway (100 * cell)) := by
  have hturn : ∀ t ≤ game.moves.length, ∃ r, byTurn turns t = some r ∧ r.turnNumber = t ∧
      r.States game (truth t) := by
    intro t ht
    obtain ⟨r, hr⟩ := byTurn_exists (hcover t ht)
    obtain ⟨hmem, hrt⟩ := byTurn_mem hr
    have hs := hstates r hmem (by rw [hrt]; exact ht)
    rw [hrt] at hs
    exact ⟨r, hr, hrt, hs⟩
  refine ⟨?_, ownership_stated hturn⟩
  intro i c mv hm
  have hi : i < game.moves.length := (List.getElem?_eq_some_iff.mp hm).1
  obtain ⟨before, hb, hbt, hbs⟩ := hturn i hi.le
  obtain ⟨after, ha, hat, has⟩ := hturn (i + 1) hi
  refine ⟨_, ?_, annotateMove_reports hm hb hbt hbs ha hat has⟩
  rw [assemble_move, hm]
  rfl

/-- a response that states `p` at `turn` -/
def TurnResponse.stating (game : ParsedGame) (turn : Nat) (p : Position) : TurnResponse :=
  let side := sideToMoveAt game turn
  let root := p.eval.seen .black side
  { turnNumber := turn
    rootInfo := some ⟨root.winrate, root.scoreLead, some side⟩
    moveInfos := p.candidates.map (MoveInfo.stated side)
    ownership := some (p.ownership.map (ownedBy side))
    ownershipStdev := none
    policy := none
    humanPolicy := none }

theorem TurnResponse.stating_states {game : ParsedGame} {turn : Nat} {p : Position}
    (h : p.ownership.length = game.boardSize * game.boardSize) :
    (TurnResponse.stating game turn p).States game p where
  root := ⟨_, rfl, rfl, Or.inl rfl⟩
  candidates := rfl
  ownership := rfl
  points := h

/-! Black plays twice in a row on a board of four points. -/

def runGame : ParsedGame :=
  { boardSize := 2
    komi := 1 / 2
    rules := .chinese
    result := none
    initialStones := []
    moves := [(.black, "A1"), (.black, "B2")] }

def runTruth (turn : Nat) : Position :=
  { eval := ⟨(6 - turn) / 10, 1 - turn⟩
    candidates := [⟨"A2", (6 - turn) / 10, 1 - turn, 1 / 2, 10, none, 0, []⟩]
    ownership := [1, -1 / 3, turn / 7, 0] }

theorem annotations_in_movers_frame_run :
    ∃ m : MoveAnnotation,
      (assemble id runGame ((List.range 3).map fun t => .stating runGame t (runTruth t))
        skewedConfig none).moves[1]? = some m ∧
      m.Reports skewedConfig .black (runTruth 1) (runTruth 2) := by
  refine (annotations_in_movers_frame id runGame _ skewedConfig none runTruth ?_ ?_).1 1
    .black "B2" rfl
  · intro t ht
    have hlt : t < 3 := Nat.lt_succ_of_le ht
    exact ⟨_, List.mem_map.mpr ⟨t, List.mem_range.mpr hlt, rfl⟩, rfl⟩
  · intro r hr _
    obtain ⟨t, -, rfl⟩ := List.mem_map.mp hr
    exact TurnResponse.stating_states rfl

end KatagoWs
