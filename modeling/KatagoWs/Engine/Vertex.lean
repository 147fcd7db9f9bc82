import KatagoWs.Engine.Annotate

/-!
# GTP vertices: moves as the engine takes them

Three conventions meet here: SGF points count from the top left, GTP rows from the bottom with
the letter `I` skipped, and the policy array runs row by row from the top left and ends with
pass.

* `parse_ok`           what an accepted record becomes, from its main variation;
* `policyIndex_toGtp`  a vertex, printed and read again, is back at its point;
* `toGtp_inj`          no two points of a board share a vertex;
* `parse_moves`        one entry a move, in order, each with the policy entry of its point.
-/

namespace KatagoWs
open Lib

/-! ## what `collect` makes of the record -/

theorem mapM_ok {α β : Type} (f : α → AppResult β) {l : List α} {r : List β}
    (h : l.mapM f = .ok r) : List.Forall₂ (fun a b => f a = .ok b) l r := by
  induction l generalizing r with
  | nil =>
    cases h
    exact List.Forall₂.nil
  | cons a l ih =>
    rw [List.mapM_cons] at h
    obtain ⟨b, hb, h⟩ := bind_ok.mp h
    obtain ⟨bs, hbs, h⟩ := bind_ok.mp h
    cases h
    exact List.Forall₂.cons hb (ih hbs)

theorem translate_ok {α : Type} {f : α → Nat → AppResult String} {boardSize : Nat}
    {l : List (Color × α)} {r : List ColoredMove} (h : translate f boardSize l = .ok r) :
    List.Forall₂ (fun p q => q.1 = p.1 ∧ f p.2 boardSize = .ok q.2) l r := by
  refine (mapM_ok _ h).imp fun p q hpq => ?_
  cases hf : f p.2 boardSize with
  | error e =>
    rw [hf] at hpq
    cases hpq
  | ok vertex =>
    rw [hf] at hpq
    cases hpq
    exact ⟨rfl, rfl⟩

structure Collected (s : Scan) (game : ParsedGame) : Prop where
  size : 1 ≤ game.boardSize ∧ game.boardSize ≤ 25
  stones : List.Forall₂ (fun p q => q.1 = p.1 ∧ toGtp p.2 game.boardSize = .ok q.2)
    (s.setup.insertionSort setupLe) game.initialStones
  moves : List.Forall₂ (fun p q => q.1 = p.1 ∧ moveToGtp p.2 game.boardSize = .ok q.2)
    s.moves game.moves

theorem collect_ok {s : Scan} {defaultSize : Nat} {komi : ℚ} {game : ParsedGame}
    (h : collect s defaultSize komi = .ok game) : Collected s game := by
  unfold collect at h
  dsimp only at h
  split at h
  case isTrue => cases h
  case isFalse hsize =>
    obtain ⟨stones, hs, h⟩ := bind_ok.mp h
    obtain ⟨moves, hm, h⟩ := bind_ok.mp h
    cases h
    have hlen : GTP_LETTERS.length = 25 := rfl
    have hsize' : 1 ≤ s.size.getD defaultSize ∧ s.size.getD defaultSize ≤ 25 := by omega
    exact ⟨hsize', translate_ok hs, translate_ok hm⟩

section
variable (goParse : String → Except String (List SgfNode))

/-- **An accepted record**: its main variation is replayable, and the game is made of what the
nodes name. -/
theorem parse_ok {sgf : String} {defaultSize : Nat} {komi : ℚ} {nodes : List (List GoProp)}
    {game : ParsedGame} (hn : mainLine goParse sgf = some nodes)
    (h : parse goParse sgf defaultSize komi = .ok game) :
    replayable false nodes = true ∧ Collected (nodes.foldl Scan.take Scan.start) game := by
  unfold parse at h
  unfold mainLine at hn
  cases hg : goParse sgf with
  | error err =>
    rw [hg] at hn
    cases hn
  | ok trees =>
    cases trees with
    | nil =>
      rw [hg] at hn
      cases hn
    | cons root trees =>
      rw [hg] at hn h
      cases hn
      obtain ⟨s, hs, h⟩ := bind_ok.mp h
      obtain ⟨hrep, rfl⟩ := scan_ok.mp hs
      exact ⟨hrep, collect_ok h⟩

end

/-! ## a vertex, printed and read again -/

theorem row_digits : ∀ row < 26,
    parseUsize (toString row).toList = some row ∧ (toString row).toList.length ≤ 2 := by decide

theorem letter_column : ∀ x < 25,
    GTP_LETTERS.idxOf? ((GTP_LETTERS[x]?).getD '?').toUpper = some x := by decide

theorem vertex_toList (letter : Char) (row : Nat) :
    s!"{letter}{row}".toList = letter :: (toString row).toList := by
  rw [String.toList_append]
  show (String.singleton letter).toList ++ _ = _
  rw [String.toList_singleton]
  rfl

def Point.slot (boardSize : Nat) (point : Point) : Nat := point.y * boardSize + point.x

theorem Point.slot_lt {boardSize : Nat} {point : Point} (h : point.onBoard boardSize) :
    point.slot boardSize < boardSize * boardSize := by
  obtain ⟨hx, hy⟩ := h
  calc point.y * boardSize + point.x < point.y * boardSize + boardSize := by omega
    _ = (point.y + 1) * boardSize := by ring
    _ ≤ boardSize * boardSize := Nat.mul_le_mul_right _ hy

theorem Point.slot_inj {boardSize : Nat} {p q : Point} (hp : p.onBoard boardSize)
    (hq : q.onBoard boardSize) (h : p.slot boardSize = q.slot boardSize) : p = q := by
  obtain ⟨px, py⟩ := p
  obtain ⟨qx, qy⟩ := q
  have hx : px = qx := by
    have hmod := congrArg (fun n => n % boardSize) h
    simp only [Point.slot, Nat.mul_add_mod_self_right, Nat.mod_eq_of_lt hp.1,
      Nat.mod_eq_of_lt hq.1] at hmod
    exact hmod
  subst hx
  have hpos : 0 < boardSize := lt_of_le_of_lt (Nat.zero_le _) hp.1
  have hy : py = qy := Nat.eq_of_mul_eq_mul_right hpos (Nat.add_right_cancel h)
  rw [hy]

def Point.vertex (boardSize : Nat) (point : Point) : String :=
  let letter := (GTP_LETTERS[point.x]?).getD '?'
  s!"{letter}{boardSize - point.y}"

theorem toGtp_ok {point : Point} {boardSize : Nat} {vertex : String}
    (h : toGtp point boardSize = .ok vertex) :
    point.onBoard boardSize ∧ vertex = point.vertex boardSize := by
  unfold toGtp at h
  dsimp only at h
  split at h
  case isTrue => cases h
  case isFalse hb =>
    cases h
    exact ⟨⟨by omega, by omega⟩, rfl⟩

theorem not_pass {letter : Char} {row : Nat} (h : row < 26) :
    eqIgnoreAsciiCase s!"{letter}{row}" "pass" = false := by
  rw [eqIgnoreAsciiCase, beq_eq_false_iff_ne]
  intro he
  have hlen := congrArg List.length he
  rw [vertex_toList, List.length_map, List.length_map, List.length_cons] at hlen
  have hrow := (row_digits row h).2
  have hp : "pass".toList.length = 4 := rfl
  omega

theorem policyIndex_toGtp {point : Point} {boardSize : Nat} {vertex : String}
    (hs : boardSize ≤ 25) (h : toGtp point boardSize = .ok vertex) :
    policyIndex vertex boardSize = some (point.slot boardSize) ∧ vertex ≠ "pass" := by
  obtain ⟨⟨hx, hy⟩, rfl⟩ := toGtp_ok h
  have hrow : boardSize - point.y < 26 := by omega
  have hpass : eqIgnoreAsciiCase (point.vertex boardSize) "pass" = false := not_pass hrow
  have hcol := letter_column point.x (by omega)
  have hdigits := (row_digits _ hrow).1
  have hin : point.x < boardSize ∧ 1 ≤ boardSize - point.y ∧ boardSize - point.y ≤ boardSize := by
    omega
  have hback : boardSize - (boardSize - point.y) = point.y := by omega
  constructor
  · unfold policyIndex
    rw [hpass, Point.vertex, vertex_toList]
    simp only [Bool.false_eq_true, if_false, hcol, hdigits, Option.bind_eq_bind, Option.bind_some]
    rw [if_pos hin, hback]
    rfl
  · intro he
    rw [he] at hpass
    exact absurd hpass (by decide)

theorem toGtp_vertex {point : Point} {boardSize : Nat} (h : point.onBoard boardSize) :
    toGtp point boardSize = .ok (point.vertex boardSize) := by
  have hok := toGtp_isOk.mpr h
  cases hv : toGtp point boardSize with
  | error e =>
    rw [hv] at hok
    cases hok
  | ok vertex => rw [(toGtp_ok hv).2]

theorem toGtp_inj {p q : Point} {boardSize : Nat} {vertex : String} (hs : boardSize ≤ 25)
    (hp : toGtp p boardSize = .ok vertex) (hq : toGtp q boardSize = .ok vertex) : p = q := by
  have hslot := (policyIndex_toGtp hs hp).1.symm.trans (policyIndex_toGtp hs hq).1
  exact Point.slot_inj (toGtp_ok hp).1 (toGtp_ok hq).1 (Option.some.inj hslot)

/-! ## moves -/

def Move.isPass (boardSize : Nat) (mv : Move) : Prop :=
  mv = .pass ∨ (mv = .move ⟨19, 19⟩ ∧ boardSize ≤ 19)

/-- the entry of a move in a policy array: its point's, or the last one -/
def Move.slot (boardSize : Nat) : Move → Nat
  | .pass => boardSize * boardSize
  | .move point =>
    if point = ⟨19, 19⟩ ∧ boardSize ≤ 19 then boardSize * boardSize else point.slot boardSize

/-- one entry of the query's move list, against the move of its node -/
structure Translated (boardSize : Nat) (mv : Move) (vertex : String) : Prop where
  pass : vertex = "pass" ↔ mv.isPass boardSize
  point : ¬ mv.isPass boardSize → ∃ point letter, mv = .move point ∧ point.onBoard boardSize ∧
    GTP_LETTERS[point.x]? = some letter ∧ vertex = s!"{letter}{boardSize - point.y}"
  index : policyIndex vertex boardSize = some (mv.slot boardSize)
  slot : mv.slot boardSize < boardSize * boardSize + 1

theorem Translated.of_pass {boardSize : Nat} {mv : Move} (h : mv.isPass boardSize)
    (hslot : mv.slot boardSize = boardSize * boardSize) : Translated boardSize mv "pass" where
  pass := ⟨fun _ => h, fun _ => rfl⟩
  point := fun hn => absurd h hn
  index := by
    rw [hslot]
    rfl
  slot := by omega

theorem moveToGtp_ok {boardSize : Nat} {mv : Move} {vertex : String} (hs : boardSize ≤ 25)
    (h : moveToGtp mv boardSize = .ok vertex) : Translated boardSize mv vertex := by
  cases mv with
  | pass =>
    cases h
    exact Translated.of_pass (Or.inl rfl) rfl
  | move point =>
    by_cases htt : point = ⟨19, 19⟩ ∧ boardSize ≤ 19
    · have h' : (Except.ok "pass" : AppResult String) = .ok vertex :=
        (if_pos htt).symm.trans h
      cases h'
      exact Translated.of_pass (Or.inr ⟨congrArg _ htt.1, htt.2⟩) (if_pos htt)
    · have hv : toGtp point boardSize = .ok vertex := (if_neg htt).symm.trans h
      have hnp : ¬ (Move.move point).isPass boardSize := by
        rintro (hc | ⟨hc, hle⟩)
        · cases hc
        · exact htt ⟨Move.move.inj hc, hle⟩
      have hslot : (Move.move point).slot boardSize = point.slot boardSize := if_neg htt
      obtain ⟨hon, hvx⟩ := toGtp_ok hv
      obtain ⟨hidx, hne⟩ := policyIndex_toGtp hs hv
      have hlt : point.x < GTP_LETTERS.length := by
        have hlen : GTP_LETTERS.length = 25 := rfl
        have hx := hon.1
        omega
      refine ⟨⟨fun he => absurd he hne, fun hp => absurd hp hnp⟩, fun _ => ?_, ?_, ?_⟩
      · refine ⟨point, GTP_LETTERS[point.x], rfl, hon, List.getElem?_eq_getElem hlt, ?_⟩
        rw [hvx, Point.vertex, List.getElem?_eq_getElem hlt]
        rfl
      · rw [hslot, hidx]
      · rw [hslot]
        exact Nat.lt_succ_of_lt (Point.slot_lt hon)

def nodeMove (node : List GoProp) : Option (Color × Move) := (nodeMoves node).head?

theorem replayable_moves {played : Bool} {nodes : List (List GoProp)}
    (h : replayable played nodes = true) : playedMoves nodes = nodes.filterMap nodeMove := by
  induction nodes generalizing played with
  | nil => rfl
  | cons node nodes ih =>
    rw [replayable, Bool.and_eq_true, Bool.and_eq_true, decide_eq_true_iff] at h
    obtain ⟨⟨_, hlen⟩, hrest⟩ := h
    have hcons : playedMoves (node :: nodes) = nodeMoves node ++ playedMoves nodes :=
      List.flatMap_cons
    have hnode : (nodeMove node).toList = nodeMoves node := toList_head? hlen
    rw [hcons, ih hrest, ← hnode]
    cases hm : nodeMove node with
    | none => rw [List.filterMap_cons_none hm]; rfl
    | some mv => rw [List.filterMap_cons_some hm]; rfl

/-- what `parse` and `assemble` make of the moves of a record -/
structure MovesKept (exp : ℚ → ℚ) (nodes : List (List GoProp)) (game : ParsedGame) : Prop where
  board : 1 ≤ game.boardSize ∧ game.boardSize ≤ 25
  moves : List.Forall₂ (fun p q => q.1 = p.1 ∧ Translated game.boardSize p.2 q.2)
    (nodes.filterMap nodeMove) game.moves
  /-- the prior is the entry of the turn's full array at the point played -/
  prior : ∀ turns cfg humanProfile i color mv response policy,
    (nodes.filterMap nodeMove)[i]? = some (color, mv) → byTurn turns i = some response →
    response.policy = some policy → policy.length = game.boardSize * game.boardSize + 1 →
    ∃ a prob, (assemble exp game turns cfg humanProfile).moves[i]? = some a ∧
      policy[mv.slot game.boardSize]? = some prob ∧ a.prior = some (max prob 0)

theorem policyAt_slot {boardSize : Nat} {mv : Move} {vertex : String} {policy : List ℚ}
    (h : Translated boardSize mv vertex) (hlen : policy.length = boardSize * boardSize + 1) :
    ∃ prob, policy[mv.slot boardSize]? = some prob ∧
      policyAt (some policy) vertex boardSize = some (max prob 0) := by
  have hlt : mv.slot boardSize < policy.length := by
    rw [hlen]
    exact h.slot
  refine ⟨policy[mv.slot boardSize], List.getElem?_eq_getElem hlt, ?_⟩
  have hfull : (some policy).filter (fun policy => policy.length = boardSize * boardSize + 1)
      = some policy := Option.filter_some_pos (decide_eq_true hlen)
  unfold policyAt
  rw [hfull, h.index]
  simp only [Option.bind_eq_bind, Option.bind_some, List.getElem?_eq_getElem hlt]
  rfl

/-- **Moves survive translation and index the policy.** -/
theorem parse_moves (goParse : String → Except String (List SgfNode)) (exp : ℚ → ℚ)
    (sgf : String) (defaultSize : Nat) (komi : ℚ) {nodes : List (List GoProp)}
    {game : ParsedGame} (hn : mainLine goParse sgf = some nodes)
    (h : parse goParse sgf defaultSize komi = .ok game) : MovesKept exp nodes game := by
  obtain ⟨hrep, hc⟩ := parse_ok goParse hn h
  have hscan : (nodes.foldl Scan.take Scan.start).moves = nodes.filterMap nodeMove := by
    rw [(foldl_take Scan.start nodes).2.1]
    exact replayable_moves hrep
  have hmoves : List.Forall₂ (fun p q => q.1 = p.1 ∧ Translated game.boardSize p.2 q.2)
      (nodes.filterMap nodeMove) game.moves := by
    rw [← hscan]
    exact hc.moves.imp fun p q hpq => ⟨hpq.1, moveToGtp_ok hc.size.2 hpq.2⟩
  refine ⟨hc.size, hmoves, ?_⟩
  intro turns cfg humanProfile i color mv response policy hi hr hpol hlen
  obtain ⟨hlt, hget⟩ := List.getElem?_eq_some_iff.mp hi
  have hlt' : i < game.moves.length := hmoves.length_eq ▸ hlt
  have hpair := hmoves.get hlt hlt'
  simp only [List.get_eq_getElem, hget] at hpair
  obtain ⟨prob, hprob, hat⟩ := policyAt_slot hpair.2 hlen
  refine ⟨annotateMove game (byTurn turns) cfg i game.moves[i].1 game.moves[i].2, prob, ?_, hprob,
    ?_⟩
  · rw [assemble_move, List.getElem?_eq_getElem hlt']
    rfl
  · show ((policyAt ((byTurn turns i).bind TurnResponse.policy) game.moves[i].2
      game.boardSize).or _) = _
    rw [hr, Option.bind_some, hpol, hat]
    rfl

/-- what the parser crate answers for a move and a pass in the old spelling -/
def oldPass : String → Except String (List SgfNode)
  | "(;SZ[19];B[pd];W[tt])" =>
    .ok [.mk [.sz 19 19] [.mk [.b (.move ⟨15, 3⟩)] [.mk [.w (.move ⟨19, 19⟩)] []]]]
  | _ => .error "not an SGF"

theorem parse_moves_oldPass :
    MovesKept id [[.sz 19 19], [.b (.move ⟨15, 3⟩)], [.w (.move ⟨19, 19⟩)]]
      ⟨19, 6, .japanese, none, [], [(.black, "Q16"), (.white, "pass")]⟩ :=
  parse_moves oldPass id "(;SZ[19];B[pd];W[tt])" 9 6 rfl (by decide)

end KatagoWs
