import KatagoWs.Engine.Annotate

/-!
# Per-turn grids

The payload has four grids with a row for every turn.  Their readers index them by turn, so a
grid with a gap would shift a row onto its neighbour: each is whole or empty, on its own.

* `byTurn_iff`        the response of a turn is the last one with its number;
* `perTurnGrid_cases` a grid has the rows of all turns, or one turn has no row and it is empty;
* `GridKept`          the contract of one grid, `perTurnGrid_kept` that every grid keeps it;
* `grids_kept`        the four grids of the payload, and its flags.
-/

namespace KatagoWs
open Lib

/-! ## the response of a turn -/

def Answers (turns : List TurnResponse) (t : Nat) (r : TurnResponse) : Prop :=
  ∃ before after, turns = before ++ r :: after ∧ r.turnNumber = t ∧
    ∀ q ∈ after, q.turnNumber ≠ t

theorem byTurn_iff {turns : List TurnResponse} {t : Nat} {r : TurnResponse} :
    byTurn turns t = some r ↔ Answers turns t r := by
  unfold byTurn Answers
  rw [List.find?_eq_some_iff_append]
  constructor
  · rintro ⟨hr, as, bs, he, has⟩
    refine ⟨bs.reverse, as.reverse, ?_, beq_iff_eq.mp hr, fun q hq hqt => ?_⟩
    · have hrev := congrArg List.reverse he
      rw [List.reverse_reverse] at hrev
      simpa using hrev
    · have hn := has q (List.mem_reverse.mp hq)
      rw [hqt, beq_self_eq_true] at hn
      exact absurd hn (by decide)
  · rintro ⟨before, after, rfl, hr, hafter⟩
    refine ⟨beq_iff_eq.mpr hr, after.reverse, before.reverse, by simp, fun q hq => ?_⟩
    rw [Bool.not_eq_true', beq_eq_false_iff_ne]
    exact hafter q (List.mem_reverse.mp hq)

/-! ## the contract of a grid -/

section
variable {T : Type} (game : ParsedGame) (turns : List TurnResponse)
  (field : TurnResponse → Option (List ℚ)) (trailing : Nat) (encode : Nat → ℚ → T)

def HasArray (t : Nat) (raw : List ℚ) : Prop :=
  ∃ r, Answers turns t r ∧ field r = some raw ∧
    raw.length = game.boardSize * game.boardSize + trailing

theorem hasArray_iff {t : Nat} {raw : List ℚ} : HasArray game turns field trailing t raw ↔
    (byTurn turns t).bind field = some raw ∧
      raw.length = game.boardSize * game.boardSize + trailing := by
  rw [Option.bind_eq_some_iff]
  constructor
  · rintro ⟨r, hr, hraw, hlen⟩
    exact ⟨⟨r, byTurn_iff.mpr hr, hraw⟩, hlen⟩
  · rintro ⟨⟨r, hr, hraw⟩, hlen⟩
    exact ⟨r, byTurn_iff.mp hr, hraw, hlen⟩

/-- a grid is whole and turn-aligned, or empty because a turn has no array of the right size -/
structure GridKept (grid : List (List T)) : Prop where
  empty : grid = [] ↔
    ∃ t ≤ game.moves.length, ¬ ∃ raw, HasArray game turns field trailing t raw
  rows : grid ≠ [] → grid.length = game.moves.length + 1
  row : ∀ t row, grid[t]? = some row → row.length = game.boardSize * game.boardSize ∧
    ∃ raw, HasArray game turns field trailing t raw ∧
      row = (raw.take (game.boardSize * game.boardSize)).map (encode t)

theorem gridRow_isSome (t : Nat) :
    (∃ row, gridRow game (byTurn turns) field trailing encode t = some row) ↔
      ∃ raw, HasArray game turns field trailing t raw := by
  constructor
  · rintro ⟨row, hrow⟩
    obtain ⟨raw, hraw, hlen, _⟩ := (gridRow_eq_some game _ field trailing encode t row).mp hrow
    obtain ⟨r, hr, hfield⟩ := Option.bind_eq_some_iff.mp hraw
    exact ⟨raw, r, byTurn_iff.mp hr, hfield, hlen⟩
  · rintro ⟨raw, r, hr, hfield, hlen⟩
    have hraw : (byTurn turns t).bind field = some raw := by
      rw [byTurn_iff.mpr hr]
      exact hfield
    exact ⟨_, (gridRow_eq_some game _ field trailing encode t _).mpr ⟨raw, hraw, hlen, rfl⟩⟩

theorem perTurnGrid_cases (responses : Nat → Option TurnResponse) :
    (perTurnGrid game responses field trailing encode = [] ∧
      ∃ t ≤ game.moves.length, gridRow game responses field trailing encode t = none) ∨
    ((perTurnGrid game responses field trailing encode).length = game.moves.length + 1 ∧
      ∀ t ≤ game.moves.length,
        ∃ row, gridRow game responses field trailing encode t = some row) := by
  unfold perTurnGrid
  cases hm : (List.range (game.moves.length + 1)).mapM
      (gridRow game responses field trailing encode) with
  | none =>
    obtain ⟨t, ht, hn⟩ := (mapM_eq_none _ _).mp hm
    exact Or.inl ⟨rfl, t, Nat.lt_succ_iff.mp (List.mem_range.mp ht), hn⟩
  | some rows =>
    have hrows := (mapM_eq_some _ _ _).mp hm
    have hlen : rows.length = game.moves.length + 1 := by
      have h := congrArg List.length hrows
      rw [List.length_map, List.length_map, List.length_range] at h
      exact h.symm
    refine Or.inr ⟨hlen, fun t ht => ?_⟩
    have hlt : t < rows.length := by omega
    have h := congrArg (fun l : List (Option (List T)) => l[t]?) hrows
    simp only [List.getElem?_map, List.getElem?_range (Nat.lt_succ_of_le ht), Option.map_some,
      List.getElem?_eq_getElem hlt, Option.some.injEq] at h
    exact ⟨_, h⟩

theorem perTurnGrid_kept : GridKept game turns field trailing encode
    (perTurnGrid game (byTurn turns) field trailing encode) := by
  have hnone : ∀ t, gridRow game (byTurn turns) field trailing encode t = none ↔
      ¬ ∃ raw, HasArray game turns field trailing t raw := by
    intro t
    rw [← gridRow_isSome game turns field trailing encode t]
    cases gridRow game (byTurn turns) field trailing encode t <;> simp
  have hrow : ∀ t row, (perTurnGrid game (byTurn turns) field trailing encode)[t]? = some row →
      row.length = game.boardSize * game.boardSize ∧
      ∃ raw, HasArray game turns field trailing t raw ∧
        row = (raw.take (game.boardSize * game.boardSize)).map (encode t) := by
    intro t row h
    obtain ⟨raw, hraw, hlen, hrow⟩ := perTurnGrid_rows game (byTurn turns) field trailing encode h
    obtain ⟨r, hr, hfield⟩ := Option.bind_eq_some_iff.mp hraw
    refine ⟨?_, raw, ⟨r, byTurn_iff.mp hr, hfield, hlen⟩, hrow.symm⟩
    rw [← hrow, List.length_map, List.length_take, hlen]
    omega
  rcases perTurnGrid_cases game field trailing encode (byTurn turns) with
    ⟨he, t, ht, hn⟩ | ⟨hlen, hall⟩
  · exact ⟨⟨fun _ => ⟨t, ht, (hnone t).mp hn⟩, fun _ => he⟩, fun hne => absurd he hne, hrow⟩
  · refine ⟨⟨fun he => ?_, fun ⟨t, ht, hn⟩ => ?_⟩, fun _ => hlen, hrow⟩
    · rw [he] at hlen
      cases hlen
    · obtain ⟨row, hr⟩ := hall t ht
      rw [(hnone t).mpr hn] at hr
      cases hr

end

/-! ## the grids of the payload -/

/-- the four grids, each on its own, and the flags that announce three of them -/
structure GridsKept (game : ParsedGame) (turns : List TurnResponse) (out : GameAnalysis) :
    Prop where
  ownership : GridKept game turns TurnResponse.ownership 0
    (fun turn cell => clamp (-100) 100 (roundAway (100 * ownedBy (sideToMoveAt game turn) cell)))
    out.ownership
  ownershipStdev : GridKept game turns TurnResponse.ownershipStdev 0
    (fun _ stdev => clamp 0 100 (roundAway (100 * stdev))) out.ownershipStdev
  policy : ∃ byte : ℚ → Nat, (∀ p, PolicyByte p (byte p)) ∧
    GridKept game turns TurnResponse.policy 1 (fun _ => byte) out.policy
  humanPolicy : ∃ byte : ℚ → Nat, (∀ p, PolicyByte p (byte p)) ∧
    GridKept game turns TurnResponse.humanPolicy 1 (fun _ => byte) out.humanPolicy
  ownershipFlag : out.engine.ownership = true ↔ out.ownership ≠ []
  ownershipStdevFlag : out.engine.ownershipStdev = true ↔ out.ownershipStdev ≠ []
  policyFlag : out.engine.policy = true ↔ out.policy ≠ []

theorem not_isEmpty_iff {A : Type*} (l : List A) : (!l.isEmpty) = true ↔ l ≠ [] := by
  cases l <;> simp

/-- **Per-turn grids** are whole or empty, each on its own, and aligned with the turns. -/
theorem grids_kept (exp : ℚ → ℚ) (game : ParsedGame) (turns : List TurnResponse)
    (cfg : EngineConfig) (humanProfile : Option String) :
    GridsKept game turns (assemble exp game turns cfg humanProfile) where
  ownership := by
    have hcell : (fun turn cell => clamp (-100) 100 (roundAway (100 *
        ownedBy (sideToMoveAt game turn) cell)))
        = fun turn cell => hundredths (sideToMoveAt game turn) cell :=
      funext fun turn => funext fun cell => (hundredths_eq _ cell).symm
    rw [hcell]
    exact perTurnGrid_kept game turns _ 0 _
  ownershipStdev := by
    have hcell : (fun (_ : Nat) (stdev : ℚ) => clamp 0 100 (roundAway (100 * stdev)))
        = fun _ stdev => clamp 0 100 (roundAway (stdev * 100)) :=
      funext fun _ => funext fun stdev => by rw [mul_comm]
    rw [hcell]
    exact perTurnGrid_kept game turns _ 0 _
  policy := ⟨encodePolicy, encodePolicy_byte, perTurnGrid_kept game turns _ 1 _⟩
  humanPolicy := ⟨encodePolicy, encodePolicy_byte, perTurnGrid_kept game turns _ 1 _⟩
  ownershipFlag := not_isEmpty_iff _
  ownershipStdevFlag := not_isEmpty_iff _
  policyFlag := not_isEmpty_iff _

end KatagoWs
