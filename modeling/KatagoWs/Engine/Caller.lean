import KatagoWs.Engine.Arrival
import KatagoWs.Engine.Exact

/-!
# The callers of the engine

`KataGo::analyze` sends its query to the owner and waits for the reply, with a timeout.  The
queries of many callers share the processes; still, what one analysis is made of is what an
engine would give that answers one query after the other, turn by turn.

* `KataGo.analyze`      what a call returns, from what its wait came to;
* `Returns`             what a call can return in the runs of the owner;
* `inOrder`             the same calls, the answers of each in the order of its turns;
* `analysis_in_order`   no analysis can tell the two apart.
-/

namespace KatagoWs
open Lib Lib.Batches

deriving instance DecidableEq for EngineConfig, AnalyzeCall

/-- what the wait of a caller comes to -/
inductive Awaited where
  /-- the owner's end of the channel is closed -/
  | stopped
  | replied (reply : Reply)
  /-- the owner dropped the reply channel -/
  | dropped
  | timedOut

/-- `analyze`: one response per requested turn; a call for no turns returns at once. -/
def KataGo.analyze (call : AnalyzeCall) (awaited : Awaited) : AppResult (List TurnResponse) :=
  if call.turns.length = 0 then .ok []
  else
    match awaited with
    | .stopped => .error (.inference "katago engine stopped")
    | .replied (.ok turns) => .ok turns
    | .replied (.error err) => .error (.inference s!"katago: {err}")
    | .dropped => .error (.inference "katago engine dropped the request")
    | .timedOut => .error (.inference "katago analysis timed out")

section
variable (serde : Serde) (answers : AnalysisQuery → TurnResponse → Prop)

/-- What a call can return: a reply is one that the owner has sent, in some run, to a call with
these arguments; the other ways a wait can end are always open. -/
def Returns (call : AnalyzeCall) (result : AppResult (List TurnResponse)) : Prop :=
  ∃ awaited, result = KataGo.analyze call awaited ∧
    ∀ reply, awaited = .replied reply →
      ∃ supervised s t tx,
        (dialogueSys serde supervised).ReachableIf (Answering serde answers) (s, t) ∧
        t.calls[tx]? = some call ∧ (tx, reply) ∈ s.demux.replies

def AnswerTo (call : AnalyzeCall) (n : Nat) (turn : TurnResponse) : Prop :=
  turn.turnNumber = n ∧
    ∃ tx cmd id, call.cmd tx = some cmd ∧ answers { cmd.query with id } turn

/-- the calls of `katago`, the answers of each in the order of its turns -/
def inOrder (katago : AnalyzeCall → AppResult (List TurnResponse))
    (answer : AnalyzeCall → Nat → TurnResponse) (call : AnalyzeCall) :
    AppResult (List TurnResponse) :=
  match katago call with
  | .error err => .error err
  | .ok _ => .ok (call.turns.map (answer call))

variable {serde answers}

theorem Returns.ok {call : AnalyzeCall} {turns : List TurnResponse}
    (h : Returns serde answers call (.ok turns)) :
    (turnNumbers turns).Perm call.turns ∧
      ∀ turn ∈ turns, AnswerTo answers call turn.turnNumber turn := by
  obtain ⟨awaited, hres, hreply⟩ := h
  unfold KataGo.analyze at hres
  by_cases hnone : call.turns.length = 0
  · rw [if_pos hnone] at hres
    cases hres
    rw [List.length_eq_zero_iff.mp hnone]
    exact ⟨List.Perm.refl _, List.forall_mem_nil _⟩
  · rw [if_neg hnone] at hres
    cases awaited with
    | stopped => cases hres
    | dropped => cases hres
    | timedOut => cases hres
    | replied reply =>
      cases reply with
      | error err => cases hres
      | ok got =>
        cases hres
        obtain ⟨supervised, s, t, tx, hreach, hcall, hmem⟩ := hreply _ rfl
        obtain ⟨e, -, -, call', cmd, hasked, hperm, hans⟩ :=
          (traced_run hreach).2.replies tx turns hmem
        have hsame : call' = call := Option.some.inj (hasked.accepted.symm.trans hcall)
        subst hsame
        exact ⟨hperm, fun turn ht => ⟨rfl, tx, cmd, e.id, hasked.sent, hans turn ht⟩⟩

def answerIn (turns : List TurnResponse) (n : Nat) : TurnResponse :=
  (turns.find? fun turn => turn.turnNumber == n).getD ⟨n, none, [], none, none, none, none⟩

theorem answerIn_mem {turns : List TurnResponse} {n : Nat} (h : n ∈ turnNumbers turns) :
    answerIn turns n ∈ turns ∧ (answerIn turns n).turnNumber = n := by
  obtain ⟨turn, hmem, hn⟩ := List.mem_map.mp h
  have hsome : (turns.find? fun turn => turn.turnNumber == n).isSome := by
    rw [List.find?_isSome]
    exact ⟨turn, hmem, beq_iff_eq.mpr hn⟩
  obtain ⟨found, hfound⟩ := Option.isSome_iff_exists.mp hsome
  have hn' : (found.turnNumber == n) = true :=
    List.find?_some (p := fun turn : TurnResponse => turn.turnNumber == n) hfound
  have hanswer : answerIn turns n = found := by
    unfold answerIn
    rw [hfound]
    rfl
  rw [hanswer]
  exact ⟨List.mem_of_find?_eq_some hfound, beq_iff_eq.mp hn'⟩

theorem answerIn_self {turns : List TurnResponse} (h : (turnNumbers turns).Nodup)
    {turn : TurnResponse} (hmem : turn ∈ turns) : answerIn turns turn.turnNumber = turn := by
  obtain ⟨hin, hn⟩ := answerIn_mem (List.mem_map_of_mem hmem)
  exact List.inj_on_of_nodup_map h hin hmem hn

theorem answerIn_perm {turns : List TurnResponse} {asked : List Nat}
    (hperm : (turnNumbers turns).Perm asked) (h : asked.Nodup) :
    turns.Perm (asked.map (answerIn turns)) := by
  have hnodup : (turnNumbers turns).Nodup := hperm.nodup_iff.mpr h
  have hself : (turnNumbers turns).map (answerIn turns) = turns := by
    unfold turnNumbers
    rw [List.map_map]
    exact (List.map_congr_left fun turn ht => answerIn_self hnodup ht).trans (List.map_id _)
  calc turns
      |>.Perm ((turnNumbers turns).map (answerIn turns)) := by rw [hself]
    _ |>.Perm (asked.map (answerIn turns)) := hperm.map _

theorem search_distinct {katago katago' : AnalyzeCall → AppResult (List TurnResponse)}
    (h : ∀ call, call.turns.Nodup → katago call = katago' call) (e : AnalysisEngine)
    (game : ParsedGame) (humanProfile : Option String) :
    e.search katago game humanProfile = e.search katago' game humanProfile := by
  have hpass : ∀ p turns visits, turns.Nodup →
      e.pass katago p game turns visits humanProfile
        = e.pass katago' p game turns visits humanProfile :=
    fun p turns visits hn => h _ hn
  have hall : (List.range (game.moves.length + 1)).Nodup := List.nodup_range
  unfold AnalysisEngine.search
  dsimp only
  split
  · rw [hpass .screen _ _ hall]
    refine congrArg _ (funext fun screened => ?_)
    rw [hpass .refine _ _ (Finset.sort_nodup _ _)]
  · exact hpass .full _ _ hall

def distinctOnly (katago : AnalyzeCall → AppResult (List TurnResponse)) (call : AnalyzeCall) :
    AppResult (List TurnResponse) :=
  if call.turns.Nodup then katago call else .ok []

theorem search_distinctOnly (katago : AnalyzeCall → AppResult (List TurnResponse))
    (e : AnalysisEngine) (game : ParsedGame) (humanProfile : Option String) :
    e.search katago game humanProfile = e.search (distinctOnly katago) game humanProfile :=
  search_distinct (fun _ hn => (if_pos hn).symm) e game humanProfile

/-- **An analysis is made of answers in order.**  With each call returning what the owner can
reply in some run, among whatever other calls, crashes and interleavings, there is one answer for
every turn of every successful call, each to that call's own query, so that the analysis is the
one of an engine that gives these answers call by call and turn by turn. -/
theorem analysis_in_order (goParse : String → Except String (List SgfNode)) (exp : ℚ → ℚ)
    {katago : AnalyzeCall → AppResult (List TurnResponse)}
    (h : ∀ call, Returns serde answers call (katago call)) :
    ∃ answer : AnalyzeCall → Nat → TurnResponse,
      (∀ call turns, katago call = .ok turns →
        ∀ n ∈ call.turns, AnswerTo answers call n (answer call n)) ∧
      ∀ (e : AnalysisEngine) (sgf : String) (humanProfile : Option String),
        e.analyze goParse exp katago sgf humanProfile
          = e.analyze goParse exp (inOrder katago answer) sgf humanProfile := by
  have hok : ∀ call turns, katago call = .ok turns →
      (turnNumbers turns).Perm call.turns ∧
        ∀ turn ∈ turns, AnswerTo answers call turn.turnNumber turn := by
    intro call turns hcall
    have hret : Returns serde answers call (.ok turns) := by
      rw [← hcall]
      exact h call
    exact hret.ok
  let answer : AnalyzeCall → Nat → TurnResponse := fun call n =>
    match katago call with
    | .ok turns => answerIn turns n
    | .error _ => answerIn [] n
  have hanswer : ∀ call turns, katago call = .ok turns → answer call = answerIn turns := by
    intro call turns hcall
    funext n
    show (match katago call with | .ok turns => answerIn turns n | .error _ => _) = _
    rw [hcall]
  refine ⟨answer, ?_, ?_⟩
  · intro call turns hcall n hn
    obtain ⟨hperm, hans⟩ := hok call turns hcall
    obtain ⟨hin, hnumber⟩ := answerIn_mem (hperm.mem_iff.mpr hn)
    rw [hanswer call turns hcall]
    have hto := hans _ hin
    rw [hnumber] at hto
    exact hto
  · intro e sgf humanProfile
    have hsame : SameAnswers (distinctOnly katago) (distinctOnly (inOrder katago answer)) := by
      intro call
      unfold distinctOnly
      by_cases hn : call.turns.Nodup
      · rw [if_pos hn, if_pos hn]
        unfold inOrder
        cases hcall : katago call with
        | error err => exact Agree.error err
        | ok turns =>
          obtain ⟨hperm, -⟩ := hok call turns hcall
          refine Agree.ok ?_
          rw [hanswer call turns hcall]
          exact SameTurns.of_perm (hperm.nodup_iff.mpr hn) (answerIn_perm hperm hn) _
      · rw [if_neg hn, if_neg hn]
        have hnil : SameTurns call.game.moves.length [] [] := ⟨List.nodup_nil, List.Perm.refl _⟩
        exact Agree.ok hnil
    refine analyze_congr goParse exp (fun game profile => ?_) sgf humanProfile
    rw [search_distinctOnly katago, search_distinctOnly (inOrder katago answer)]
    exact search_congr hsame e game profile

end

/-! One caller is answered, as in the run above; every other call times out. -/

def heldKatago (call : AnalyzeCall) : AppResult (List TurnResponse) :=
  KataGo.analyze call
    (if call = oneMoveCall then .replied (.ok [oneMoveTurn 1, oneMoveTurn 0]) else .timedOut)

theorem heldKatago_returns (call : AnalyzeCall) :
    Returns oneMoveSerde (fun q turn => turn.turnNumber ∈ q.analyzeTurns) call
      (heldKatago call) := by
  refine ⟨_, rfl, fun reply hreply => ?_⟩
  by_cases hcall : call = oneMoveCall
  · rw [if_pos hcall] at hreply
    cases hreply
    refine ⟨true, heldEnd.1, heldEnd.2, 0, heldEnd_reachable, ?_, ?_⟩
    · rw [hcall]
      rfl
    · exact List.mem_singleton.mpr rfl
  · rw [if_neg hcall] at hreply
    cases hreply

theorem heldKatago_answered :
    heldKatago oneMoveCall = .ok [oneMoveTurn 1, oneMoveTurn 0] := by
  unfold heldKatago
  rw [if_pos rfl]
  rfl

theorem analysis_in_order_held :
    heldKatago oneMoveCall = .ok [oneMoveTurn 1, oneMoveTurn 0] ∧
    ∃ answer : AnalyzeCall → Nat → TurnResponse,
      (∀ call turns, heldKatago call = .ok turns → ∀ n ∈ call.turns,
        AnswerTo (fun q turn => turn.turnNumber ∈ q.analyzeTurns) call n (answer call n)) ∧
      ∀ (e : AnalysisEngine) (sgf : String) (humanProfile : Option String),
        e.analyze oneMove 0 heldKatago sgf humanProfile
          = e.analyze oneMove 0 (inOrder heldKatago answer) sgf humanProfile :=
  ⟨heldKatago_answered, analysis_in_order oneMove 0 heldKatago_returns⟩

end KatagoWs
