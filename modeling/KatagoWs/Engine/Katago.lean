import Mathlib.Algebra.Order.Field.Basic
import Mathlib.Algebra.Order.Ring.Rat
import KatagoWs.Engine.Sgf

/-!
# What the engine reports, and in whose frame

A response of the engine states every value in one player's frame.  `Perspective.reporter` says
whose, `asSeenBy` rotates a root evaluation or a candidate into a viewer's frame.

* `Eval.seen`        an evaluation stated for one player, seen by another;
* `RootInfo.asSeenBy_eq`, `MoveInfo.asSeenBy_eq`   the rotations as `Eval.seen`;
* `Eval.seen_seen`   two rotations are one: the value does not depend on the frame it went
                     through.

Decimals are exact rationals.
-/

namespace KatagoWs

/-! ## configuration -/

inductive EngineBackend where
  | flex
  | wgpu
  | rocm
  | upstream
deriving DecidableEq, Repr

inductive AutotuneMode where
  | thorough
  | fast
deriving DecidableEq, Repr

def EngineBackend.isKatagoRs (b : EngineBackend) : Bool := b != .upstream

def EngineBackend.engineName (b : EngineBackend) : String :=
  if b.isKatagoRs then "katago-rs" else "katago"

def EngineBackend.isGpu (b : EngineBackend) : Bool := b != .flex

structure EngineConfig where
  /-- path to (or name of) the engine's binary -/
  binary : String := "katago-rs"
  backend : EngineBackend
  fp16 : Bool := false
  /-- the analysis config file -/
  config : String := "analysis.cfg"
  model : String
  maxVisits : Nat
  analysisPvLen : Nat
  includeOwnership : Bool
  includeOwnershipStdev : Bool
  includePolicy : Bool
  humanModel : String
  topK : Nat
  defaultKomi : ℚ
  defaultBoardSize : Nat
  /-- by default the machine's threads, or 32 when they cannot be counted -/
  analysisThreads : Nat := 32
  searchThreadsPerAnalysis : Nat := 1
  nnMaxBatchSize : Nat := 0
  nnServerThreads : Nat := 0
  overrideConfig : String := ""
  screenVisits : Nat
  refineWinrateDelta : ℚ := 3 / 100
  refineScoreDelta : ℚ := 1
  autotune : Bool := true
  autotuneMode : AutotuneMode := .thorough
  autotuneVisits : Nat := 16

def EngineConfig.twoPass (cfg : EngineConfig) : Bool :=
  decide (cfg.screenVisits > 0) && decide (cfg.screenVisits < cfg.maxVisits)

/-! ## perspectives -/

inductive Perspective where
  | black
  | white
  | sideToMove
deriving DecidableEq, Repr

def Perspective.asKatagoSetting : Perspective → String
  | .black => "BLACK"
  | .white => "WHITE"
  | .sideToMove => "SIDETOMOVE"

/-- Whose evaluation a reading is: the engine's own claim, else the caller's side to move. -/
def Perspective.reporter (p : Perspective) (currentPlayer : Option Color) (sideToMove : Color) :
    Color :=
  match p with
  | .black => .black
  | .white => .white
  | .sideToMove => currentPlayer.getD sideToMove

def REPORT_PERSPECTIVE : Perspective := .sideToMove

/-- a position evaluation in a known player's frame -/
structure Eval where
  winrate : ℚ
  scoreLead : ℚ
deriving DecidableEq, Repr

/-- The same evaluation seen from the other side. -/
def Eval.flipped (e : Eval) : Eval := ⟨1 - e.winrate, -e.scoreLead⟩

structure RootInfo where
  winrate : ℚ
  scoreLead : ℚ
  currentPlayer : Option Color
deriving DecidableEq, Repr

/-- This evaluation rotated into `viewer`'s frame. -/
def RootInfo.asSeenBy (root : RootInfo) (viewer sideToMove : Color) : Eval :=
  let eval : Eval := ⟨root.winrate, root.scoreLead⟩
  if REPORT_PERSPECTIVE.reporter root.currentPlayer sideToMove = viewer then eval
  else eval.flipped

structure MoveInfo where
  mv : String
  winrate : ℚ
  scoreLead : ℚ
  prior : ℚ
  visits : Nat
  humanPrior : Option ℚ
  order : Nat
  pv : List String
deriving DecidableEq, Repr

def MoveInfo.asSeenBy (info : MoveInfo) (viewer sideToMove : Color) : Eval :=
  let eval : Eval := ⟨info.winrate, info.scoreLead⟩
  if REPORT_PERSPECTIVE.reporter (some sideToMove) sideToMove = viewer then eval
  else eval.flipped

structure TurnResponse where
  turnNumber : Nat
  rootInfo : Option RootInfo
  moveInfos : List MoveInfo
  ownership : Option (List ℚ)
  ownershipStdev : Option (List ℚ)
  policy : Option (List ℚ)
  humanPolicy : Option (List ℚ)
deriving DecidableEq, Repr

/-! ## rotations -/

/-- an evaluation stated for `reporter`, in `viewer`'s frame -/
def Eval.seen (reporter viewer : Color) (e : Eval) : Eval :=
  if reporter = viewer then e else ⟨1 - e.winrate, -e.scoreLead⟩

def RootInfo.eval (root : RootInfo) : Eval := ⟨root.winrate, root.scoreLead⟩

def MoveInfo.eval (info : MoveInfo) : Eval := ⟨info.winrate, info.scoreLead⟩

theorem Eval.seen_seen (a b c : Color) (e : Eval) : (e.seen a b).seen b c = e.seen a c := by
  obtain ⟨w, l⟩ := e
  have hw : 1 - (1 - w) = w := by rw [sub_sub_cancel]
  have hl : -(-l) = l := neg_neg l
  cases a <;> cases b <;> cases c <;> simp [Eval.seen, hw, hl]

theorem RootInfo.asSeenBy_eq (root : RootInfo) (viewer sideToMove : Color) :
    root.asSeenBy viewer sideToMove
      = root.eval.seen (root.currentPlayer.getD sideToMove) viewer := rfl

theorem MoveInfo.asSeenBy_eq (info : MoveInfo) (viewer sideToMove : Color) :
    info.asSeenBy viewer sideToMove = info.eval.seen sideToMove viewer := rfl

end KatagoWs
