import Mathlib.Algebra.Order.Ring.NNRat
import KatagoWs.Engine.Autotune

/-!
# Trials and what a search reports

Types shared by the two search strategies.  A rate is positions a second: a count over a time, so
it is never negative.  `Measure` is the `FnMut` a search measures with: what its `n`-th call
answers.
-/

namespace KatagoWs
namespace Autotune
open NNRat

def percent (n : Nat) : ℚ≥0 := n / 100

inductive Outcome where
  /-- full window measured: positions/s -/
  | measured (rate : ℚ≥0)
  /-- stopped half-way, clearly slower than the best so far: positions/s then -/
  | pruned (rate : ℚ≥0)
  /-- the engine failed to start or died -/
  | failed (err : String)
deriving DecidableEq

/-- The winner and its positions/s (`0` when nothing was measured), or `none` when every trial
failed; and every trial in order. -/
structure Report where
  best : Option (Candidate × ℚ≥0) := none
  history : List (Candidate × Outcome) := []
deriving DecidableEq

/-- one trial after the other: the candidate of the `n`-th, and the rate below which it may stop
early -/
abbrev Measure := Nat → Candidate → Option ℚ≥0 → Outcome

/-- what a trial answers at a fixed rate: stopped early exactly when the rate is below the floor -/
def Outcome.ofRate (floor : Option ℚ≥0) (rate : ℚ≥0) : Outcome :=
  match floor with
  | some floor => if rate < floor then .pruned rate else .measured rate
  | none => .measured rate

theorem Outcome.ofRate_measured {floor : Option ℚ≥0} {rate x : ℚ≥0}
    (h : Outcome.ofRate floor rate = .measured x) : x = rate := by
  unfold Outcome.ofRate at h
  split at h
  · split_ifs at h
    exact (Outcome.measured.inj h).symm
  · exact (Outcome.measured.inj h).symm

end Autotune
end KatagoWs
