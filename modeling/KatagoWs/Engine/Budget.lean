import KatagoWs.Engine.Fast

/-!
# The time a fast search takes

Another trial starts only if it should finish within the budget, taken to last as long as the
trial before it.  A first start that is slow pays for the compilation of GPU kernels: what it
takes too long is not charged.

* `Spent`             the cells that the trials and `within_budget` share;
* `loop_asked`        every trial after the second was allowed;
* `search_in_budget`  when a search ends, and why it ends before the walk does.
-/

namespace KatagoWs
namespace Autotune
namespace Fast

/-! ## the budget, in nanoseconds -/

def FAST_BUDGET : Nat := 25 * 10 ^ 9

def SLOW_START : Nat := 15 * 10 ^ 9

/-- the time of one trial: how long after the last one the budget is asked about, how long after it
the trial starts, how long the trial takes, and its engine until the first position -/
structure TrialTime where
  asked : Nat
  idle : Nat
  wall : Nat
  startup : Option Nat
  before : asked ≤ idle
  inside : startup.getD 0 ≤ wall

/-- the clock, and the cells `forgiven` and `last` -/
structure Spent where
  elapsed : Nat
  forgiven : Option Nat
  last : Nat

def Spent.start : Spent := ⟨0, none, 0⟩

def Spent.trial (s : Spent) (t : TrialTime) : Spent :=
  let extra := t.startup.getD 0 - SLOW_START
  { elapsed := s.elapsed + t.idle + t.wall
    forgiven := some (s.forgiven.getD extra)
    last := if s.forgiven.isNone then t.wall - extra else t.wall }

def Spent.withinBudget (s : Spent) (t : TrialTime) : Bool :=
  let spent := s.elapsed + t.asked - s.forgiven.getD 0
  decide (spent + s.last ≤ FAST_BUDGET)

def spentAfter (times : Nat → TrialTime) : Nat → Spent
  | 0 => .start
  | n + 1 => (spentAfter times n).trial (times n)

def timedContinue (times : Nat → TrialTime) (n : Nat) : Bool :=
  (spentAfter times n).withinBudget (times n)

def forgivenStart (times : Nat → TrialTime) : Nat := (times 0).startup.getD 0 - SLOW_START

section
variable {times : Nat → TrialTime} {n : Nat}

theorem spentAfter_elapsed (n : Nat) : (spentAfter times (n + 1)).elapsed
    = (spentAfter times n).elapsed + (times n).idle + (times n).wall := by
  simp only [spentAfter, Spent.trial]

theorem Spent.trial_forgiven (s : Spent) (t : TrialTime) :
    (s.trial t).forgiven = some (s.forgiven.getD (t.startup.getD 0 - SLOW_START)) := by
  unfold Spent.trial
  rfl

theorem spentAfter_forgiven (n : Nat) :
    (spentAfter times (n + 1)).forgiven = some (forgivenStart times) := by
  induction n with
  | zero =>
    rw [spentAfter, Spent.trial_forgiven]
    unfold forgivenStart
    rw [spentAfter, Spent.start, Option.getD_none]
  | succ n ih => rw [spentAfter, Spent.trial_forgiven, ih, Option.getD_some]

/-- only the first trial is charged less than it took -/
theorem spentAfter_last (n : Nat) : (spentAfter times (n + 2)).last = (times (n + 1)).wall := by
  rw [spentAfter, Spent.trial]
  simp only [spentAfter_forgiven, Option.isNone_some, Bool.false_eq_true, if_false]

theorem forgivenStart_le (times : Nat → TrialTime) : forgivenStart times ≤ (times 0).wall := by
  have h := (times 0).inside
  unfold forgivenStart
  omega

theorem forgivenStart_spent (n : Nat) :
    forgivenStart times ≤ (spentAfter times (n + 1)).elapsed := by
  induction n with
  | zero =>
    have h := forgivenStart_le times
    rw [spentAfter_elapsed]
    omega
  | succ n ih =>
    rw [spentAfter_elapsed]
    omega

theorem timedContinue_iff (n : Nat) : timedContinue times (n + 1) = true ↔
    (spentAfter times (n + 1)).elapsed + (times (n + 1)).asked + (spentAfter times (n + 1)).last
      ≤ FAST_BUDGET + forgivenStart times := by
  have hspent : forgivenStart times ≤ (spentAfter times (n + 1)).elapsed :=
    forgivenStart_spent n
  unfold timedContinue Spent.withinBudget
  rw [spentAfter_forgiven, decide_eq_true_iff, Option.getD_some]
  omega

end

/-! ## the trials of a search -/

section
variable {space : Space} {measure : Measure} {mayContinue : Nat → Bool} {w w' : Walk}

theorem loop_asked {fuel : Nat} (h : w.Ok space measure) (hs : w.Steers)
    (hloop : loop space measure mayContinue fuel w = some w') :
    ∀ k, w.log.length ≤ k → k < w'.log.length → 2 ≤ k → mayContinue k = true := by
  induction fuel generalizing w with
  | zero => cases hloop
  | succ fuel ih =>
    intro k hfrom hto htwo
    rw [loop] at hloop
    cases hn : w.next with
    | none =>
      rw [hn] at hloop
      cases hloop
      omega
    | some idx =>
      rw [hn] at hloop
      dsimp only at hloop
      by_cases hstop : (decide (w.log.length ≥ 2) && !mayContinue w.log.length) = true
      · rw [if_pos hstop] at hloop
        cases hloop
        omega
      · rw [if_neg hstop] at hloop
        cases hc : space.candidate idx with
        | none =>
          rw [hc] at hloop
          cases hloop
          omega
        | some cand =>
          rw [hc] at hloop
          obtain ⟨h', hs', hlen⟩ := Walk.turn_spec h hs hn hc
          by_cases hk : k = w.log.length
          · rw [Bool.and_eq_true, not_and, Bool.not_eq_true', Bool.not_eq_false] at hstop
            rw [hk]
            exact hstop (decide_eq_true (by omega))
          · exact ih h' hs' hloop k (by omega) hto htwo

end

/-- What the trials of a search took, `n` of them. -/
structure InBudget (times : Nat → TrialTime) (n : Nat) : Prop where
  /-- after two trials, one starts only if it should finish in time -/
  starts : ∀ k, 2 ≤ k → k < n →
    (spentAfter times k).elapsed + (times k).asked + (times (k - 1)).wall
      ≤ FAST_BUDGET + forgivenStart times
  /-- a search of trials that do not get longer ends in time -/
  steady : 2 < n → (times (n - 1)).wall ≤ (times (n - 2)).wall →
    (spentAfter times n).elapsed + (times (n - 1)).asked
      ≤ FAST_BUDGET + forgivenStart times + (times (n - 1)).idle
  /-- and any search soon after -/
  bounded : ∀ longest pause, (∀ k < n, (times k).wall ≤ longest ∧ (times k).idle ≤ pause) →
    (spentAfter times n).elapsed
      ≤ max (2 * (longest + pause)) (FAST_BUDGET + forgivenStart times + longest + pause)

theorem InBudget.of_asked {times : Nat → TrialTime} {n : Nat}
    (h : ∀ k, 2 ≤ k → k < n → timedContinue times k = true) : InBudget times n := by
  have hstarts : ∀ k, 2 ≤ k → k < n →
      (spentAfter times k).elapsed + (times k).asked + (times (k - 1)).wall
        ≤ FAST_BUDGET + forgivenStart times := by
    intro k htwo hk
    obtain ⟨m, rfl⟩ := Nat.exists_eq_add_of_le' htwo
    have hasked := (timedContinue_iff (m + 1)).mp (h (m + 2) htwo hk)
    rw [spentAfter_last] at hasked
    exact hasked
  refine ⟨hstarts, fun hn hwall => ?_, fun longest pause hle => ?_⟩
  · obtain ⟨m, rfl⟩ := Nat.exists_eq_add_of_le' (show 3 ≤ n from hn)
    have hlast := hstarts (m + 2) (by omega) (by omega)
    change (times (m + 2)).wall ≤ (times (m + 1)).wall at hwall
    change (spentAfter times (m + 2)).elapsed + (times (m + 2)).asked + (times (m + 1)).wall
      ≤ _ at hlast
    show (spentAfter times (m + 3)).elapsed + (times (m + 2)).asked
      ≤ FAST_BUDGET + forgivenStart times + (times (m + 2)).idle
    rw [spentAfter_elapsed]
    omega
  · match n with
    | 0 => exact Nat.zero_le _
    | 1 =>
      obtain ⟨hw, hi⟩ := hle 0 (by omega)
      have hfirst : (spentAfter times 1).elapsed = 0 + (times 0).idle + (times 0).wall := rfl
      omega
    | 2 =>
      obtain ⟨hw, hi⟩ := hle 0 (by omega)
      obtain ⟨hw', hi'⟩ := hle 1 (by omega)
      have htwo : (spentAfter times 2).elapsed
          = 0 + (times 0).idle + (times 0).wall + (times 1).idle + (times 1).wall := rfl
      omega
    | m + 3 =>
      obtain ⟨hw, hi⟩ := hle (m + 2) (by omega)
      have hlast := hstarts (m + 2) (by omega) (by omega)
      rw [spentAfter_elapsed]
      omega

/-- a slow first start of 40 s, then trials of 12 s -/
def slowFirst (n : Nat) : TrialTime where
  asked := 0
  idle := 10 ^ 8
  wall := if n = 0 then 52 * 10 ^ 9 else 12 * 10 ^ 9
  startup := if n = 0 then some (40 * 10 ^ 9) else none
  before := Nat.zero_le _
  inside := by
    split_ifs with h
    · exact (by decide : 40 * 10 ^ 9 ≤ 52 * 10 ^ 9)
    · exact Nat.zero_le _

end Fast
end Autotune
end KatagoWs
