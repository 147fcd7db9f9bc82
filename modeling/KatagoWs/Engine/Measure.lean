import Mathlib.Tactic.Linarith
import Mathlib.Tactic.Ring
import Mathlib.Data.Rat.Floor
import KatagoWs.Engine.Search
import KatagoWs.Lib.Simulation

/-!
# The measuring of a trial

A trial is read off the engine's running count of analyzed positions: the first position, then a
warm-up, then a window that ends with enough positions or after a time.  The task looks at the
count when it is woken, so it sees some of its values only.

* `Meter`             positions a second over the window;
* `measureSys`        the task and what it sees: the count, the end of the window, a dead engine;
* `Framed`            the two looks of a run that the window lies between;
* `Window`            the rate of a window;
* `Window.error`, `Window.relative`   how far the rate of an engine of steady pace can be off;
* `trial_measures`    every verdict of a trial comes from the window between two of its looks.
-/

namespace KatagoWs
namespace Autotune
open Lib NNRat

def WINDOW_POSITIONS : Nat := 640

/-- A trial's measured window never runs longer than this; seconds. -/
def MAX_WINDOW : ℚ := 12

/-- Positions/s over a trial's measured window, from the running count of analyzed positions. -/
structure Meter where
  start : ℚ × Nat
  last : ℚ × Nat
deriving DecidableEq

def Meter.startAt (now : ℚ) (count : Nat) : Meter := ⟨(now, count), (now, count)⟩

def Meter.record (meter : Meter) (now : ℚ) (count : Nat) : Meter :=
  { meter with last := (now, count) }

def Meter.positions (meter : Meter) : Nat := meter.last.2 - meter.start.2

def Meter.rate (meter : Meter) : ℚ≥0 :=
  let secs := (meter.last.1 - meter.start.1).toNNRat
  if secs ≤ 0 then 0 else meter.positions / secs

/-- Where the task is.  `startup` is the time until the first analyzed position. -/
inductive Measuring where
  | first
  | warmup (startup : ℚ)
  /-- the warm-up was seen to be over at `since` -/
  | opening (startup since : ℚ)
  | window (startup : ℚ) (meter : Meter)
  | ended (startup : Option ℚ) (outcome : Outcome)
deriving DecidableEq

/-- what wakes the task: a count it looks at, the end of the window, the engine gone, or the
feeder's end -/
inductive Glance where
  | count (now : ℚ) (n : Nat)
  | timeout (now : ℚ)
  | gone
  | fed (err : String)

def Measuring.startup : Measuring → Option ℚ
  | .first => none
  | .warmup startup => some startup
  | .opening startup _ => some startup
  | .window startup _ => some startup
  | .ended startup _ => startup

def GONE : Outcome := .failed "katago exited during the trial"

/-- the meter after a look, and whether that ends the trial -/
def Meter.look (pruneBelow : Option ℚ≥0) (startup : ℚ) (meter : Meter) : Measuring :=
  if meter.positions ≥ WINDOW_POSITIONS then .ended startup (.measured meter.rate)
  else
    match pruneBelow with
    | some floor =>
      if meter.positions ≥ WINDOW_POSITIONS / 2 ∧ meter.rate < floor then
        .ended startup (.pruned meter.rate)
      else .window startup meter
    | none => .window startup meter

/-- `measure`, beside `feed`: whichever ends first is the trial's outcome. -/
def Measuring.step (origin : ℚ) (warmup : Nat) (pruneBelow : Option ℚ≥0) :
    Measuring → Glance → Option Measuring
  | .ended _ _, _ => none
  | s, .fed err => some (.ended s.startup (.failed err))
  | .first, .count now n => some (if n ≥ 1 then .warmup (now - origin) else .first)
  | .warmup startup, .count now n =>
    some (if n ≥ warmup then .opening startup now else .warmup startup)
  | .opening startup _, .count now n => some (.window startup (.startAt now n))
  | .window startup meter, .count now n => some ((meter.record now n).look pruneBelow startup)
  | .window startup meter, .timeout now =>
    if meter.start.1 + MAX_WINDOW ≤ now then
      some (.ended startup
        (if meter.positions > 0 then .measured meter.rate
          else .failed "no positions analyzed in the window"))
    else none
  | .first, .gone => some (.ended none GONE)
  | .warmup startup, .gone => some (.ended startup GONE)
  | .window startup _, .gone => some (.ended startup GONE)
  | _, _ => none

def measureSys (origin : ℚ) (warmup : Nat) (pruneBelow : Option ℚ≥0) : Sys Measuring Glance where
  init s := s = .first
  step := Measuring.step origin warmup pruneBelow

/-! ## what the looks see -/

def Measuring.seen : Measuring → Option ℚ
  | .opening _ since => some since
  | .window _ meter => some meter.last.1
  | _ => none

/-- every look sees the engine's count at that time, later than the ones before -/
def Reads (count : ℚ → Nat) (s : Measuring) : Glance → Prop
  | .count now n => n = count now ∧ ∀ t ∈ s.seen, t ≤ now
  | _ => True

def looks (glances : List Glance) : List ℚ :=
  glances.filterMap fun g => match g with
    | .count now _ => some now
    | _ => none

/-- `t₀` is the look after one that saw the warm-up over, `t₁` the last look -/
def Framed (count : ℚ → Nat) (warmup : Nat) (looks : List ℚ) (t₀ t₁ : ℚ) : Prop :=
  ∃ before since rest, looks = before ++ since :: t₀ :: rest ∧ warmup ≤ count since ∧
    (t₀ :: rest).getLast? = some t₁

def Closed (count : ℚ → Nat) (glances : List Glance) (t₀ t₁ : ℚ) : Prop :=
  WINDOW_POSITIONS ≤ count t₁ - count t₀ ∨
    ∃ now, Glance.timeout now ∈ glances ∧ t₀ + MAX_WINDOW ≤ now

/-- the rate of the window from the look at `t₀`, after the warm-up, to the look at `t₁` -/
structure Window (count : ℚ → Nat) (warmup : Nat) (t₀ t₁ : ℚ) (rate : ℚ≥0) : Prop where
  warm : warmup ≤ count t₀
  order : t₀ < t₁
  analyzed : count t₀ < count t₁
  rate : (rate : ℚ) = ((count t₁ : ℚ) - count t₀) / (t₁ - t₀)

structure Meter.Spans (count : ℚ → Nat) (warmup : Nat) (meter : Meter) : Prop where
  start : meter.start.2 = count meter.start.1
  last : meter.last.2 = count meter.last.1
  order : meter.start.1 ≤ meter.last.1
  warm : warmup ≤ meter.start.2

section
variable {count : ℚ → Nat} {warmup : Nat}

theorem Meter.Spans.startAt {since now : ℚ} (hc : Monotone count) (hw : warmup ≤ count since)
    (hle : since ≤ now) : (Meter.startAt now (count now)).Spans count warmup where
  start := rfl
  last := rfl
  order := le_refl now
  warm := hw.trans (hc hle)

theorem Meter.Spans.record {meter : Meter} (h : meter.Spans count warmup) {now : ℚ}
    (hle : meter.last.1 ≤ now) : (meter.record now (count now)).Spans count warmup where
  start := h.start
  last := rfl
  order := h.order.trans hle
  warm := h.warm

theorem Meter.Spans.window {meter : Meter} (h : meter.Spans count warmup)
    (hpos : 0 < meter.positions) :
    Window count warmup meter.start.1 meter.last.1 meter.rate := by
  have hlt : meter.start.2 < meter.last.2 := by
    unfold Meter.positions at hpos
    omega
  have horder : meter.start.1 < meter.last.1 := by
    refine lt_of_le_of_ne h.order fun heq => ?_
    rw [h.start, h.last, heq] at hlt
    exact lt_irrefl _ hlt
  have hsecs : 0 < meter.last.1 - meter.start.1 := sub_pos.mpr horder
  refine ⟨?_, horder, ?_, ?_⟩
  · rw [← h.start]
    exact h.warm
  · rw [← h.start, ← h.last]
    exact hlt
  · have hnn : ¬ (meter.last.1 - meter.start.1).toNNRat ≤ 0 := by
      rw [not_le]
      exact Rat.toNNRat_pos.mpr hsecs
    unfold Meter.rate Meter.positions
    dsimp only
    rw [if_neg hnn, NNRat.cast_div, Rat.coe_toNNRat _ hsecs.le, NNRat.cast_natCast,
      Nat.cast_sub hlt.le, h.start, h.last]

/-! ## engines of a steady pace -/

/-- at `t` the count is within `w` positions of a steady pace of `r` a second -/
def Paced (count : ℚ → Nat) (r b w t : ℚ) : Prop := |(count t : ℚ) - (r * t + b)| ≤ w

variable {t₀ t₁ r b w : ℚ} {rate : ℚ≥0}

/-- **The rate is off** by what the pace varies, at both ends, over the time of the window. -/
theorem Window.error (h : Window count warmup t₀ t₁ rate) (h₀ : Paced count r b w t₀)
    (h₁ : Paced count r b w t₁) : |(rate : ℚ) - r| * (t₁ - t₀) ≤ 2 * w := by
  have hT : 0 < t₁ - t₀ := sub_pos.mpr h.order
  have hdiff : ((rate : ℚ) - r) * (t₁ - t₀)
      = ((count t₁ : ℚ) - (r * t₁ + b)) - ((count t₀ : ℚ) - (r * t₀ + b)) := by
    rw [h.rate, sub_mul, div_mul_cancel₀ _ hT.ne']
    ring
  calc |(rate : ℚ) - r| * (t₁ - t₀)
      = |((rate : ℚ) - r) * (t₁ - t₀)| := by rw [abs_mul, abs_of_pos hT]
    _ = |((count t₁ : ℚ) - (r * t₁ + b)) - ((count t₀ : ℚ) - (r * t₀ + b))| := by rw [hdiff]
    _ ≤ |(count t₁ : ℚ) - (r * t₁ + b)| + |(count t₀ : ℚ) - (r * t₀ + b)| := abs_sub _ _
    _ ≤ w + w := add_le_add h₁ h₀
    _ = 2 * w := (two_mul w).symm

theorem Window.relative (h : Window count warmup t₀ t₁ rate) (h₀ : Paced count r b w t₀)
    (h₁ : Paced count r b w t₁) (hr : 0 ≤ r) {k : Nat} (hk : k ≤ count t₁ - count t₀) :
    |(rate : ℚ) - r| * (k - 2 * w) ≤ 2 * w * r := by
  have hkq : (k : ℚ) ≤ (count t₁ : ℚ) - count t₀ := by
    rw [← Nat.cast_sub h.analyzed.le]
    exact_mod_cast hk
  have h0 := abs_le.mp h₀
  have h1 := abs_le.mp h₁
  have hlen : (k : ℚ) - 2 * w ≤ r * (t₁ - t₀) := by
    linarith [h0.1, h0.2, h1.1, h1.2]
  calc |(rate : ℚ) - r| * (k - 2 * w)
      ≤ |(rate : ℚ) - r| * (r * (t₁ - t₀)) := mul_le_mul_of_nonneg_left hlen (abs_nonneg _)
    _ = |(rate : ℚ) - r| * (t₁ - t₀) * r := by ring
    _ ≤ 2 * w * r := mul_le_mul_of_nonneg_right (h.error h₀ h₁) hr

/-! ## a run of the task -/

/-- what a state of the task has behind it, after the glances `past` -/
def Measuring.Sound (count : ℚ → Nat) (warmup : Nat) (pruneBelow : Option ℚ≥0)
    (past : List Glance) : Measuring → Prop
  | .first => True
  | .warmup _ => True
  | .opening _ since => warmup ≤ count since ∧ ∃ before, looks past = before ++ [since]
  | .window _ meter => meter.Spans count warmup ∧
      Framed count warmup (looks past) meter.start.1 meter.last.1
  | .ended _ (.measured rate) => ∃ t₀ t₁, Framed count warmup (looks past) t₀ t₁ ∧
      Window count warmup t₀ t₁ rate ∧ Closed count past t₀ t₁
  | .ended _ (.pruned rate) => ∃ floor t₀ t₁, pruneBelow = some floor ∧
      Framed count warmup (looks past) t₀ t₁ ∧ Window count warmup t₀ t₁ rate ∧ rate < floor ∧
      WINDOW_POSITIONS / 2 ≤ count t₁ - count t₀
  | .ended _ (.failed _) => True

variable {pruneBelow : Option ℚ≥0} {past : List Glance}

theorem looks_snoc (past : List Glance) (now : ℚ) (n : Nat) :
    looks (past ++ [.count now n]) = looks past ++ [now] := by
  rw [looks, List.filterMap_append]
  rfl

theorem looks_timeout (past : List Glance) (now : ℚ) :
    looks (past ++ [.timeout now]) = looks past := by
  rw [looks, List.filterMap_append]
  exact List.append_nil _

theorem Framed.start {before : List ℚ} {since : ℚ} (hw : warmup ≤ count since) (now : ℚ) :
    Framed count warmup (before ++ [since] ++ [now]) now now :=
  ⟨before, since, [], by rw [List.append_assoc]; rfl, hw, rfl⟩

theorem Framed.record {looks : List ℚ} {t₀ t₁ : ℚ} (h : Framed count warmup looks t₀ t₁)
    (now : ℚ) : Framed count warmup (looks ++ [now]) t₀ now := by
  obtain ⟨before, since, rest, rfl, hw, -⟩ := h
  refine ⟨before, since, rest ++ [now], by rw [List.append_assoc]; rfl, hw, ?_⟩
  rw [← List.cons_append, List.getLast?_concat]

theorem Meter.Spans.positions_eq {meter : Meter} (h : meter.Spans count warmup) :
    meter.positions = count meter.last.1 - count meter.start.1 := by
  unfold Meter.positions
  rw [h.start, h.last]

/-- **A look at the count** within the window. -/
theorem Meter.Spans.look {meter : Meter} (h : meter.Spans count warmup)
    (hf : Framed count warmup (looks past) meter.start.1 meter.last.1) (startup : ℚ) :
    (meter.look pruneBelow startup).Sound count warmup pruneBelow past := by
  have hcount := h.positions_eq
  unfold Meter.look
  by_cases hfull : meter.positions ≥ WINDOW_POSITIONS
  · rw [if_pos hfull]
    have hpos : 0 < meter.positions := lt_of_lt_of_le (by decide) hfull
    refine ⟨_, _, hf, h.window hpos, .inl ?_⟩
    rw [← hcount]
    exact hfull
  · rw [if_neg hfull]
    cases hp : pruneBelow with
    | none => exact ⟨h, hf⟩
    | some floor =>
      dsimp only
      by_cases hslow : meter.positions ≥ WINDOW_POSITIONS / 2 ∧ meter.rate < floor
      · rw [if_pos hslow]
        have hpos : 0 < meter.positions := lt_of_lt_of_le (by decide) hslow.1
        refine ⟨floor, _, _, rfl, hf, h.window hpos, hslow.2, ?_⟩
        rw [← hcount]
        exact hslow.1
      · rw [if_neg hslow]
        exact ⟨h, hf⟩

theorem Measuring.Sound.step (hc : Monotone count) {origin : ℚ} {s s' : Measuring} {g : Glance}
    (h : s.Sound count warmup pruneBelow past) (hr : Reads count s g)
    (hs : (measureSys origin warmup pruneBelow).step s g = some s') :
    s'.Sound count warmup pruneBelow (past ++ [g]) := by
  change Measuring.step origin warmup pruneBelow s g = some s' at hs
  cases g with
  | fed err =>
    cases s with
    | ended startup outcome => cases hs
    | first => cases hs; trivial
    | warmup startup => cases hs; trivial
    | opening startup since => cases hs; trivial
    | window startup meter => cases hs; trivial
  | gone =>
    cases s with
    | ended startup outcome => cases hs
    | opening startup since => cases hs
    | first => cases hs; trivial
    | warmup startup => cases hs; trivial
    | window startup meter => cases hs; trivial
  | timeout now =>
    cases s with
    | ended startup outcome => cases hs
    | opening startup since => cases hs
    | first => cases hs
    | warmup startup => cases hs
    | window startup meter =>
      obtain ⟨hover, hs⟩ := Option.ite_none_right_eq_some.mp hs
      obtain ⟨hspan, hframe⟩ := h
      cases hs
      by_cases hpos : meter.positions > 0
      · rw [if_pos hpos]
        refine ⟨_, _, ?_, hspan.window hpos, .inr ⟨now, ?_, hover⟩⟩
        · rw [looks_timeout]
          exact hframe
        · exact List.mem_append_right _ (List.mem_singleton.mpr rfl)
      · rw [if_neg hpos]
        trivial
  | count now n =>
    obtain ⟨hn, hlater⟩ := hr
    cases s with
    | ended startup outcome => cases hs
    | first =>
      cases hs
      by_cases hone : n ≥ 1
      · rw [if_pos hone]
        trivial
      · rw [if_neg hone]
        trivial
    | warmup startup =>
      cases hs
      by_cases hwarm : n ≥ warmup
      · rw [if_pos hwarm]
        refine ⟨?_, looks past, looks_snoc past now n⟩
        rw [← hn]
        exact hwarm
      · rw [if_neg hwarm]
        trivial
    | opening startup since =>
      obtain ⟨hwarm, before, hlooks⟩ := h
      cases hs
      rw [hn]
      refine ⟨Meter.Spans.startAt hc hwarm (hlater since rfl), ?_⟩
      rw [looks_snoc, hlooks]
      exact Framed.start hwarm now
    | window startup meter =>
      obtain ⟨hspan, hframe⟩ := h
      cases hs
      rw [hn]
      refine (hspan.record (hlater _ rfl)).look ?_ startup
      rw [looks_snoc]
      exact hframe.record now

end

/-- How far a rate can be off, whatever steady pace the engine keeps to at both looks: by `2w` over
the time of the window, and for `k` positions by a fraction `2w / (k - 2w)` of the pace. -/
def Accurate (count : ℚ → Nat) (t₀ t₁ : ℚ) (rate : ℚ≥0) : Prop :=
  ∀ r b w : ℚ, 0 ≤ r → Paced count r b w t₀ → Paced count r b w t₁ →
    |(rate : ℚ) - r| * (t₁ - t₀) ≤ 2 * w ∧
    ∀ k : Nat, k ≤ count t₁ - count t₀ → |(rate : ℚ) - r| * (k - 2 * w) ≤ 2 * w * r

theorem Window.accurate {count : ℚ → Nat} {warmup : Nat} {t₀ t₁ : ℚ} {rate : ℚ≥0}
    (h : Window count warmup t₀ t₁ rate) : Accurate count t₀ t₁ rate :=
  fun _ _ _ hr h₀ h₁ => ⟨h.error h₀ h₁, fun _ hk => h.relative h₀ h₁ hr hk⟩

/-- **What a trial says.**  In every run of the task, whatever it happens to look at: a rate is that
of the window from the look after the warm-up was seen to be over to the last look; a measured
window was full or open as long as it may be, and a trial is cut short only against a floor, after
half a window of positions, by a rate below it; and either rate is accurate. -/
theorem trial_measures {count : ℚ → Nat} (hc : Monotone count) {origin : ℚ} {warmup : Nat}
    {pruneBelow : Option ℚ≥0} {glances : List Glance} {startup : Option ℚ} {outcome : Outcome}
    (hr : (measureSys origin warmup pruneBelow).Meets (Reads count) .first glances)
    (h : (measureSys origin warmup pruneBelow).exec .first glances
      = some (.ended startup outcome)) :
    (∀ rate, outcome = .measured rate → ∃ t₀ t₁, Framed count warmup (looks glances) t₀ t₁ ∧
      Closed count glances t₀ t₁ ∧
      Window count warmup t₀ t₁ rate ∧ Accurate count t₀ t₁ rate) ∧
    ∀ rate, outcome = .pruned rate → ∃ floor t₀ t₁, pruneBelow = some floor ∧ rate < floor ∧
      Framed count warmup (looks glances) t₀ t₁ ∧
      WINDOW_POSITIONS / 2 ≤ count t₁ - count t₀ ∧
      Window count warmup t₀ t₁ rate ∧ Accurate count t₀ t₁ rate := by
  have hfirst : Measuring.first.Sound count warmup pruneBelow [] := trivial
  have hsound : (Measuring.ended startup outcome).Sound count warmup pruneBelow glances :=
    Sys.exec_past (I := fun past s => s.Sound count warmup pruneBelow past)
      (fun past s g s' hs hok hstep => hs.step hc hok hstep) hfirst hr h
  constructor
  · intro rate hrate
    rw [hrate] at hsound
    obtain ⟨t₀, t₁, hf, hw, hclosed⟩ := hsound
    exact ⟨t₀, t₁, hf, hclosed, hw, hw.accurate⟩
  · intro rate hrate
    rw [hrate] at hsound
    obtain ⟨floor, t₀, t₁, hfloor, hf, hw, hlt, hhalf⟩ := hsound
    exact ⟨floor, t₀, t₁, hfloor, hlt, hf, hhalf, hw, hw.accurate⟩

/-! An engine of 100 positions a second, looked at now and then. -/

def hundredCount (t : ℚ) : Nat := ⌊100 * t⌋₊

theorem hundredCount_mono : Monotone hundredCount := by
  intro s t hst
  exact Nat.floor_le_floor (mul_le_mul_of_nonneg_left hst (by norm_num))

def hundredLooks : List Glance :=
  [.count (1 / 2) 50, .count 3 300, .count (31 / 10) 310, .count 5 500, .count 10 1000]

theorem hundredLooks_read :
    (measureSys 0 256 none).Meets (Reads hundredCount) .first hundredLooks := by
  have hcount : ∀ (t : ℚ) (n : Nat), 100 * t = n → n = hundredCount t := by
    intro t n h
    unfold hundredCount
    rw [h, Nat.floor_natCast]
  refine .cons ⟨hcount _ _ (by norm_num), fun t ht => by cases ht⟩ rfl
    (.cons ⟨hcount _ _ (by norm_num), fun t ht => by cases ht⟩ rfl
    (.cons ⟨hcount _ _ (by norm_num), fun t ht => ?_⟩ rfl
    (.cons ⟨hcount _ _ (by norm_num), fun t ht => ?_⟩ rfl
    (.cons ⟨hcount _ _ (by norm_num), fun t ht => ?_⟩ rfl trivial))))
  · cases ht
    norm_num
  · cases ht
    show (31 / 10 : ℚ) ≤ 5
    norm_num
  · cases ht
    show (5 : ℚ) ≤ 10
    norm_num

theorem hundredLooks_ended : (measureSys 0 256 none).exec .first hundredLooks
    = some (.ended (some (1 / 2)) (.measured 100)) := by
  decide +kernel

theorem trial_measures_hundred :
    ∃ t₀ t₁, Framed hundredCount 256 (looks hundredLooks) t₀ t₁ ∧
      Closed hundredCount hundredLooks t₀ t₁ ∧
      Window hundredCount 256 t₀ t₁ 100 ∧ Accurate hundredCount t₀ t₁ 100 :=
  (trial_measures hundredCount_mono hundredLooks_read hundredLooks_ended).1 100 rfl

end Autotune
end KatagoWs
