import Mathlib.Data.Nat.Basic

/-!
# Leases that are renewed in time

A lease lapses `term` after it was taken or last renewed.  Its holder sleeps `interval`, renews it,
waits for the reply and sleeps again; a round may fail to renew, and every step may be late by
`delay`.  The holder opens before the first sleep, and closes after the last.

* `Stage`         where a holder is, with the time it got there and the rounds missed in a row;
* `Covered`       the lease outlasts the stage (`Covered.start`, `.stop`, `.wake`, `.renew`,
                  `.reply`: the ways a holder moves on; `.elapse`, `.extend`: time, and the lease);
* `Covered.unlapsed`   with `(misses + 1) * (interval + 2 * delay) + 2 * delay < term` the lease of
                  a holder does not lapse while it misses no more than `misses` rounds in a row.
-/

namespace Lib
namespace Lease

structure Timing where
  term : Nat
  interval : Nat
  delay : Nat
  /-- rounds in a row that may fail to renew -/
  misses : Nat

/-- the longest a round takes -/
def Timing.round (T : Timing) : Nat := T.interval + 2 * T.delay

def Timing.Ample (T : Timing) : Prop := (T.misses + 1) * T.round + 2 * T.delay < T.term

instance (T : Timing) : Decidable T.Ample :=
  inferInstanceAs (Decidable ((T.misses + 1) * T.round + 2 * T.delay < T.term))

inductive Stage where
  | opening (since : Nat)
  | asleep (since missed : Nat)
  | renewing (since missed : Nat) (renewed : Bool)
  | closing (since : Nat)
deriving DecidableEq, Repr

namespace Stage

/-- the latest time at which a holder that is late by `delay` at most is still there -/
def due (T : Timing) : Stage → Nat
  | .opening since => since + T.delay
  | .asleep since _ => since + T.interval + T.delay
  | .renewing since _ _ => since + T.delay
  | .closing since => since + T.delay

def start (now : Nat) : Stage → Stage
  | .opening _ => .asleep now 0
  | st => st

def stop (now : Nat) : Stage → Stage
  | .closing since => .closing since
  | _ => .closing now

def wake (interval now : Nat) : Stage → Option Stage
  | .asleep since missed =>
    if since + interval ≤ now then some (.renewing now missed false) else none
  | _ => none

def renew : Stage → Option Stage
  | .renewing since missed _ => some (.renewing since missed true)
  | _ => none

/-- the reply to a round, whatever it says -/
def reply (now : Nat) : Stage → Option Stage
  | .renewing _ missed renewed => some (.asleep now (if renewed then 0 else missed + 1))
  | _ => none

/-- the round that ends now may fail -/
def mayMiss (misses : Nat) : Stage → Bool
  | .renewing _ missed false => missed < misses
  | _ => true

end Stage

/-- what is left, at the latest, of a lease that lapses at `expiry` -/
def Stage.Within (T : Timing) (now expiry : Nat) : Stage → Prop
  | .opening since => since ≤ now ∧ since + T.term ≤ expiry
  | .asleep since missed => since ≤ now ∧ missed ≤ T.misses ∧
    since + T.term ≤ expiry + T.delay + missed * T.round
  | .renewing since missed renewed => since ≤ now ∧ missed ≤ T.misses ∧
    since + T.term ≤ expiry + if renewed then 0 else (missed + 1) * T.round
  | .closing since =>
    since ≤ now ∧ since + T.term ≤ expiry + (T.misses + 1) * T.round + T.delay

/-- at `now` the holder is in time, and the lease that lapses at `expiry` lasts long enough -/
structure Covered (T : Timing) (now expiry : Nat) (st : Stage) : Prop where
  due : now ≤ st.due T
  within : st.Within T now expiry

section
variable {T : Timing} {now expiry : Nat} {st st' : Stage}

theorem Timing.round_eq (T : Timing) : T.round = T.interval + 2 * T.delay := rfl

theorem Timing.rounds_le {missed : Nat} (h : missed ≤ T.misses) :
    (missed + 1) * T.round ≤ (T.misses + 1) * T.round :=
  Nat.mul_le_mul_right _ (Nat.succ_le_succ h)

theorem Timing.one_more (T : Timing) (missed : Nat) :
    (missed + 1) * T.round = missed * T.round + T.round := Nat.succ_mul _ _

/-- how long the lease lasts, asleep or awake -/
theorem Covered.slack_asleep {since missed : Nat}
    (h : Covered T now expiry (.asleep since missed)) :
    now + T.term ≤ expiry + (missed + 1) * T.round := by
  obtain ⟨hdue, -, -, hterm⟩ := h
  change now ≤ since + T.interval + T.delay at hdue
  have hmore := T.one_more missed
  have hround := T.round_eq
  omega

theorem Covered.slack_renewing {since missed : Nat} {renewed : Bool}
    (h : Covered T now expiry (.renewing since missed renewed)) :
    now + T.term ≤ expiry + (missed + 1) * T.round + T.delay := by
  obtain ⟨hdue, -, -, hterm⟩ := h
  change now ≤ since + T.delay at hdue
  cases renewed with
  | true =>
    rw [if_pos rfl] at hterm
    omega
  | false =>
    rw [if_neg Bool.false_ne_true] at hterm
    omega

theorem Covered.slack_stop (h : Covered T now expiry st) (hopen : ∀ since, st ≠ .closing since) :
    now + T.term ≤ expiry + (T.misses + 1) * T.round + T.delay := by
  cases st with
  | opening since =>
    obtain ⟨hdue, -, hterm⟩ := h
    change now ≤ since + T.delay at hdue
    omega
  | asleep since missed =>
    have hslack := h.slack_asleep
    have hround := Timing.rounds_le h.within.2.1
    omega
  | renewing since missed renewed =>
    have hslack := h.slack_renewing
    have hround := Timing.rounds_le h.within.2.1
    omega
  | closing since => exact absurd rfl (hopen since)

/-- **A covered lease has not lapsed.** -/
theorem Covered.unlapsed (hT : T.Ample) (h : Covered T now expiry st) : now < expiry := by
  have hample : (T.misses + 1) * T.round + 2 * T.delay < T.term := hT
  cases st with
  | closing since =>
    obtain ⟨hdue, -, hterm⟩ := h
    change now ≤ since + T.delay at hdue
    omega
  | opening since =>
    have hslack := h.slack_stop fun _ hs => by cases hs
    omega
  | asleep since missed =>
    have hslack := h.slack_stop fun _ hs => by cases hs
    omega
  | renewing since missed renewed =>
    have hslack := h.slack_stop fun _ hs => by cases hs
    omega

theorem Covered.take (h : now + T.term ≤ expiry) : Covered T now expiry (.opening now) :=
  ⟨Nat.le_add_right _ _, le_refl _, h⟩

theorem Covered.elapse (h : Covered T now expiry st) {later : Nat} (hle : now ≤ later)
    (hdue : later ≤ st.due T) : Covered T later expiry st := by
  refine ⟨hdue, ?_⟩
  have hwithin := h.within
  cases st with
  | opening since => exact ⟨le_trans hwithin.1 hle, hwithin.2⟩
  | asleep since missed => exact ⟨le_trans hwithin.1 hle, hwithin.2⟩
  | renewing since missed renewed => exact ⟨le_trans hwithin.1 hle, hwithin.2⟩
  | closing since => exact ⟨le_trans hwithin.1 hle, hwithin.2⟩

theorem Covered.extend (h : Covered T now expiry st) {later : Nat} (hle : expiry ≤ later) :
    Covered T now later st := by
  refine ⟨h.due, ?_⟩
  have hwithin := h.within
  cases st with
  | opening since => exact ⟨hwithin.1, le_trans hwithin.2 hle⟩
  | asleep since missed =>
    obtain ⟨hsince, hm, hterm⟩ := hwithin
    exact ⟨hsince, hm, by omega⟩
  | renewing since missed renewed =>
    obtain ⟨hsince, hm, hterm⟩ := hwithin
    exact ⟨hsince, hm, le_trans hterm (Nat.add_le_add_right hle _)⟩
  | closing since =>
    obtain ⟨hsince, hterm⟩ := hwithin
    exact ⟨hsince, by omega⟩

/-- asleep from now on, after `missed` rounds in a row that did not renew -/
theorem Covered.sleep {missed : Nat} (hm : missed ≤ T.misses)
    (h : now + T.term ≤ expiry + T.delay + missed * T.round) :
    Covered T now expiry (.asleep now missed) := by
  refine ⟨?_, le_refl _, hm, h⟩
  show now ≤ now + T.interval + T.delay
  omega

theorem Covered.start (h : Covered T now expiry st) : Covered T now expiry (st.start now) := by
  cases st with
  | opening since =>
    obtain ⟨hdue, -, hterm⟩ := h
    change now ≤ since + T.delay at hdue
    exact Covered.sleep (Nat.zero_le _) (by omega)
  | asleep since missed => exact h
  | renewing since missed renewed => exact h
  | closing since => exact h

theorem Covered.stop (h : Covered T now expiry st) : Covered T now expiry (st.stop now) := by
  cases st with
  | closing since => exact h
  | opening since =>
    exact ⟨Nat.le_add_right _ _, le_refl _, h.slack_stop fun _ hs => by cases hs⟩
  | asleep since missed =>
    exact ⟨Nat.le_add_right _ _, le_refl _, h.slack_stop fun _ hs => by cases hs⟩
  | renewing since missed renewed =>
    exact ⟨Nat.le_add_right _ _, le_refl _, h.slack_stop fun _ hs => by cases hs⟩

theorem Covered.wake (h : Covered T now expiry st) (hs : st.wake T.interval now = some st') :
    Covered T now expiry st' := by
  cases st with
  | asleep since missed =>
    obtain ⟨-, hs⟩ := Option.ite_none_right_eq_some.mp hs
    cases hs
    refine ⟨Nat.le_add_right _ _, le_refl _, h.within.2.1, ?_⟩
    rw [if_neg Bool.false_ne_true]
    exact h.slack_asleep
  | opening since => cases hs
  | renewing since missed renewed => cases hs
  | closing since => cases hs

theorem Covered.renew (h : Covered T now expiry st) (hs : st.renew = some st') {later : Nat}
    (hlater : now + T.term ≤ later) : Covered T now later st' := by
  cases st with
  | renewing since missed renewed =>
    cases hs
    obtain ⟨hdue, hsince, hm, -⟩ := h
    refine ⟨hdue, hsince, hm, ?_⟩
    rw [if_pos rfl]
    omega
  | opening since => cases hs
  | asleep since missed => cases hs
  | closing since => cases hs

theorem Covered.reply (h : Covered T now expiry st) (hs : st.reply now = some st')
    (hmiss : st.mayMiss T.misses = true) : Covered T now expiry st' := by
  cases st with
  | renewing since missed renewed =>
    cases hs
    obtain ⟨hdue, -, -, hterm⟩ := h
    change now ≤ since + T.delay at hdue
    cases renewed with
    | true =>
      rw [if_pos rfl] at hterm ⊢
      exact Covered.sleep (Nat.zero_le _) (by omega)
    | false =>
      rw [if_neg Bool.false_ne_true] at hterm ⊢
      exact Covered.sleep (of_decide_eq_true hmiss) (by omega)
  | opening since => cases hs
  | asleep since missed => cases hs
  | closing since => cases hs

end
end Lease
end Lib
