import Mathlib.Data.List.Basic

/-!
# Runs of a labelled machine

A machine is an initial condition and a partial step function on labelled actions: everything a
step leaves open (which party moves, what a call answers) is in the label, so a run is a list
of labels and can be evaluated.

* `Sys.exec`             the state after a list of actions;
* `Sys.Reachable`        the states of all runs, `Sys.ReachableIf ok` those of the runs every
                         step of which meets `ok`;
* `Sys.Reachable.rule`   the invariant rule, `Sys.ReachableIf.rule` its conditional form,
                         `Sys.exec_past` the one of an invariant that knows the actions so far;
* `Sys.check`            the condition of such a run, evaluated (`Sys.Meets.of_check`);
* `Sys.withHistory`      the machine with a record of its run, which changes none of its runs
                         (`withHistory_reachable`);
* `Sys.exec_rel`         a reflexive transitive relation kept by every step relates the two
                         ends of a run.
-/

namespace Lib

structure Sys (σ α : Type*) where
  init : σ → Prop
  step : σ → α → Option σ

namespace Sys
variable {σ α : Type*} (S : Sys σ α)

/-- the state after the actions `as`; `none` as soon as one of them is not enabled -/
def exec : σ → List α → Option σ
  | s, [] => some s
  | s, a :: as => (S.step s a).bind fun s' => exec s' as

/-- every step of the run meets `ok` in the state it is taken from -/
def Meets (ok : σ → α → Prop) : σ → List α → Prop
  | _, [] => True
  | s, a :: as => ok s a ∧ ∀ s', S.step s a = some s' → Meets ok s' as

def check (ok : σ → α → Bool) : σ → List α → Bool
  | _, [] => true
  | s, a :: as => ok s a && (S.step s a).all fun s' => check ok s' as

def Reachable (s : σ) : Prop := ∃ s₀ as, S.init s₀ ∧ S.exec s₀ as = some s

def ReachableIf (ok : σ → α → Prop) (s : σ) : Prop :=
  ∃ s₀ as, S.init s₀ ∧ S.exec s₀ as = some s ∧ S.Meets ok s₀ as

variable {S}

theorem exec_cons {s t : σ} {a : α} {as : List α} (h : S.exec s (a :: as) = some t) :
    ∃ s', S.step s a = some s' ∧ S.exec s' as = some t := Option.bind_eq_some_iff.mp h

theorem exec_append (s : σ) (as bs : List α) :
    S.exec s (as ++ bs) = (S.exec s as).bind fun t => S.exec t bs := by
  induction as generalizing s with
  | nil => rfl
  | cons a as ih =>
    show (S.step s a).bind (fun s' => S.exec s' (as ++ bs))
      = ((S.step s a).bind fun s' => S.exec s' as).bind fun t => S.exec t bs
    rw [Option.bind_assoc]
    exact congrArg _ (funext ih)

/-- a relation that every step stays in relates the two ends of a run -/
theorem exec_rel {R : σ → σ → Prop} (refl : ∀ s, R s s)
    (trans : ∀ s t u, R s t → R t u → R s u)
    (hstep : ∀ s a t, S.step s a = some t → R s t) :
    ∀ {as : List α} {s t : σ}, S.exec s as = some t → R s t := by
  intro as
  induction as with
  | nil => intro s t h; cases h; exact refl s
  | cons a as ih =>
    intro s t h
    obtain ⟨s', h1, h2⟩ := exec_cons h
    exact trans s s' t (hstep s a s' h1) (ih h2)

/-- an invariant of the steps that meet `ok` holds at the end of a run whose steps all do -/
theorem exec_inv {ok : σ → α → Prop} {I : σ → Prop}
    (hstep : ∀ s a t, I s → ok s a → S.step s a = some t → I t) :
    ∀ {as : List α} {s t : σ}, I s → S.Meets ok s as → S.exec s as = some t → I t := by
  intro as
  induction as with
  | nil => intro s t hI _ h; cases h; exact hI
  | cons a as ih =>
    intro s t hI hm h
    obtain ⟨s', h1, h2⟩ := exec_cons h
    exact ih (hstep s a s' hI hm.1 h1) (hm.2 s' h1) h2

/-- an invariant that knows the actions so far -/
theorem exec_past {ok : σ → α → Prop} {I : List α → σ → Prop}
    (hstep : ∀ past s a t, I past s → ok s a → S.step s a = some t → I (past ++ [a]) t) :
    ∀ {as past : List α} {s t : σ}, I past s → S.Meets ok s as → S.exec s as = some t →
      I (past ++ as) t := by
  intro as
  induction as with
  | nil =>
    intro past s t hI _ h
    cases h
    rw [List.append_nil]
    exact hI
  | cons a as ih =>
    intro past s t hI hm h
    obtain ⟨s', h1, h2⟩ := exec_cons h
    have ht := ih (hstep past s a s' hI hm.1 h1) (hm.2 s' h1) h2
    rwa [List.append_assoc] at ht

theorem Meets.trivial (s : σ) (as : List α) : S.Meets (fun _ _ => True) s as := by
  induction as generalizing s with
  | nil => exact True.intro
  | cons a as ih => exact ⟨True.intro, fun s' _ => ih s'⟩

theorem Meets.imp {ok ok' : σ → α → Prop} (h : ∀ s a, ok s a → ok' s a) {s : σ} {as : List α}
    (hm : S.Meets ok s as) : S.Meets ok' s as := by
  induction as generalizing s with
  | nil => exact True.intro
  | cons a as ih => exact ⟨h s a hm.1, fun s' hs => ih (hm.2 s' hs)⟩

theorem Meets.of_check {ok : σ → α → Bool} {s : σ} {as : List α} (h : S.check ok s as = true) :
    S.Meets (fun s a => ok s a = true) s as := by
  induction as generalizing s with
  | nil => exact True.intro
  | cons a as ih =>
    obtain ⟨h1, h2⟩ := (Bool.and_eq_true ..).mp h
    refine ⟨h1, fun s' he => ih ?_⟩
    rw [he] at h2
    exact h2

/-- **Conditional invariant rule.** -/
theorem ReachableIf.rule {ok : σ → α → Prop} {I : σ → Prop} (hinit : ∀ s, S.init s → I s)
    (hstep : ∀ s a t, I s → ok s a → S.step s a = some t → I t) {s : σ}
    (h : S.ReachableIf ok s) : I s := by
  obtain ⟨s₀, as, h0, he, hm⟩ := h
  exact exec_inv hstep (hinit s₀ h0) hm he

/-- **Invariant rule.** -/
theorem Reachable.rule {I : σ → Prop} (hinit : ∀ s, S.init s → I s)
    (hstep : ∀ s a t, I s → S.step s a = some t → I t) {s : σ} (h : S.Reachable s) : I s := by
  obtain ⟨s₀, as, h0, he⟩ := h
  exact exec_inv (fun s a t hI _ hs => hstep s a t hI hs) (hinit s₀ h0) (Meets.trivial s₀ as) he

theorem Reachable.init {s : σ} (h : S.init s) : S.Reachable s := ⟨s, [], h, rfl⟩

theorem ReachableIf.reachable {ok : σ → α → Prop} {s : σ} (h : S.ReachableIf ok s) :
    S.Reachable s := by
  obtain ⟨s₀, as, h0, he, _⟩ := h
  exact ⟨s₀, as, h0, he⟩

theorem Reachable.exec {s t : σ} {as : List α} (h : S.Reachable s) (he : S.exec s as = some t) :
    S.Reachable t := by
  obtain ⟨s₀, bs, h0, hb⟩ := h
  refine ⟨s₀, bs ++ as, h0, ?_⟩
  rw [exec_append, hb]
  exact he

/-! ## machines with a history -/

section
variable {η : Type*}

/-- the machine that writes its run down: `note s a h` is the record after the step `a` from `s` -/
def withHistory (S : Sys σ α) (start : η) (note : σ → α → η → η) : Sys (σ × η) α where
  init p := S.init p.1 ∧ p.2 = start
  step p a := (S.step p.1 a).map fun t => (t, note p.1 a p.2)

variable {start : η} {note : σ → α → η → η}

theorem withHistory_step {p q : σ × η} {a : α}
    (h : (S.withHistory start note).step p a = some q) :
    S.step p.1 a = some q.1 ∧ q.2 = note p.1 a p.2 := by
  obtain ⟨t, ht, rfl⟩ := Option.map_eq_some_iff.mp h
  exact ⟨ht, rfl⟩

theorem withHistory_exec {as : List α} {s t : σ} (h : S.exec s as = some t) (k : η) :
    ∃ k', (S.withHistory start note).exec (s, k) as = some (t, k') := by
  induction as generalizing s k with
  | nil =>
    cases h
    exact ⟨k, rfl⟩
  | cons a as ih =>
    obtain ⟨u, h1, h2⟩ := exec_cons h
    obtain ⟨k', hk⟩ := ih h2 (note s a k)
    refine ⟨k', ?_⟩
    show ((S.step s a).map _).bind _ = _
    rw [h1]
    exact hk

/-- **The record changes no run**: the machine reaches the same states with it and without. -/
theorem withHistory_reachable {s : σ} :
    S.Reachable s ↔ ∃ k, (S.withHistory start note).Reachable (s, k) := by
  constructor
  · rintro ⟨s₀, as, h0, he⟩
    obtain ⟨k, hk⟩ := withHistory_exec he start
    exact ⟨k, (s₀, start), as, ⟨h0, rfl⟩, hk⟩
  · rintro ⟨k, h⟩
    have hall : ∀ p, (S.withHistory start note).Reachable p → S.Reachable p.1 := by
      intro p hp
      refine hp.rule (I := fun p => S.Reachable p.1)
        (fun p (h0 : S.init p.1 ∧ p.2 = start) => Reachable.init h0.1) ?_
      intro p a q hr hs
      refine Reachable.exec hr (?_ : S.exec p.1 [a] = some q.1)
      show (S.step p.1 a).bind _ = _
      rw [(withHistory_step hs).1]
      rfl
    exact hall (s, k) h

end

end Sys
end Lib
