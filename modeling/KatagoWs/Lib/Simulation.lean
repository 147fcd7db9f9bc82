import KatagoWs.Lib.Run

/-!
# Refinement between machines

`S.Refines T ok R`: the states of `S` are related to states of `T` so that a step of `S` that
meets `ok` is matched by a run of `T`, of any length.  A step that `T` does not see is matched by
the empty run.

* `Refines.exec`        the runs of `S` are matched by runs of `T`;
* `Refines.reachable`   so a reachable state is related to a reachable one.
-/

namespace Lib
namespace Sys
variable {σ α τ β : Type*}

structure Refines (S : Sys σ α) (T : Sys τ β) (ok : σ → α → Prop) (R : σ → τ → Prop) : Prop where
  init : ∀ s, S.init s → ∃ t, T.init t ∧ R s t
  step : ∀ s a s' t, R s t → ok s a → S.step s a = some s' →
    ∃ bs t', T.exec t bs = some t' ∧ R s' t'

variable {S : Sys σ α} {T : Sys τ β} {ok : σ → α → Prop} {R : σ → τ → Prop}

theorem exec_one {s t : σ} {a : α} (h : S.step s a = some t) : S.exec s [a] = some t := by
  show (S.step s a).bind _ = _
  rw [h]
  rfl

theorem Meets.cons {s t : σ} {a : α} {as : List α} (hok : ok s a) (hs : S.step s a = some t)
    (h : S.Meets ok t as) : S.Meets ok s (a :: as) := by
  refine ⟨hok, fun t' ht => ?_⟩
  rw [hs] at ht
  cases ht
  exact h

theorem Meets.of_decide [∀ s a, Decidable (ok s a)] {s : σ} {as : List α}
    (h : S.check (fun s a => decide (ok s a)) s as = true) : S.Meets ok s as := by
  induction as generalizing s with
  | nil => exact True.intro
  | cons a as ih =>
    obtain ⟨h1, h2⟩ := (Bool.and_eq_true ..).mp h
    refine ⟨of_decide_eq_true h1, fun s' he => ih ?_⟩
    rw [he] at h2
    exact h2

theorem Reachable.always {s : σ} (h : S.Reachable s) : S.ReachableIf (fun _ _ => True) s := by
  obtain ⟨s₀, as, h0, he⟩ := h
  exact ⟨s₀, as, h0, he, Meets.trivial s₀ as⟩

theorem Refines.exec (h : S.Refines T ok R) {as : List α} {s s' : σ} {t : τ} (hR : R s t)
    (hm : S.Meets ok s as) (he : S.exec s as = some s') :
    ∃ bs t', T.exec t bs = some t' ∧ R s' t' := by
  induction as generalizing s t with
  | nil =>
    cases he
    exact ⟨[], t, rfl, hR⟩
  | cons a as ih =>
    obtain ⟨u, h1, h2⟩ := exec_cons he
    obtain ⟨bs, v, hb, hv⟩ := h.step s a u t hR hm.1 h1
    obtain ⟨cs, w, hc, hw⟩ := ih hv (hm.2 u h1) h2
    refine ⟨bs ++ cs, w, ?_, hw⟩
    rw [exec_append, hb]
    exact hc

theorem Refines.reachable (h : S.Refines T ok R) {s : σ} (hs : S.ReachableIf ok s) :
    ∃ t, T.Reachable t ∧ R s t := by
  obtain ⟨s₀, as, h0, he, hm⟩ := hs
  obtain ⟨t₀, ht, hR⟩ := h.init s₀ h0
  obtain ⟨bs, t, hb, hR'⟩ := h.exec hR hm he
  exact ⟨t, ⟨t₀, bs, ht, hb⟩, hR'⟩

end Sys
end Lib
