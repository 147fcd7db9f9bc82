import KatagoWs.Lib.Prog
import KatagoWs.Lib.Run

/-!
# One thread, driven alone

`Prog.drive` makes the calls of one program with the given choices, nobody else moving in between.

* `Prog.drive_call`, `Prog.drive_append`   a call, and one list of choices after another;
* `Pool.exec_drive`                        the run of a pool in which only that thread moves.
-/

namespace Lib
variable {ι σ C χ : Type} {R : C → Type} {α : Type}

/-- the rest of the program and the state after the calls that `xs` decides; `none` when one of
them is not possible -/
def Prog.drive (exec : (c : C) → χ → σ → Option (R c × σ)) :
    Prog C R α → σ → List χ → Option (Prog C R α × σ)
  | p, s, [] => some (p, s)
  | .ret _, _, _ :: _ => none
  | .call c k, s, x :: xs => (exec c x s).bind fun a => (k a.1).drive exec a.2 xs

section
variable {exec : (c : C) → χ → σ → Option (R c × σ)}

theorem Prog.drive_nil (p : Prog C R α) (s : σ) : p.drive exec s [] = some (p, s) := by
  cases p <;> rfl

theorem Prog.drive_call {c : C} {k : R c → Prog C R α} {s t : σ} {x : χ} {r : R c}
    (h : exec c x s = some (r, t)) (xs : List χ) :
    (Prog.call c k).drive exec s (x :: xs) = (k r).drive exec t xs := by
  show (exec c x s).bind _ = _
  rw [h]
  rfl

theorem Prog.drive_cons {p q : Prog C R α} {s t : σ} {x : χ} {xs : List χ}
    (h : p.drive exec s (x :: xs) = some (q, t)) : ∃ c k r u, p = .call c k ∧
      exec c x s = some (r, u) ∧ (k r).drive exec u xs = some (q, t) := by
  cases p with
  | ret a => cases h
  | call c k =>
    obtain ⟨⟨r, u⟩, h1, h2⟩ := Option.bind_eq_some_iff.mp h
    exact ⟨c, k, r, u, rfl, h1, h2⟩

theorem Prog.drive_append {p q : Prog C R α} {s t : σ} {xs : List χ}
    (h : p.drive exec s xs = some (q, t)) (ys : List χ) :
    p.drive exec s (xs ++ ys) = q.drive exec t ys := by
  induction xs generalizing p s with
  | nil =>
    rw [Prog.drive_nil] at h
    cases h
    rfl
  | cons x xs ih =>
    obtain ⟨c, k, r, u, rfl, h1, h2⟩ := Prog.drive_cons h
    rw [List.cons_append, Prog.drive_call h1]
    exact ih h2

end

variable [DecidableEq ι]

/-- a machine that can make the calls of thread `i` runs it alone -/
theorem Pool.exec_drive {β : Type} {S : Sys (Pool ι σ C R α) β}
    (exec : ι → (c : C) → χ → σ → Option (R c × σ)) {i : ι} (act : χ → β)
    (hact : ∀ s x, S.step s (act x) = s.run exec i x) {xs : List χ} {s : Pool ι σ C R α}
    {p q : Prog C R α} {t : σ} (hi : s.thread i = some p)
    (h : p.drive (exec i) s.mem xs = some (q, t)) :
    S.exec s (xs.map act) = some { mem := t, thread := Function.update s.thread i (some q) } := by
  induction xs generalizing s p with
  | nil =>
    rw [Prog.drive_nil] at h
    cases h
    show some s = _
    rw [← hi, Function.update_eq_self]
  | cons x xs ih =>
    obtain ⟨c, k, r, u, rfl, h1, h2⟩ := Prog.drive_cons h
    have hrun : s.run exec i x
        = some { mem := u, thread := Function.update s.thread i (some (k r)) } := by
      unfold Pool.run
      rw [hi]
      dsimp only
      rw [h1]
      rfl
    show (S.step s (act x)).bind _ = _
    rw [hact, hrun]
    have ht := ih (s := { mem := u, thread := Function.update s.thread i (some (k r)) })
      (Function.update_self i _ _) h2
    rw [Option.bind_some, ht, Function.update_idem]

end Lib
