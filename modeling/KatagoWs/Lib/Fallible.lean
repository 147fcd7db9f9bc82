import Mathlib.Data.List.Basic

/-!
# Fallible computations

A step tried on every item of a list gives a result for each, or none at all (`mapM_eq_some`,
`mapM_eq_none`).

`Agree R` relates two results that are one error, or values related by `R`.  A computation made
of steps that keep the relation keeps it (`Agree.bind`), and results that agree up to equality
are equal (`Agree.eq`).
-/

namespace Lib

section
variable {A B : Type*}

theorem mapM_eq_some (f : A → Option B) (l : List A) (r : List B) :
    l.mapM f = some r ↔ l.map f = r.map some := by
  induction l generalizing r with
  | nil => cases r <;> simp
  | cons a l ih =>
    rw [List.mapM_cons, List.map_cons]
    cases hf : f a with
    | none => cases r <;> simp
    | some b =>
      cases r with
      | nil => cases l.mapM f <;> simp
      | cons b' r =>
        rw [List.map_cons, List.cons.injEq, ← ih r]
        cases l.mapM f <;> simp

theorem mapM_eq_none (f : A → Option B) (l : List A) :
    l.mapM f = none ↔ ∃ a ∈ l, f a = none := by
  induction l with
  | nil => simp
  | cons a l ih =>
    rw [List.mapM_cons, List.exists_mem_cons_iff, ← ih]
    cases hf : f a with
    | none => simp
    | some b => cases l.mapM f <;> simp

theorem mapM_congr {f g : A → Option B} {l : List A} (h : ∀ x ∈ l, f x = g x) :
    l.mapM f = l.mapM g := by
  induction l with
  | nil => rfl
  | cons x l ih =>
    obtain ⟨hx, hl⟩ := List.forall_mem_cons.mp h
    rw [List.mapM_cons, List.mapM_cons, hx, ih hl]

end

inductive Agree {ε α β : Type*} (R : α → β → Prop) : Except ε α → Except ε β → Prop
  | error (e : ε) : Agree R (.error e) (.error e)
  | ok {a : α} {b : β} (h : R a b) : Agree R (.ok a) (.ok b)

section
variable {ε : Type*}

theorem Agree.eq {α : Type*} {x y : Except ε α} (h : Agree Eq x y) : x = y := by
  cases h with
  | error e => rfl
  | ok h => rw [h]

theorem Agree.of_eq {α : Type*} {x y : Except ε α} (h : x = y) : Agree Eq x y := by
  subst h
  cases x with
  | error e => exact Agree.error e
  | ok a => exact Agree.ok rfl

theorem Agree.mono {α β : Type*} {R S : α → β → Prop} {x : Except ε α} {y : Except ε β}
    (h : Agree R x y) (hs : ∀ a b, R a b → S a b) : Agree S x y := by
  cases h with
  | error e => exact Agree.error e
  | ok h => exact Agree.ok (hs _ _ h)

theorem Agree.map {α β α' β' : Type*} {R : α → β → Prop} {S : α' → β' → Prop} {x : Except ε α}
    {y : Except ε β} {f : α → α'} {g : β → β'} (h : Agree R x y)
    (hf : ∀ a b, R a b → S (f a) (g b)) : Agree S (x.map f) (y.map g) := by
  cases h with
  | error e => exact Agree.error e
  | ok h => exact Agree.ok (hf _ _ h)

theorem Agree.bind {α β α' β' : Type*} {R : α → β → Prop} {S : α' → β' → Prop} {x : Except ε α}
    {y : Except ε β} {f : α → Except ε α'} {g : β → Except ε β'} (h : Agree R x y)
    (hf : ∀ a b, R a b → Agree S (f a) (g b)) : Agree S (x.bind f) (y.bind g) := by
  cases h with
  | error e => exact Agree.error e
  | ok h => exact hf _ _ h

end
end Lib
